import Mathlib.Data.List.Basic
import Mathlib.Data.List.TakeDrop
import SchemaDecl.Proofs.Layouts

/-!
# Readers

A reader takes something off the front of a text and leaves the rest. What it reads has to end
somewhere: a reader may rely on what follows, as long as the written text always is followed by
such a thing. Readers do not know the level of a text; they skip the spaces in front of a line.

## Implementation notes

Lists are read with a bound on the number of items, so that every reader is total. The length of
the text that is left is such a bound, since no item is empty.
-/

namespace SchemaDecl.Reading

open Textual

/-- Takes something off the front of a text and leaves the rest. -/
abbrev Reader (α : Type) := List Char → Option (α × List Char)

variable {α β : Type}

/-- The reader takes just the given text off, wherever what follows is allowed. -/
def Reads (read : Reader α) (follow : List Char → Prop) (a : α) (text : List Char) : Prop :=
  ∀ rest, follow rest → read (text ++ rest) = some (a, rest)

variable {p : Char → Prop} {text rest : List Char}

/-- The text without the spaces in front of it. -/
def skipSpaces (text : List Char) : List Char := text.dropWhile (· == ' ')

@[simp] theorem skipSpaces_replicate_append (count : Nat) (text : List Char) :
    skipSpaces (List.replicate count ' ' ++ text) = skipSpaces text := by
  apply List.dropWhile_append_of_pos
  intro c hc
  simpa using (List.mem_replicate.mp hc).2

theorem skipSpaces_cons {c : Char} (h : c ≠ ' ') (text : List Char) :
    skipSpaces (c :: text) = c :: text :=
  List.dropWhile_cons_of_neg (by simpa using h)

theorem skipSpaces_eq_self (h : StartsWith (· ≠ ' ') text) : skipSpaces text = text := by
  obtain ⟨c, cs, rfl, hc⟩ := h
  exact skipSpaces_cons hc cs

/-- The longest beginning of which all characters have a property ends where one has not. -/
theorem span_append {p : Char → Bool} {word : List Char} (hword : ∀ c ∈ word, p c = true)
    (hrest : rest = [] ∨ StartsWith (p · = false) rest) :
    (word ++ rest).span p = (word, rest) := by
  rw [List.span_eq_takeWhile_dropWhile, List.takeWhile_append_of_pos hword,
    List.dropWhile_append_of_pos hword]
  obtain rfl | ⟨c, cs, rfl, hc⟩ := hrest
  · simp
  · simp [hc]

@[simp] theorem isPrefixOf?_append (start rest : List Char) :
    start.isPrefixOf? (start ++ rest) = some rest :=
  List.isPrefixOf?_eq_some_iff_append_eq.mpr rfl

theorem length_le_length_flatten {f : β → List Char} {items : List β}
    (h : ∀ b ∈ items, f b ≠ []) : items.length ≤ (items.map f).flatten.length := by
  induction items with
  | nil => exact Nat.le_refl 0
  | cons b others ih =>
      obtain ⟨hb, hothers⟩ := List.forall_mem_cons.mp h
      have hpos : 0 < (f b).length := List.length_pos_iff.mpr hb
      have hle := ih hothers
      simp only [List.map_cons, List.flatten_cons, List.length_append, List.length_cons]
      omega

/-- Reads items as long as one begins, and at most the given number. -/
def manyUpTo (begins : List Char → Bool) (read : Reader α) : Nat → Reader (List α)
  | 0, text => some ([], text)
  | count + 1, text =>
      if begins text then do
        let (a, text) ← read text
        let (others, text) ← manyUpTo begins read count text
        return (a :: others, text)
      else some ([], text)

/-- Reads items as long as one begins. -/
def many (begins : List Char → Bool) (read : Reader α) : Reader (List α) :=
  fun text => manyUpTo begins read text.length text

theorem reads_manyUpTo {begins : List Char → Bool} {read : Reader α} {f : β → List Char}
    {g : β → α} {items : List β} {count : Nat} (hcount : items.length ≤ count)
    (hbegins : ∀ b ∈ items, ∀ rest, begins (f b ++ rest) = true)
    (hread : ∀ b ∈ items, Reads read (fun _ => True) (g b) (f b)) :
    Reads (manyUpTo begins read count) (begins · = false) (items.map g)
      (items.map f).flatten := by
  intro rest hrest
  induction items generalizing count with
  | nil =>
      cases count with
      | zero => rfl
      | succ count => simp [manyUpTo, hrest]
  | cons b others ih =>
      obtain ⟨hb, hothers⟩ := List.forall_mem_cons.mp hread
      obtain ⟨hbBegins, hothersBegin⟩ := List.forall_mem_cons.mp hbegins
      cases count with
      | zero => cases hcount
      | succ count =>
          have hothersRead := ih (Nat.le_of_succ_le_succ hcount) hothersBegin hothers
          simp only [List.map_cons, List.flatten_cons, List.append_assoc, manyUpTo, hbBegins,
            if_true, hb _ trivial]
          simp [hothersRead]

/-- Items that all announce themselves are read up to a text that announces none. -/
theorem reads_many {begins : List Char → Bool} {read : Reader α} {f : β → List Char}
    {g : β → α} {items : List β} (hne : ∀ b ∈ items, f b ≠ [])
    (hbegins : ∀ b ∈ items, ∀ rest, begins (f b ++ rest) = true)
    (hread : ∀ b ∈ items, Reads read (fun _ => True) (g b) (f b)) :
    Reads (many begins read) (begins · = false) (items.map g) (items.map f).flatten := by
  intro rest hrest
  apply reads_manyUpTo _ hbegins hread rest hrest
  calc items.length
    _ ≤ (items.map f).flatten.length := length_le_length_flatten hne
    _ ≤ ((items.map f).flatten ++ rest).length := List.length_append ▸ Nat.le_add_right _ _

theorem length_le_length_commaLines (level : Nat) (items : List (List Char)) :
    items.length ≤ (commaLines level items : List Char).length := by
  induction items with
  | nil => exact Nat.le_refl 0
  | cons item others ih =>
      simp only [commaLines_cons, List.length_append, List.length_cons]
      omega

theorem length_lt_length_commaLines {level : Nat} {items : List (List Char)} {item : List Char}
    (h : item ∈ items) : item.length < (commaLines level items : List Char).length := by
  induction items with
  | nil => cases h
  | cons first others ih =>
      simp only [commaLines_cons, List.length_append, List.length_cons]
      obtain rfl | h := List.mem_cons.mp h
      · omega
      · have hlt := ih h
        omega

/-- A comma, or no comma, and the end of the line follow. -/
def EndsLine (text : List Char) : Prop := ∃ rest, text = ',' :: '\n' :: rest ∨ text = '\n' :: rest

/-- Reads items on lines of their own, with commas between them, and at most the given number. -/
def readCommaLinesUpTo (read : Reader α) : Nat → Reader (List α)
  | 0, _ => none
  | count + 1, text => do
      let (a, text) ← read (skipSpaces text)
      match text with
      | ',' :: '\n' :: text => do
          let (others, text) ← readCommaLinesUpTo read count text
          return (a :: others, text)
      | '\n' :: text => return ([a], text)
      | _ => none

/-- Reads items on lines of their own, with commas between them. -/
def readCommaLines (read : Reader α) : Reader (List α) :=
  fun text => readCommaLinesUpTo read text.length text

theorem reads_commaLinesUpTo {read : Reader α} {f : α → List Char} {items : List α}
    {count : Nat} (level : Nat) (hne : items ≠ []) (hcount : items.length ≤ count)
    (hvisible : ∀ a ∈ items, StartsWith (· ≠ ' ') (f a))
    (hread : ∀ a ∈ items, Reads read EndsLine a (f a)) :
    Reads (readCommaLinesUpTo read count) (fun _ => True) items
      (commaLines level (items.map f)) := by
  intro rest hrest
  induction items generalizing count with
  | nil => exact absurd rfl hne
  | cons a others ih =>
      obtain ⟨ha, hothers⟩ := List.forall_mem_cons.mp hread
      obtain ⟨haVisible, hothersVisible⟩ := List.forall_mem_cons.mp hvisible
      cases count with
      | zero => cases hcount
      | succ count =>
          have hskip (text : List Char) : skipSpaces (f a ++ text) = f a ++ text :=
            skipSpaces_eq_self (haVisible.append text)
          by_cases hlast : others = []
          · subst hlast
            have hend : EndsLine ('\n' :: rest) := ⟨rest, .inr rfl⟩
            simp [commaLines_cons, readCommaLinesUpTo, hskip, ha _ hend, commaLines]
          · have hend (text : List Char) : EndsLine (',' :: '\n' :: text) := ⟨text, .inl rfl⟩
            have hothersRead := ih hlast (Nat.le_of_succ_le_succ hcount) hothersVisible hothers
            simp [commaLines_cons, readCommaLinesUpTo, hskip, if_neg hlast, ha _ (hend _),
              hothersRead]

theorem reads_commaLines {read : Reader α} {f : α → List Char} {items : List α} (level : Nat)
    (hne : items ≠ []) (hvisible : ∀ a ∈ items, StartsWith (· ≠ ' ') (f a))
    (hread : ∀ a ∈ items, Reads read EndsLine a (f a)) :
    Reads (readCommaLines read) (fun _ => True) items (commaLines level (items.map f)) := by
  intro rest hrest
  apply reads_commaLinesUpTo level hne _ hvisible hread rest hrest
  calc items.length
    _ = (items.map f).length := (List.length_map _).symm
    _ ≤ (commaLines level (items.map f) : List Char).length := length_le_length_commaLines level _
    _ ≤ (commaLines level (items.map f) ++ rest).length :=
      List.length_append ▸ Nat.le_add_right _ _

/-- Reads items on lines of their own, with commas between them, and the closing character. -/
def readEnclosed (close : Char) (read : Reader α) : Reader (List α) := fun text => do
  let (items, text) ← readCommaLines read text
  let text ← [close].isPrefixOf? (skipSpaces text)
  return (items, text)

theorem reads_enclosed {read : Reader α} {f : α → List Char} {items : List α} (close : Char)
    (hclose : close ≠ ' ') (level last : Nat) (hne : items ≠ [])
    (hvisible : ∀ a ∈ items, StartsWith (· ≠ ' ') (f a))
    (hread : ∀ a ∈ items, Reads read EndsLine a (f a)) :
    Reads (readEnclosed close read) (fun _ => True) items
      (commaLines level (items.map f) ++ (indentation last ++ [close])) := by
  intro rest _
  have hitems :=
    reads_commaLines level hne hvisible hread (indentation last ++ close :: rest) trivial
  have hskip : skipSpaces (indentation last ++ close :: rest) = [close] ++ rest := by
    rw [indentation_eq, skipSpaces_replicate_append, skipSpaces_cons hclose, List.singleton_append]
  have htext : commaLines level (items.map f) ++ (indentation last ++ [close]) ++ rest =
      commaLines level (items.map f) ++ (indentation last ++ close :: rest) := by
    simp
  simp only [readEnclosed, htext, hitems, hskip, Option.bind_eq_bind, Option.bind_some,
    isPrefixOf?_append, Option.pure_def]

end SchemaDecl.Reading
