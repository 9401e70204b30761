import SchemaDecl.Proofs.IndentedText

/-!
# Empty lines of a text

A line is empty if a newline directly follows another one. The empty lines of a text that is joined
from pieces are those of the pieces, each seen behind the pieces before it. A piece is compact if it
has no empty line behind any text: it does not begin with a newline, and no two newlines in it stand
side by side.

## Implementation notes

An empty line is given by the text before it and the text behind it, so that different empty lines
of a text stay apart.
-/

namespace SchemaDecl.Text

open Textual

/-- An empty line of a text, by what stands before it and what stands behind it. -/
structure EmptyLine where
  before : List Char
  after : List Char
deriving DecidableEq

/-- The empty lines that end within a text between two others: the newlines of the text that follow
another newline directly. -/
def emptyLinesWithin : (before text after : List Char) → List EmptyLine
  | _, [], _ => []
  | before, c :: rest, after =>
      (if c = '\n' ∧ before.getLast? = some '\n' then [⟨before, rest ++ after⟩] else []) ++
        emptyLinesWithin (before ++ [c]) rest after

/-- The empty lines of a text, in order. -/
def emptyLines (text : List Char) : List EmptyLine := emptyLinesWithin [] text []

variable {levels : Nat} {before after s t t' : List Char}

theorem mem_emptyLinesWithin_iff {line : EmptyLine} :
    line ∈ emptyLinesWithin before t after ↔
      ∃ front back, t = front ++ '\n' :: back ∧ (before ++ front).getLast? = some '\n' ∧
        line = ⟨before ++ front, back ++ after⟩ := by
  induction t generalizing before with
  | nil => simp [emptyLinesWithin]
  | cons c rest ih =>
      rw [emptyLinesWithin, List.mem_append, ih]
      constructor
      · rintro (h | ⟨front, back, rfl, hlast, rfl⟩)
        · obtain ⟨⟨rfl, hlast⟩, h⟩ := List.mem_ite_nil_right.mp h
          exact ⟨[], rest, rfl, by simpa using hlast, by simpa [hlast] using h⟩
        · exact ⟨c :: front, back, rfl, by simpa using hlast, by simp⟩
      · rintro ⟨_ | ⟨d, front⟩, back, h, hlast, rfl⟩
        · obtain ⟨rfl, rfl⟩ := List.cons.inj h
          left
          simpa using hlast
        · obtain ⟨rfl, rfl⟩ := List.cons.inj h
          right
          exact ⟨front, back, rfl, by simpa using hlast, by simp⟩

/-- The empty lines of a text are the places where two newlines stand side by side. -/
theorem mem_emptyLines_iff {text : List Char} :
    ⟨before ++ ['\n'], after⟩ ∈ emptyLines text ↔ text = before ++ ['\n', '\n'] ++ after := by
  rw [emptyLines, mem_emptyLinesWithin_iff]
  constructor
  · rintro ⟨front, back, rfl, -, hline⟩
    obtain ⟨hfront, hback⟩ := EmptyLine.mk.inj hline
    rw [List.nil_append] at hfront
    rw [List.append_nil] at hback
    simp [← hfront, hback]
  · rintro rfl
    exact ⟨before ++ ['\n'], after, by simp, by simp, by simp⟩

example : emptyLines "a\n\n\nb\n".toList =
    [⟨"a\n".toList, "\nb\n".toList⟩, ⟨"a\n\n".toList, "b\n".toList⟩] := by decide

theorem emptyLinesWithin_append :
    emptyLinesWithin before (s ++ t) after =
      emptyLinesWithin before s (t ++ after) ++ emptyLinesWithin (before ++ s) t after := by
  induction s generalizing before with
  | nil => simp [emptyLinesWithin]
  | cons c rest ih => simp [emptyLinesWithin, ih]

/-- Without empty lines behind any text. -/
def Compact (t : List Char) : Prop := ∀ before after, emptyLinesWithin before t after = []

theorem Compact.append (hs : Compact s) (ht : Compact t) : Compact (s ++ t) := by
  intro before after
  rw [emptyLinesWithin_append, hs, ht, List.append_nil]

theorem compact_flatten_map {α : Type} {f : α → List Char} {items : List α}
    (h : ∀ a ∈ items, Compact (f a)) : Compact (items.map f).flatten := by
  induction items with
  | nil => exact fun _ _ => rfl
  | cons a rest ih =>
      obtain ⟨ha, hrest⟩ := List.forall_mem_cons.mp h
      exact ha.append (ih hrest)

theorem compact_iff : Compact t ↔ t.head? ≠ some '\n' ∧ ¬ ['\n', '\n'] <:+: t := by
  constructor
  · intro h
    constructor
    · intro hhead
      obtain ⟨rest, rfl⟩ := List.head?_eq_some_iff.mp hhead
      simpa [emptyLinesWithin] using h ['\n'] []
    · rintro ⟨front, back, rfl⟩
      have hline : ⟨front ++ ['\n'], back⟩ ∈ emptyLines (front ++ ['\n', '\n'] ++ back) :=
        mem_emptyLines_iff.mpr rfl
      rw [emptyLines, h] at hline
      cases hline
  · rintro ⟨hhead, hpair⟩ before after
    rw [List.eq_nil_iff_forall_not_mem]
    intro line hline
    obtain ⟨front, back, rfl, hlast, -⟩ := mem_emptyLinesWithin_iff.mp hline
    rw [List.getLast?_append] at hlast
    cases hfront : front.getLast? with
    | none =>
        obtain rfl := List.getLast?_eq_none_iff.mp hfront
        exact hhead rfl
    | some c =>
        obtain ⟨start, rfl⟩ := List.getLast?_eq_some_iff.mp hfront
        rw [hfront, Option.some_or, Option.some_inj] at hlast
        exact hpair ⟨start, back, by simp [hlast]⟩

theorem Compact.opens (h : Compact t) (hne : t ≠ []) : Opens t := by
  obtain ⟨c, rest, rfl⟩ := List.exists_cons_of_ne_nil hne
  exact ⟨c, rest, rfl, fun hc => (compact_iff.mp h).1 (congrArg some hc)⟩

theorem compact_of_notMem (h : '\n' ∉ t) : Compact t :=
  compact_iff.mpr ⟨fun hhead => h (List.mem_of_head? hhead),
    fun hpair => h (hpair.subset List.mem_cons_self)⟩

theorem isInfix_cons_iff {c : Char} :
    ['\n', '\n'] <:+: c :: t ↔ (c = '\n' ∧ t.head? = some '\n') ∨ ['\n', '\n'] <:+: t := by
  rw [List.infix_cons_iff, List.cons_prefix_cons]
  cases t with
  | nil => simp
  | cons d rest => simp [@eq_comm Char '\n']

/-- A text that is indented behind each of its newlines, although only lines that are not empty get
an indentation, has no empty line. The newline behind the text is none of these. -/
theorem not_isInfix_of_shift_eq (hlevels : 0 < levels) (atStart : Bool)
    (h : shift levels atStart (t ++ ['\n']) =
      (if atStart then indentation levels else []) ++ (indentContinuations levels t ++ ['\n'])) :
    (atStart = true → (t ++ ['\n']).head? ≠ some '\n') ∧ ¬ ['\n', '\n'] <:+: t ++ ['\n'] := by
  -- At the beginning of an empty line there is nothing to indent.
  have hempty (rest others : List Char) :
      '\n' :: rest ≠ (indentation levels : List Char) ++ others := by
    intro h
    obtain ⟨spaces, hspaces⟩ := Nat.exists_eq_add_one_of_ne_zero (by omega : 2 * levels ≠ 0)
    rw [indentation_eq, hspaces, List.replicate_succ] at h
    exact absurd (List.cons.inj h).1 (by decide)
  induction t generalizing atStart with
  | nil =>
      cases atStart with
      | true => exact absurd h (hempty _ _)
      | false => simp [List.infix_cons_iff]
  | cons c rest ih =>
      rw [List.cons_append, isInfix_cons_iff, List.head?_cons]
      by_cases hc : c = '\n'
      · subst hc
        cases atStart with
        | true => exact absurd h (hempty _ _)
        | false =>
            obtain ⟨hhead, hpair⟩ := ih true (by simpa [shift, indentContinuations] using h)
            exact ⟨Bool.noConfusion, not_or.mpr ⟨fun h => hhead rfl h.2, hpair⟩⟩
      · obtain ⟨-, hpair⟩ := ih false (by simpa [shift, indentContinuations, hc] using h)
        exact ⟨fun _ hhead => hc (Option.some.inj hhead),
          not_or.mpr ⟨fun h => hc h.1, hpair⟩⟩

theorem Inline.compact_line (hlevels : 0 < levels) (ht : Inline levels t t') (hopens : Opens t)
    (level : Nat) : Compact (indentation level ++ t ++ ['\n']) := by
  have hshift : shift levels false (t ++ ['\n']) = indentContinuations levels t ++ ['\n'] := by
    rw [ht.2, ht.1]
    rfl
  have hlevel : Compact (indentation level) := compact_of_notMem (newline_notMem_indentation level)
  obtain ⟨-, hpair⟩ := not_isInfix_of_shift_eq hlevels false hshift
  obtain ⟨c, rest, rfl, hc⟩ := hopens
  have hline : Compact (c :: rest ++ ['\n']) :=
    compact_iff.mpr ⟨fun hhead => hc (Option.some.inj hhead), hpair⟩
  rw [List.append_assoc]
  exact hlevel.append hline

end SchemaDecl.Text
