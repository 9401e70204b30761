import SchemaDecl.Proofs.Layouts

/-!
# Indenting a text

A text is indented line by line: a line that is not empty gets two spaces for every level, an empty
line stays empty. A text that begins in the middle of a line is indented from its second line on.
Both are functions of the text alone. The relations `Inline` and `WholeLines` say that one text is
another one indented, whatever text follows; they are closed under joining.

## Implementation notes

`shift` indents character by character and knows whether a line begins. It is the same function
as `indentLines`, which splits the text, but it can be followed through a text that is joined from
pieces.
-/

namespace SchemaDecl.Text

open Textual

/-- A line with spaces for the given levels in front, unless it is empty. -/
def indentLine (levels : Nat) (line : List Char) : List Char :=
  if line.isEmpty then [] else List.replicate (2 * levels) ' ' ++ line

/-- Spaces for the given levels in front of every line that is not empty. -/
def indentLines (levels : Nat) (text : List Char) : List Char :=
  ['\n'].intercalate ((text.splitOn '\n').map (indentLine levels))

/-- Spaces for the given levels behind every newline. -/
def indentContinuations (levels : Nat) (text : List Char) : List Char :=
  text.flatMap fun c => if c = '\n' then '\n' :: List.replicate (2 * levels) ' ' else [c]

/-- Indents a text of which is known whether it stands at the beginning of a line. -/
def shift (levels : Nat) : (atStart : Bool) → List Char → List Char
  | _, [] => []
  | atStart, c :: cs =>
      if c = '\n' then c :: shift levels true cs
      else (if atStart then indentation levels else []) ++ c :: shift levels false cs

variable {levels : Nat} {t t' s s' : List Char}

theorem indentation_add (level levels : Nat) :
    (indentation (level + levels) : List Char) = indentation levels ++ indentation level := by
  simp only [indentation_eq, List.replicate_append_replicate]
  congr 1
  omega

theorem newline_notMem_indentation (level : Nat) : '\n' ∉ (indentation level : List Char) := by
  simp

theorem intercalate_append_cons (sep start : List Char) (c : Char) (line : List Char)
    (rest : List (List Char)) :
    sep.intercalate ((start ++ c :: line) :: rest) =
      start ++ c :: sep.intercalate (line :: rest) := by
  cases rest with
  | nil => simp
  | cons next rest => simp

/-- Indenting along the characters is indenting along the lines. In the middle of a line, what is
left of the line stays as it is. -/
theorem shift_eq_intercalate {line : List Char} {rest : List (List Char)}
    (h : t.splitOn '\n' = line :: rest) :
    shift levels true t = ['\n'].intercalate ((line :: rest).map (indentLine levels)) ∧
      shift levels false t = ['\n'].intercalate (line :: rest.map (indentLine levels)) := by
  induction t generalizing line rest with
  | nil =>
      obtain ⟨rfl, rfl⟩ : [] = line ∧ [] = rest := by simpa using h
      simp [shift, indentLine]
  | cons c cs ih =>
      obtain ⟨next, others, hcs⟩ := List.exists_cons_of_ne_nil (List.splitOn_ne_nil '\n' cs)
      obtain ⟨ihStart, ihMiddle⟩ := ih hcs
      rw [List.splitOn_cons_eq_if_modifyHead, hcs] at h
      by_cases hc : c = '\n'
      · obtain ⟨rfl, rfl⟩ : [] = line ∧ next :: others = rest := by simpa [hc] using h
        simp [shift, hc, ihStart, indentLine]
      · obtain ⟨rfl, rfl⟩ : c :: next = line ∧ others = rest := by simpa [hc] using h
        constructor
        · simp only [shift, if_neg hc, if_true, ihMiddle, List.map_cons, indentLine]
          exact (intercalate_append_cons _ _ c next _).symm
        · simp only [shift, if_neg hc, ihMiddle]
          exact (intercalate_append_cons _ [] c next _).symm

theorem indentLines_eq_shift (levels : Nat) (text : List Char) :
    indentLines levels text = shift levels true text := by
  obtain ⟨line, rest, h⟩ := List.exists_cons_of_ne_nil (List.splitOn_ne_nil '\n' text)
  rw [indentLines, h, (shift_eq_intercalate h).1]

/-- The second text is the first one with all lines but its first indented, also if more text
follows. Every line behind a newline has to begin within the text and not to be empty. -/
def Inline (levels : Nat) (t t' : List Char) : Prop :=
  t' = indentContinuations levels t ∧
    ∀ u, shift levels false (t ++ u) = t' ++ shift levels false u

/-- The text begins with a character of a line. -/
abbrev Opens (t : List Char) : Prop := StartsWith (· ≠ '\n') t

theorem Opens.append_of_notMem (ht : '\n' ∉ t) (hs : Opens s) : Opens (t ++ s) := by
  cases t with
  | nil => exact hs
  | cons c cs => exact ⟨c, cs ++ s, rfl, fun hc => ht (hc ▸ List.mem_cons_self)⟩

theorem shift_true_of_opens (h : Opens t) :
    shift levels true t = indentation levels ++ shift levels false t := by
  obtain ⟨c, cs, rfl, hc⟩ := h
  simp [shift, hc]

/-- A text without a newline stays as it is. -/
theorem inline_of_notMem (h : '\n' ∉ t) : Inline levels t t := by
  induction t with
  | nil => exact ⟨rfl, fun u => rfl⟩
  | cons c cs ih =>
      rw [List.mem_cons, not_or] at h
      have hc : c ≠ '\n' := Ne.symm h.1
      obtain ⟨hcs, hshift⟩ := ih h.2
      refine ⟨?_, fun u => ?_⟩
      · rw [indentContinuations, List.flatMap_cons, if_neg hc, ← indentContinuations, ← hcs]
        rfl
      · simp only [List.cons_append, shift, if_neg hc, hshift]
        rfl

theorem Inline.append (ht : Inline levels t t') (hs : Inline levels s s') :
    Inline levels (t ++ s) (t' ++ s') := by
  refine ⟨?_, fun u => ?_⟩
  · rw [indentContinuations, List.flatMap_append, ← indentContinuations, ← indentContinuations,
      ht.1, hs.1]
  · rw [List.append_assoc, ht.2, hs.2, List.append_assoc]

/-- At the beginning of a line, an indented text gets the further indentation in front. -/
theorem Inline.indented (ht : Inline levels t t') (hopens : Opens t) (level : Nat)
    (u : List Char) :
    shift levels true (indentation level ++ t ++ u) =
      indentation (level + levels) ++ t' ++ shift levels false u := by
  have hlevel : Inline levels (indentation level) (indentation level) :=
    inline_of_notMem (newline_notMem_indentation level)
  have hstart : Opens (indentation level ++ t ++ u) :=
    (Opens.append_of_notMem (newline_notMem_indentation level) hopens).append u
  rw [shift_true_of_opens hstart, (hlevel.append ht).2, indentation_add, List.append_assoc,
    List.append_assoc, List.append_assoc]

/-- A newline, the indentation of the next line and the beginning of that line are indented
together. -/
theorem Inline.newline (ht : Inline levels t t') (hopens : Opens t) (level : Nat) :
    Inline levels ('\n' :: (indentation level ++ t))
      ('\n' :: (indentation (level + levels) ++ t')) := by
  have hlevel : Inline levels (indentation level) (indentation level) :=
    inline_of_notMem (newline_notMem_indentation level)
  refine ⟨?_, fun u => ?_⟩
  · rw [indentContinuations, List.flatMap_cons, if_pos rfl, ← indentContinuations,
      ← (hlevel.append ht).1, indentation_add, List.append_assoc]
    rfl
  · simp only [List.cons_append, shift, if_true, ht.indented hopens]

/-- The second text is the first one with all lines indented, also if more lines follow. -/
def WholeLines (levels : Nat) (t t' : List Char) : Prop :=
  ∀ u, shift levels true (t ++ u) = t' ++ shift levels true u

theorem wholeLines_nil : WholeLines levels [] [] := fun _ => rfl

theorem wholeLines_newline : WholeLines levels ['\n'] ['\n'] := fun u => by
  simp [shift]

theorem WholeLines.append (ht : WholeLines levels t t') (hs : WholeLines levels s s') :
    WholeLines levels (t ++ s) (t' ++ s') := fun u => by
  rw [List.append_assoc, ht, hs, List.append_assoc]

theorem wholeLines_flatten_map {α : Type} {f g : α → List Char} {items : List α}
    (h : ∀ a ∈ items, WholeLines levels (f a) (g a)) :
    WholeLines levels (items.map f).flatten (items.map g).flatten := by
  induction items with
  | nil => exact wholeLines_nil
  | cons a rest ih =>
      obtain ⟨ha, hrest⟩ := List.forall_mem_cons.mp h
      exact ha.append (ih hrest)

/-- An indented text that opens a line, together with the end of its last line. -/
theorem Inline.line (ht : Inline levels t t') (hopens : Opens t) (level : Nat) :
    WholeLines levels (indentation level ++ t ++ ['\n'])
      (indentation (level + levels) ++ t' ++ ['\n']) := by
  intro u
  rw [List.append_assoc, ht.indented hopens, List.append_assoc _ ['\n']]
  simp [shift]

theorem WholeLines.eq_indentLines (h : WholeLines levels t t') : t' = indentLines levels t := by
  have ht := h []
  rw [List.append_nil] at ht
  rw [indentLines_eq_shift, ht]
  simp [shift]

end SchemaDecl.Text
