import SchemaDecl.Proofs.Reading.Basic

/-!
# Texts without their comment lines

A line is a comment if its first characters other than spaces are two slashes. The relation
`Uncommented` says that one text consists of whole lines, and that another one is what is left of it
without the comments; it is closed under joining. A text that has no newline at the end opens code
if its first line cannot be a comment, whatever follows, and continues code if no later line that
begins within it can be one.

## Implementation notes

Whether a line is a comment is decided by its first visible characters. A text that opens code has a
visible character, so that its first line is decided although it may go on behind the text.
-/

namespace SchemaDecl.Text

open Reading Textual

/-- The first characters of the line other than spaces are two slashes. -/
def isComment (line : List Char) : Bool := "//".toList.isPrefixOf (skipSpaces line)

/-- The text without its comment lines. -/
def withoutComments (text : List Char) : List Char :=
  ['\n'].intercalate ((text.splitOn '\n').filter fun line => !isComment line)

variable {t t' s s' : List Char}

/-- The text of lines that all end with a newline. -/
def ended (lines : List (List Char)) : List Char := lines.flatMap (· ++ ['\n'])

theorem ended_append (first second : List (List Char)) :
    ended (first ++ second) = ended first ++ ended second :=
  List.flatMap_append

theorem ended_cons (line : List Char) (rest : List (List Char)) :
    ended (line :: rest) = line ++ '\n' :: ended rest := by
  rw [ended, List.flatMap_cons, ← ended, List.append_assoc, List.singleton_append]

/-- Lines that end with a newline, and text without one behind them, are the pieces of the text. -/
theorem splitOn_ended_append {lines : List (List Char)} {last : List Char}
    (h : ∀ line ∈ lines, '\n' ∉ line) (hlast : '\n' ∉ last) :
    (ended lines ++ last).splitOn '\n' = lines ++ [last] := by
  induction lines with
  | nil => exact List.splitOn_eq_singleton hlast
  | cons line rest ih =>
      obtain ⟨hline, hrest⟩ := List.forall_mem_cons.mp h
      rw [ended_cons, List.append_assoc, List.cons_append,
        List.splitOn_append_cons_self_of_not_mem hline, ih hrest, List.cons_append]

theorem splitOn_ended {lines : List (List Char)} (h : ∀ line ∈ lines, '\n' ∉ line) :
    (ended lines).splitOn '\n' = lines ++ [[]] := by
  simpa only [List.append_nil] using splitOn_ended_append h List.not_mem_nil

theorem intercalate_append_nil (lines : List (List Char)) :
    ['\n'].intercalate (lines ++ [[]]) = ended lines := by
  induction lines with
  | nil => rfl
  | cons line rest ih =>
      rw [List.cons_append, List.intercalate_cons_of_ne_nil (by simp), ih, ended, ended,
        List.flatMap_cons]

/-- The first text consists of whole lines, and the second one of those that are no comments. -/
def Uncommented (t t' : List Char) : Prop :=
  ∃ lines, (∀ line ∈ lines, '\n' ∉ line) ∧ t = ended lines ∧
    t' = ended (lines.filter fun line => !isComment line)

theorem Uncommented.withoutComments_eq (h : Uncommented t t') : withoutComments t = t' := by
  obtain ⟨lines, hlines, rfl, rfl⟩ := h
  have hlast : !isComment [] := rfl
  rw [withoutComments, splitOn_ended hlines, List.filter_append, List.filter_singleton, hlast]
  exact intercalate_append_nil _

theorem uncommented_nil : Uncommented [] [] := ⟨[], by simp, rfl, rfl⟩

/-- An empty line is no comment. -/
theorem uncommented_newline : Uncommented ['\n'] ['\n'] := ⟨[[]], by simp, rfl, rfl⟩

theorem Uncommented.append (ht : Uncommented t t') (hs : Uncommented s s') :
    Uncommented (t ++ s) (t' ++ s') := by
  obtain ⟨first, hfirst, rfl, rfl⟩ := ht
  obtain ⟨second, hsecond, rfl, rfl⟩ := hs
  exact ⟨first ++ second, List.forall_mem_append.mpr ⟨hfirst, hsecond⟩,
    (ended_append first second).symm, by rw [List.filter_append, ended_append]⟩

theorem uncommented_flatten_map {α : Type} {f g : α → List Char} {items : List α}
    (h : ∀ a ∈ items, Uncommented (f a) (g a)) :
    Uncommented (items.map f).flatten (items.map g).flatten := by
  induction items with
  | nil => exact uncommented_nil
  | cons a rest ih =>
      obtain ⟨ha, hrest⟩ := List.forall_mem_cons.mp h
      exact ha.append (ih hrest)

/-- Nothing is left of a comment line. -/
theorem uncommented_commentLine (level : Nat) {line : List Char} (h : '\n' ∉ comment line) :
    Uncommented (commentLine level line) [] := by
  have hline : isComment (indentation level ++ comment line) = true := by
    cases line <;> simp [isComment, comment, skipSpaces_cons]
  exact ⟨[indentation level ++ comment line], by simpa using h, by simp [ended, commentLine],
    by rw [List.filter_singleton, hline]; rfl⟩

/-- A character other than spaces is in the text, and the first such character is no slash. -/
def OpensCode (t : List Char) : Prop := StartsWith (· ≠ '/') (skipSpaces t)

/-- Whatever stands behind a newline of the text opens code. -/
def ContinuesCode (t : List Char) : Prop :=
  ∀ before after, t = before ++ '\n' :: after → OpensCode after

theorem skipSpaces_append (t s : List Char) :
    skipSpaces (t ++ s) = if (skipSpaces t).isEmpty then skipSpaces s else skipSpaces t ++ s :=
  List.dropWhile_append

theorem opensCode_cons {c : Char} (hspace : c ≠ ' ') (hslash : c ≠ '/') (t : List Char) :
    OpensCode (c :: t) :=
  ⟨c, t, skipSpaces_cons hspace t, hslash⟩

theorem OpensCode.append (h : OpensCode t) (s : List Char) : OpensCode (t ++ s) := by
  obtain ⟨c, rest, hskip, hc⟩ := h
  refine ⟨c, rest ++ s, ?_, hc⟩
  rw [skipSpaces_append, hskip]
  rfl

theorem OpensCode.indented (h : OpensCode t) (level : Nat) :
    OpensCode (indentation level ++ t) := by
  rw [OpensCode, indentation_eq, skipSpaces_replicate_append]
  exact h

theorem continuesCode_of_notMem (h : '\n' ∉ t) : ContinuesCode t := by
  rintro before after rfl
  exact absurd List.mem_append_cons_self h

theorem ContinuesCode.append (ht : ContinuesCode t) (hs : ContinuesCode s) :
    ContinuesCode (t ++ s) := by
  intro before after h
  obtain ⟨middle, hbefore, hafter⟩ | ⟨middle, hbefore, hafter⟩ := List.append_eq_append_iff.mp h
  · exact hs middle after hafter
  · cases middle with
    | nil => exact hs [] after hafter.symm
    | cons c rest =>
        obtain ⟨rfl, rfl⟩ := List.cons.inj hafter
        exact (ht before rest hbefore).append s

/-- A newline, the indentation of the next line and the code that opens it. -/
theorem ContinuesCode.newline (ht : ContinuesCode t) (hopens : OpensCode t) (level : Nat) :
    ContinuesCode ('\n' :: (indentation level ++ t)) := by
  have hlevel : ContinuesCode (indentation level) := continuesCode_of_notMem (by simp)
  intro before after h
  cases before with
  | nil =>
      obtain rfl := (List.cons.inj h).2
      exact hopens.indented level
  | cons c rest => exact hlevel.append ht rest after (List.cons.inj h).2

theorem OpensCode.isComment_eq_false (h : OpensCode (t ++ s)) : isComment t = false := by
  obtain ⟨c, rest, hskip, hc⟩ := h
  rw [skipSpaces_append] at hskip
  cases ht : skipSpaces t with
  | nil => simp [isComment, ht]
  | cons d others =>
      rw [ht] at hskip
      obtain ⟨rfl, -⟩ := List.cons.inj hskip
      simp [isComment, ht, List.isPrefixOf, Ne.symm hc]

/-- A text that opens and continues code, with a newline at its end, has no comment lines. -/
theorem OpensCode.exists_lines (hopens : OpensCode t) (hcontinues : ContinuesCode t) :
    ∃ lines, (∀ line ∈ lines, '\n' ∉ line ∧ isComment line = false) ∧
      t ++ ['\n'] = ended lines := by
  induction hlength : t.length using Nat.strongRecOn generalizing t with
  | _ length ih =>
      by_cases hnewline : '\n' ∈ t
      · -- The first line is decided within the text, and so is the beginning of the second.
        obtain ⟨line, rest, rfl, hline⟩ := List.eq_append_cons_of_mem hnewline
        have hrest : ContinuesCode rest := fun before after h =>
          hcontinues (line ++ '\n' :: before) after (by simp [h])
        have hshorter : rest.length < length := by
          simp only [List.length_append, List.length_cons] at hlength
          omega
        obtain ⟨lines, hlines, hended⟩ :=
          ih rest.length hshorter (hcontinues line rest rfl) hrest rfl
        refine ⟨line :: lines, ?_, ?_⟩
        · exact List.forall_mem_cons.mpr ⟨⟨hline, hopens.isComment_eq_false⟩, hlines⟩
        · rw [ended_cons, ← hended, List.append_assoc, List.cons_append]
      · refine ⟨[t], ?_, by simp [ended]⟩
        rw [← List.append_nil t] at hopens
        simpa using ⟨hnewline, hopens.isComment_eq_false⟩

/-- All lines of code are left. -/
theorem ContinuesCode.line (ht : ContinuesCode t) (hopens : OpensCode t) (level : Nat) :
    Uncommented (indentation level ++ t ++ ['\n']) (indentation level ++ t ++ ['\n']) := by
  have hlevel : ContinuesCode (indentation level) := continuesCode_of_notMem (by simp)
  obtain ⟨lines, hlines, hended⟩ := (hopens.indented level).exists_lines (hlevel.append ht)
  have hfilter : lines.filter (fun line => !isComment line) = lines :=
    List.filter_eq_self.mpr fun line hline => by simp [(hlines line hline).2]
  exact ⟨lines, fun line hline => (hlines line hline).1, hended, by rw [hfilter, hended]⟩

end SchemaDecl.Text
