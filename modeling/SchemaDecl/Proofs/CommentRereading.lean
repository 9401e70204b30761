import SchemaDecl.Proofs.CommentReading

/-!
# Documentation written again from its comments

The lines that are read from the comments of a documentation text, each with a newline behind it,
are documentation again. A carriage return at the end of such a line was a part of the line before,
and belongs to the line end now, so that it is lost when the documentation is written again. All
other documentation is written as before.
-/

namespace SchemaDecl.Text

open Textual

/-- A property of all texts, where a text with a newline has it if the text behind the first newline
does. -/
theorem induct_lines {motive : List Char → Prop} (last : ∀ piece, '\n' ∉ piece → motive piece)
    (line : ∀ piece rest, '\n' ∉ piece → motive rest → motive (piece ++ '\n' :: rest))
    (text : List Char) : motive text := by
  obtain ⟨pieces, piece, hpieces, hpiece, rfl⟩ := exists_eq_ended_append text
  induction pieces with
  | nil => exact last piece hpiece
  | cons first others ih =>
      obtain ⟨hfirst, hothers⟩ := List.forall_mem_cons.mp hpieces
      rw [ended_cons, List.append_assoc, List.cons_append]
      exact line first _ hfirst (ih hothers)

theorem withoutReturn_eq_self_iff {piece : List Char} :
    withoutReturn piece = piece ↔ piece.getLast? ≠ some '\r' := by
  constructor
  · intro h hlast
    obtain ⟨start, rfl⟩ := List.getLast?_eq_some_iff.mp hlast
    simp [withoutReturn] at h
  · intro h
    rw [withoutReturn, if_neg h]

/-- A carriage return is left at the end if there were two. -/
theorem getLast?_withoutReturn_eq_iff {piece : List Char} :
    (withoutReturn piece).getLast? = some '\r' ↔ "\r\r".toList <:+ piece := by
  have hreturns : "\r\r".toList = ['\r'] ++ ['\r'] := rfl
  by_cases h : piece.getLast? = some '\r'
  · obtain ⟨start, rfl⟩ := List.getLast?_eq_some_iff.mp h
    rw [withoutReturn, if_pos h, List.dropLast_concat, hreturns, List.suffix_append_self_iff,
      List.singleton_suffix_iff_getLast?_eq_some]
  · rw [withoutReturn, if_neg h]
    refine iff_of_false h fun hsuffix => h ?_
    obtain ⟨start, rfl⟩ := hsuffix
    simp

/-- Two carriage returns before a newline stand at the end of the first line or behind it. -/
theorem isInfix_append_newline_iff {piece : List Char} (h : '\n' ∉ piece) (rest : List Char) :
    "\r\r\n".toList <:+: piece ++ '\n' :: rest ↔
      "\r\r".toList <:+ piece ∨ "\r\r\n".toList <:+: rest := by
  induction piece with
  | nil => simp [List.infix_cons_iff]
  | cons c others ih =>
      obtain ⟨-, hothers⟩ := not_or.mp (List.mem_cons.not.mp h)
      have hstart : "\r\r\n".toList <+: c :: (others ++ '\n' :: rest) ↔
          "\r\r".toList = c :: others := by
        cases others with
        | nil => simp
        | cons d tail => cases tail <;> simp_all [eq_comm]
      rw [List.cons_append, List.infix_cons_iff, hstart, ih hothers, List.suffix_cons_iff,
        or_assoc]

/-- No line ends with a carriage return exactly if two of them never stand before a newline, and the
text does not end with one. -/
theorem forall_mem_lines_getLast?_iff (text : List Char) :
    (∀ line ∈ lines text, line.getLast? ≠ some '\r') ↔
      ¬ "\r\r\n".toList <:+: text ∧ text.getLast? ≠ some '\r' := by
  induction text using induct_lines with
  | last piece h =>
      have hwithin : ¬ "\r\r\n".toList <:+: piece := fun hwithin =>
        h (hwithin.subset (by decide))
      rw [lines_of_notMem h]
      cases piece <;> simp_all
  | line piece rest h ih =>
      have hlast : (piece ++ '\n' :: rest).getLast? = some '\r' ↔ rest.getLast? = some '\r' := by
        cases rest <;> simp
      rw [lines_append_newline h, List.forall_mem_cons, ih, isInfix_append_newline_iff h, hlast.ne,
        Ne, getLast?_withoutReturn_eq_iff, not_or, and_assoc]

/-- The lines that comments at the given level hold, each comment with a newline behind it. -/
def uncommentBlock (level : Nat) (block : List Char) : Option (List (List Char)) :=
  (block.splitOn '\n').dropLast.mapM (uncomment level)

/-- The documentation that is read from the comments of a documentation text. -/
def reread (level : Nat) (documentation : String) : Option String :=
  (uncommentBlock level (commentBlock level documentation)).map fun lines =>
    String.ofList (ended lines)

theorem uncommentBlock_commentBlock (level : Nat) (documentation : String) :
    uncommentBlock level (commentBlock level documentation) =
      some (lines documentation.toList) := by
  have hread : (uncomment level ∘ fun line => indentation level ++ comment line) =
      fun line => pure (id line) :=
    funext fun line => uncomment_comment level line
  rw [uncommentBlock, commentBlock_eq_ended,
    splitOn_ended fun line => newline_notMem_of_mem_comments, List.dropLast_concat, comments,
    List.mapM_map, hread, List.mapM_pure, List.map_id]
  rfl

/-- A line end takes a carriage return at the end of its line with it. -/
theorem lines_ended {written : List (List Char)} (h : ∀ line ∈ written, '\n' ∉ line) :
    lines (ended written) = written.map withoutReturn := by
  induction written with
  | nil => rfl
  | cons line rest ih =>
      obtain ⟨hline, hrest⟩ := List.forall_mem_cons.mp h
      rw [ended_cons, lines_append_newline hline, ih hrest, List.map_cons]

theorem map_withoutReturn_eq_self_iff {written : List (List Char)} :
    written.map withoutReturn = written ↔ ∀ line ∈ written, line.getLast? ≠ some '\r' := by
  induction written with
  | nil => simp
  | cons line rest ih =>
      rw [List.map_cons, List.cons.injEq, withoutReturn_eq_self_iff, ih, List.forall_mem_cons]

/-- Documentation can be read from its comments, and has the same lines then without one carriage
return at the end of each. It is written with the same comments exactly if two carriage returns
never stood before a newline, and the documentation did not end with one. -/
theorem commentBlock_reread (level : Nat) (documentation : String) :
    ∃ again, reread level documentation = some again ∧
      lines again.toList = (lines documentation.toList).map withoutReturn ∧
      ((commentBlock level again : List Char) = commentBlock level documentation ↔
        ¬ "\r\r\n".toList <:+: documentation.toList ∧
          documentation.toList.getLast? ≠ some '\r') := by
  let again := String.ofList (ended (lines documentation.toList))
  have hread : reread level documentation = some again := by
    rw [reread, uncommentBlock_commentBlock, Option.map_some]
  have hlines : lines again.toList = (lines documentation.toList).map withoutReturn := by
    rw [String.toList_ofList]
    exact lines_ended fun line => newline_notMem_of_mem_lines
  refine ⟨again, hread, hlines, ?_⟩
  calc
    (commentBlock level again : List Char) = commentBlock level documentation ↔
        lines again.toList = lines documentation.toList :=
      ⟨lines_eq_of_commentBlock_eq, fun h => by rw [commentBlock, commentBlock, h]⟩
    _ ↔ ∀ line ∈ lines documentation.toList, line.getLast? ≠ some '\r' := by
      rw [hlines, map_withoutReturn_eq_self_iff]
    _ ↔ _ := forall_mem_lines_getLast?_iff documentation.toList

/-- A carriage return at the end of documentation stands before the newline of its comment, and is
gone when the documentation is written again. -/
theorem commentBlock_reread_ne :
    ¬ ∀ level documentation again, reread level documentation = some again →
      (commentBlock level again : List Char) = commentBlock level documentation := by
  intro h
  have hread : reread 0 "a\r" = some "a\r\n" := by decide
  exact absurd (h 0 "a\r" "a\r\n" hread) (by decide)

end SchemaDecl.Text
