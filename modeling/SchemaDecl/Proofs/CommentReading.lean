import SchemaDecl.Proofs.CommentLines
import SchemaDecl.Proofs.Newlines

/-!
# Documentation read back from its comments

Every line of documentation stands in a comment line of its own, from which it can be taken out:
behind the indentation, the slashes, and the space that follows these unless the line is blank. So
the comments of a documentation text show its lines and nothing else. What the lines of a text are
is said by its pieces between newlines.
-/

namespace SchemaDecl.Text

open Reading Textual

/-- The text without the carriage return that it ends with, if it does. -/
def withoutReturn (piece : List Char) : List Char :=
  if piece.getLast? = some '\r' then piece.dropLast else piece

theorem withoutReturn_cons {c : Char} {piece : List Char} (h : piece ≠ [] ∨ c ≠ '\r') :
    withoutReturn (c :: piece) = c :: withoutReturn piece := by
  cases piece with
  | nil =>
      have hc : c ≠ '\r' := h.resolve_left fun hne => hne rfl
      simp [withoutReturn, hc]
  | cons d rest =>
      simp only [withoutReturn, List.getLast?_cons_cons, List.dropLast_cons_cons]
      split <;> rfl

/-- Every text consists of lines that end with a newline and of text without one behind them. -/
theorem exists_eq_ended_append (text : List Char) :
    ∃ pieces last, (∀ piece ∈ pieces, '\n' ∉ piece) ∧ '\n' ∉ last ∧
      text = ended pieces ++ last := by
  induction text with
  | nil => exact ⟨[], [], by simp, List.not_mem_nil, rfl⟩
  | cons c rest ih =>
      obtain ⟨pieces, last, hpieces, hlast, rfl⟩ := ih
      by_cases hc : c = '\n'
      · subst hc
        exact ⟨[] :: pieces, last, List.forall_mem_cons.mpr ⟨List.not_mem_nil, hpieces⟩, hlast,
          rfl⟩
      · cases pieces with
        | nil =>
            exact ⟨[], c :: last, hpieces, by simpa [Ne.symm hc] using hlast, rfl⟩
        | cons piece others =>
            obtain ⟨hpiece, hothers⟩ := List.forall_mem_cons.mp hpieces
            refine ⟨(c :: piece) :: others, last, ?_, hlast, rfl⟩
            exact List.forall_mem_cons.mpr ⟨by simpa [Ne.symm hc] using hpiece, hothers⟩

/-- Within a line, the next character joins the line that begins behind it. -/
theorem lines_cons {c : Char} {rest line : List Char} {others : List (List Char)}
    (hnewline : c ≠ '\n') (hreturn : c = '\r' → rest.head? ≠ some '\n')
    (h : lines rest = line :: others) : lines (c :: rest) = (c :: line) :: others := by
  rw [lines, h]
  · exact hnewline
  · rintro after rfl rfl
    exact hreturn rfl rfl

/-- A line ends at its first newline, and loses a carriage return there. -/
theorem lines_append_newline {piece : List Char} (h : '\n' ∉ piece) (rest : List Char) :
    lines (piece ++ '\n' :: rest) = withoutReturn piece :: lines rest := by
  induction piece with
  | nil => rfl
  | cons c others ih =>
      obtain ⟨hc, hothers⟩ := not_or.mp (List.mem_cons.not.mp h)
      by_cases hlast : others = [] ∧ c = '\r'
      · obtain ⟨rfl, rfl⟩ := hlast
        rfl
      · rw [List.cons_append, withoutReturn_cons (not_and_or.mp hlast)]
        refine lines_cons (Ne.symm hc) ?_ (ih hothers)
        intro hreturn hhead
        cases others with
        | nil => exact hlast ⟨rfl, hreturn⟩
        | cons d tail =>
            obtain rfl : d = '\n' := Option.some.inj hhead
            exact hothers List.mem_cons_self

/-- Text without a newline is a line of its own, unless it is empty. -/
theorem lines_of_notMem {last : List Char} (h : '\n' ∉ last) :
    lines last = if last.isEmpty then [] else [last] := by
  induction last with
  | nil => rfl
  | cons c rest ih =>
      obtain ⟨hc, hrest⟩ := not_or.mp (List.mem_cons.not.mp h)
      cases rest with
      | nil =>
          rw [lines]
          · rfl
          · exact Ne.symm hc
          · rintro after - hafter
            cases hafter
      | cons d tail =>
          have hd : d ≠ '\n' := fun hd => hrest (hd ▸ List.mem_cons_self)
          exact lines_cons (Ne.symm hc) (fun _ hhead => hd (Option.some.inj hhead)) (ih hrest)

/-- All pieces but the last lose a carriage return at their end, and an empty last piece is no
line. -/
theorem exists_splitOn_eq_lines_eq (text : List Char) :
    ∃ pieces last, text.splitOn '\n' = pieces ++ [last] ∧
      lines text = pieces.map withoutReturn ++ if last.isEmpty then [] else [last] := by
  obtain ⟨pieces, last, hpieces, hlast, rfl⟩ := exists_eq_ended_append text
  refine ⟨pieces, last, splitOn_ended_append hpieces hlast, ?_⟩
  induction pieces with
  | nil => exact lines_of_notMem hlast
  | cons piece others ih =>
      obtain ⟨hpiece, hothers⟩ := List.forall_mem_cons.mp hpieces
      rw [ended_cons, List.append_assoc, List.cons_append, lines_append_newline hpiece,
        ih hothers, List.map_cons, List.cons_append]

example : lines "a\r\n\nb\r".toList = ["a".toList, [], "b\r".toList] := by decide

/-- What a comment line at the given level holds: what is left without two spaces for every level,
the slashes and, if anything follows, exactly one space. -/
def uncomment (level : Nat) (line : List Char) : Option (List Char) := do
  let line ← (List.replicate (2 * level) ' ').isPrefixOf? line
  let line ← "//".toList.isPrefixOf? line
  if line.isEmpty then some [] else " ".toList.isPrefixOf? line

theorem uncomment_comment (level : Nat) (line : List Char) :
    uncomment level (indentation level ++ comment line) = some line := by
  cases line with
  | nil =>
      have hcomment : comment [] = "//".toList ++ [] := rfl
      simp only [uncomment, hcomment, indentation_eq, isPrefixOf?_append, Option.bind_eq_bind,
        Option.bind_some]
      rfl
  | cons c rest =>
      have hcomment : comment (c :: rest) = "//".toList ++ (" ".toList ++ c :: rest) := rfl
      simp only [uncomment, hcomment, indentation_eq, isPrefixOf?_append, Option.bind_eq_bind,
        Option.bind_some]
      rfl

/-- The comment lines of a documentation text without their line ends. -/
def comments (level : Nat) (documentation : String) : List (List Char) :=
  (lines documentation.toList).map fun line => indentation level ++ comment line

theorem commentBlock_eq_ended (level : Nat) (documentation : String) :
    commentBlock level documentation = ended (comments level documentation) := by
  rw [commentBlock_eq, ended, comments, List.flatMap_map]
  rfl

theorem newline_notMem_of_mem_comments {level : Nat} {documentation : String}
    {line : List Char} (h : line ∈ comments level documentation) : '\n' ∉ line := by
  obtain ⟨content, hcontent, rfl⟩ := List.mem_map.mp h
  have hcomment : '\n' ∉ comment content :=
    newline_notMem_comment (newline_notMem_of_mem_lines hcontent)
  simpa using hcomment

/-- Each line is taken out of its comment line. -/
theorem map_uncomment_comments (level : Nat) (documentation : String) :
    (comments level documentation).map (uncomment level) =
      (lines documentation.toList).map some := by
  rw [comments, List.map_map]
  exact List.map_congr_left fun line _ => uncomment_comment level line

theorem lines_eq_of_commentBlock_eq {level : Nat} {documentation other : String}
    (h : (commentBlock level documentation : List Char) = commentBlock level other) :
    lines documentation.toList = lines other.toList := by
  have hpieces (text : String) : (commentBlock level text : List Char).splitOn '\n' =
      comments level text ++ [[]] := by
    rw [commentBlock_eq_ended]
    exact splitOn_ended fun line => newline_notMem_of_mem_comments
  have hlines : comments level documentation = comments level other := by
    apply (List.append_left_inj [[]]).mp
    rw [← hpieces, ← hpieces, h]
  apply (List.map_inj_right fun _ _ => Option.some.inj).mp
  rw [← map_uncomment_comments level, ← map_uncomment_comments level, hlines]

/-- The comments of a documentation text are lines that end with a newline and hold no other one,
one for each line of the documentation; without the indentation, the slashes and, if anything
follows these, exactly one space each is just that line. The lines of the documentation are its
pieces between newlines, without the carriage return that a piece before a newline may end with,
and without the last piece if it is empty. Two documentation texts have the same comments exactly if
they have the same lines. -/
theorem commentBlock_readBack (level : Nat) (documentation : String) :
    (∃ written : List (List Char), commentBlock level documentation = ended written ∧
      (∀ line ∈ written, '\n' ∉ line) ∧
        written.map (uncomment level) = (lines documentation.toList).map some) ∧
    (∃ pieces last, documentation.toList.splitOn '\n' = pieces ++ [last] ∧
      lines documentation.toList =
        pieces.map withoutReturn ++ if last.isEmpty then [] else [last]) ∧
    ∀ other : String, (commentBlock level documentation : List Char) = commentBlock level other ↔
      lines documentation.toList = lines other.toList := by
  refine ⟨⟨comments level documentation, commentBlock_eq_ended level documentation,
    fun line => newline_notMem_of_mem_comments, map_uncomment_comments level documentation⟩,
    exists_splitOn_eq_lines_eq documentation.toList, fun other => ⟨lines_eq_of_commentBlock_eq, ?_⟩⟩
  intro h
  rw [commentBlock, commentBlock, h]

end SchemaDecl.Text
