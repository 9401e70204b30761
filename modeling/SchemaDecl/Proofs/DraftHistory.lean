import Mathlib.Data.List.Induction
import SchemaDecl.Proofs.Creation

/-!
# What a draft comes to

An enum is made from a draft in many steps, in any order, with copies of the draft kept aside and
taken up again. Of all steps only the parts in effect count: those of the draft that was kept
aside last, if it was taken up, and those added since. Making the enum from the draft is making it
in one go from the names and the documentation given last among these parts and from all their
options and constants.

## Implementation notes

The parts in effect are read off the steps from the latest back to the earliest, so that a draft
taken up leads at once to the last step that kept one aside. The desk is followed in the same
direction; a run is a fold from the right over the reversed steps.
-/

namespace SchemaDecl

namespace EnumDraft

/-- The name that a part gives. -/
def Part.name? : Part → Option String
  | .name s => some s
  | _ => none

/-- The qualified name that a part gives. -/
def Part.qualifiedName? : Part → Option String
  | .qualifiedName s => some s
  | _ => none

/-- The documentation that a part gives. -/
def Part.documentation? : Part → Option String
  | .documentation s => some s
  | _ => none

/-- The option that a part adds. -/
def Part.option? : Part → Option SchemaOption
  | .option o => some o
  | _ => none

/-- The constant that a part adds. -/
def Part.constant? : Part → Option Constant
  | .constant c => some c
  | _ => none

/-- What parts come to when an enum is made of them. -/
structure Summary where
  name : Option String
  qualifiedName : Option String
  /-- The documentation given last, empty if there was none. -/
  documentation : String
  options : List SchemaOption
  constants : List Constant
deriving DecidableEq

/-- The summary of parts. -/
def summary (parts : List Part) : Summary where
  name := (parts.filterMap Part.name?).getLast?
  qualifiedName := (parts.filterMap Part.qualifiedName?).getLast?
  documentation := (parts.filterMap Part.documentation?).getLast?.getD ""
  options := parts.filterMap Part.option?
  constants := parts.filterMap Part.constant?

/-- A draft holds what was given last and all that adds up. No part changes what belongs to
another one. -/
theorem foldl_add_blank (parts : List Part) :
    parts.foldl add blank =
      ⟨(parts.filterMap Part.name?).getLast?, (parts.filterMap Part.qualifiedName?).getLast?,
        (parts.filterMap Part.documentation?).getLast?, parts.filterMap Part.option?,
        parts.filterMap Part.constant?⟩ := by
  induction parts using List.reverseRecOn with
  | nil => rfl
  | append_singleton parts p ih =>
      -- The part added last either becomes the last one of its sort or is appended to them.
      rw [List.foldl_append, ih]
      cases p <;>
        simp [add, Part.name?, Part.qualifiedName?, Part.documentation?, Part.option?,
          Part.constant?]

/-- What is made of a draft depends on the summary of its parts. -/
theorem build_foldl_add_blank (parts : List Part) :
    (parts.foldl add blank).build =
      match (summary parts).name, (summary parts).qualifiedName with
      | none, _ => Checked.fail (.missingPart "name")
      | some _, none => Checked.fail (.missingPart "qualified_name")
      | some name, some qualifiedName =>
          EnumDecl.create
            ⟨name, qualifiedName, (summary parts).documentation, (summary parts).options⟩
            (summary parts).constants := by
  rw [foldl_add_blank]
  simp only [build, summary]
  cases (parts.filterMap Part.name?).getLast? with
  | none => rfl
  | some name =>
      cases (parts.filterMap Part.qualifiedName?).getLast? with
      | none => rfl
      | some qualifiedName => rfl

end EnumDraft

namespace Desk

open EnumDraft

mutual

/-- The parts in effect after steps, of which the latest stands first. -/
def inEffect : (latestFirst : List Step) → List Part
  | [] => []
  | .part p :: earlier => inEffect earlier ++ [p]
  | .save :: earlier => inEffect earlier
  | .load :: earlier => atLastSave earlier

/-- The parts that were in effect when a draft was kept aside last; none if that never happened. -/
def atLastSave : (latestFirst : List Step) → List Part
  | [] => []
  | .save :: earlier => inEffect earlier
  | _ :: earlier => atLastSave earlier

end

/-- The parts in effect after steps in the order in which they were done. -/
def history (steps : List Step) : List Part := inEffect steps.reverse

/-- The desk after steps that began at a clear desk. -/
def run (steps : List Step) : Desk := steps.foldl step clear

/-- One more step keeps both drafts made of the parts in effect: the draft in work of those now,
the draft kept aside of those at the last time. -/
theorem step_inEffect (s : Step) (earlier : List Step) :
    step ⟨(inEffect earlier).foldl add blank, (atLastSave earlier).foldl add blank⟩ s =
      ⟨(inEffect (s :: earlier)).foldl add blank,
        (atLastSave (s :: earlier)).foldl add blank⟩ := by
  cases s with
  | part p => simp [step, inEffect, atLastSave]
  | save => simp [step, inEffect, atLastSave]
  | load => simp [step, inEffect, atLastSave]

theorem foldr_step_clear (latestFirst : List Step) :
    latestFirst.foldr (fun s desk => desk.step s) clear =
      ⟨(inEffect latestFirst).foldl add blank, (atLastSave latestFirst).foldl add blank⟩ := by
  induction latestFirst with
  | nil => simp [clear, inEffect, atLastSave]
  | cons s earlier ih => rw [List.foldr_cons, ih, step_inEffect]

/-- The draft in work is made of the parts in effect. -/
theorem run_current (steps : List Step) :
    (run steps).current = (history steps).foldl add blank := by
  rw [run, List.foldl_eq_foldr_reverse, foldr_step_clear, history]

/-- After any steps the draft in work gives what one call gives for the summary of the parts in
effect, together with its records: a missing name is told first, then a missing qualified name,
whatever the constants are. In the remaining case the enum is made in one go, and a repeated tag is
the only fault that can be met. Steps with the same summary therefore give the same. -/
theorem build_run (steps : List Step) :
    let given := summary (history steps)
    ((run steps).current.build =
      match given.name, given.qualifiedName with
      | none, _ => Checked.fail (.missingPart "name")
      | some _, none => Checked.fail (.missingPart "qualified_name")
      | some name, some qualifiedName =>
          EnumDecl.create ⟨name, qualifiedName, given.documentation, given.options⟩
            given.constants) ∧
    (∀ header constants fault, (EnumDecl.create header constants).result = .error fault →
      ∃ tag, fault = .duplicateTag tag header.qualifiedName) ∧
    ∀ others, summary (history others) = given →
      (run others).current.build = (run steps).current.build := by
  intro given
  refine ⟨?_, ?_, ?_⟩
  · rw [run_current, build_foldl_add_blank]
  · intro header constants fault h
    obtain ⟨-, tag, -, hfault⟩ := EnumDecl.create_result_eq_error_iff.mp h
    exact ⟨tag, hfault⟩
  · intro others h
    rw [run_current, run_current, build_foldl_add_blank, build_foldl_add_blank, h]

/-- Steps that take up two drafts kept aside, the first of them blank, and replace a name. -/
def detour : List Step :=
  [.part (.constant ⟨"LOST", 1, "", []⟩), .load, .part (.name "B"),
    .part (.constant ⟨"RED", 1, "", []⟩), .part (.name "A"), .save,
    .part (.constant ⟨"LOST", 1, "", []⟩), .part (.documentation "lost"), .load,
    .part (.qualifiedName "p.A"), .part (.option ⟨"deprecated", .boolean true, false⟩),
    .part (.constant ⟨"GREEN", 2, "", []⟩)]

/-- Steps to the same enum in another order, with documentation that is emptied again. -/
def direct : List Step :=
  [.part (.documentation "lost"), .part (.option ⟨"deprecated", .boolean true, false⟩),
    .part (.documentation ""), .part (.constant ⟨"RED", 1, "", []⟩),
    .part (.qualifiedName "p.A"), .part (.constant ⟨"GREEN", 2, "", []⟩), .part (.name "A")]

theorem build_run_detour :
    summary (history detour) = summary (history direct) ∧
      (run detour).current.build = (run direct).current.build :=
  ⟨by decide, (build_run direct).2.2 detour (by decide)⟩

end Desk

end SchemaDecl
