import SchemaDecl.Proofs.Obtainable
import SchemaDecl.Proofs.ReportOrder
import SchemaDecl.Session

/-!
# Sessions, command by command

A command is answered or refused. What answered commands change is said once, without the checks
that lead to the answer: a command that makes or checks something is answered exactly if that is
sound, every other command always, and only the command that sorts the faults touches them. A
refused command leaves the scope as it was, and its fault joins the others. So whatever a session is
told to do, only declarations that can be obtained come into scope, and its faults are those of the
commands that were refused.

## Implementation notes

What a run of commands preserves is said of any session to begin with, so that the induction on the
commands can go on from the session that the first of them leaves.
-/

namespace SchemaDecl.Session

open Declaration

/-- What an answered command makes of a session. -/
inductive Change (session : Session) : Command → Session → Prop
  | declare {d : Declaration} (sound : d.Sound) : Change session (.declare d) (session.push d)
  | wrap {header : Header} {count : Nat} {kept taken : List Declaration}
      (split : session.scope = kept ++ taken) (size : kept.length = session.scope.length - count)
      (sound : ScopeSound taken) :
      Change session (.wrap header count) ⟨kept ++ [.message header taken], session.faults⟩
  | unwrap {others nested : List Declaration} {header : Header}
      (split : session.scope = others ++ [.message header nested]) :
      Change session .unwrap ⟨others ++ nested, session.faults⟩
  | nothingToUnwrap
      (last : ∀ header nested, session.scope.getLast? ≠ some (.message header nested)) :
      Change session .unwrap session
  | extend {o : SchemaOption} {others : List Declaration} {decl extended : EnumDecl}
      (split : session.scope = others ++ [.enum decl])
      (parts : extended = ⟨{ decl.toHeader with options := decl.options ++ [o] }, decl.constants⟩)
      (sound : extended.TagsSound) :
      Change session (.extend o) ⟨others ++ [.enum extended], session.faults⟩
  | nothingToExtend {o : SchemaOption} (last : ∀ decl, session.scope.getLast? ≠ some (.enum decl)) :
      Change session (.extend o) session
  | drop {others : List Declaration} {d : Declaration} (split : session.scope = others ++ [d]) :
      Change session .drop ⟨others, session.faults⟩
  | nothingToDrop (empty : session.scope = []) : Change session .drop session
  | rotate {others : List Declaration} {d : Declaration} (split : session.scope = d :: others) :
      Change session .rotate ⟨others ++ [d], session.faults⟩
  | nothingToRotate (empty : session.scope = []) : Change session .rotate session
  | check {scope : String} (sound : ScopeSound session.scope) :
      Change session (.check scope) session
  | render {level : Nat} : Change session (.render level) session
  | report : Change session .report session
  | sortFaults : Change session .sortFaults ⟨session.scope, Collation.sorted session.faults⟩

theorem rotateLeft_cons {α : Type} (a : α) (rest : List α) :
    (a :: rest).rotateLeft = rest ++ [a] := by
  cases rest with
  | nil => rfl
  | cons b others => simp [List.rotateLeft]

variable {session next : Session} {command : Command}

theorem Change.exists_attempt_eq (h : Change session command next) :
    ∃ reply, (session.attempt command).result = .ok (next, reply) := by
  cases h with
  | @declare d sound =>
      exact ⟨_, Checked.bind_result_eq_ok_iff.mpr
        ⟨d, assemble_result_eq_ok_iff.mpr ⟨sound, rfl⟩, rfl⟩⟩
  | @wrap header count kept taken split size sound =>
      have hmade : (createMessage header taken).result = .ok (.message header taken) :=
        createMessage_result_eq_ok_iff.mpr ⟨rfl, sound⟩
      have htake : session.scope.take (session.scope.length - count) = kept := by
        rw [← size, split, List.take_left]
      have hdrop : session.scope.drop (session.scope.length - count) = taken := by
        rw [← size, split, List.drop_left]
      simp only [attempt, htake, hdrop]
      exact ⟨_, Checked.bind_result_eq_ok_iff.mpr ⟨_, hmade, rfl⟩⟩
  | unwrap split | drop split =>
      simp only [attempt, split, List.getLast?_concat, List.dropLast_concat]
      exact ⟨_, rfl⟩
  | nothingToUnwrap last =>
      rw [attempt]
      split
      · exact absurd ‹_› (last _ _)
      · exact ⟨_, rfl⟩
  | @extend o others decl extended split parts sound =>
      have hmade : (EnumDecl.create { decl.toHeader with options := decl.options ++ [o] }
          decl.constants).result = .ok extended :=
        EnumDecl.create_result_eq_ok_iff.mpr ⟨parts, sound⟩
      simp only [attempt, split, List.getLast?_concat, List.dropLast_concat]
      exact ⟨_, Checked.bind_result_eq_ok_iff.mpr ⟨extended, hmade, rfl⟩⟩
  | nothingToExtend last =>
      rw [attempt]
      split
      · exact absurd ‹_› (last _)
      · exact ⟨_, rfl⟩
  | nothingToDrop empty =>
      simp only [attempt, empty, List.getLast?_nil]
      exact ⟨_, rfl⟩
  | rotate split =>
      simp only [attempt, split, rotateLeft_cons]
      exact ⟨_, rfl⟩
  | nothingToRotate empty =>
      obtain ⟨scope, faults⟩ := session
      obtain rfl : scope = [] := empty
      exact ⟨_, rfl⟩
  | check sound =>
      exact ⟨_, Checked.bind_result_eq_ok_iff.mpr
        ⟨(), checkScope_result_eq_ok_iff.mpr sound, rfl⟩⟩
  | render | report | sortFaults => exact ⟨_, rfl⟩

theorem change_of_attempt {reply : Reply}
    (h : (session.attempt command).result = .ok (next, reply)) : Change session command next := by
  cases command with
  | declare d =>
      obtain ⟨made, hmade, hnext⟩ := Checked.bind_result_eq_ok_iff.mp h
      obtain ⟨hsound, rfl⟩ := assemble_result_eq_ok_iff.mp hmade
      cases hnext
      exact .declare hsound
  | wrap header count =>
      obtain ⟨made, hmade, hnext⟩ := Checked.bind_result_eq_ok_iff.mp h
      obtain ⟨rfl, hsound⟩ := createMessage_result_eq_ok_iff.mp hmade
      cases hnext
      exact .wrap (List.take_append_drop _ _).symm (by simp) hsound
  | unwrap =>
      simp only [attempt] at h
      split at h
      · rename_i header nested hlast
        cases h
        exact .unwrap (List.dropLast_append_getLast? _ hlast).symm
      · rename_i hlast
        cases h
        exact .nothingToUnwrap hlast
  | extend o =>
      simp only [attempt] at h
      split at h
      · rename_i decl hlast
        obtain ⟨made, hmade, hnext⟩ := Checked.bind_result_eq_ok_iff.mp h
        obtain ⟨hparts, hsound⟩ := EnumDecl.create_result_eq_ok_iff.mp hmade
        cases hnext
        exact .extend (List.dropLast_append_getLast? _ hlast).symm hparts hsound
      · rename_i hlast
        cases h
        exact .nothingToExtend hlast
  | drop =>
      simp only [attempt] at h
      split at h
      · rename_i d hlast
        cases h
        exact .drop (List.dropLast_append_getLast? d hlast).symm
      · rename_i hlast
        cases h
        exact .nothingToDrop (List.getLast?_eq_none_iff.mp hlast)
  | rotate =>
      obtain ⟨scope, faults⟩ := session
      cases scope with
      | nil =>
          cases h
          exact .nothingToRotate rfl
      | cons d others =>
          simp only [attempt, rotateLeft_cons] at h
          cases h
          exact .rotate rfl
  | check scope =>
      obtain ⟨_, hsound, hnext⟩ := Checked.bind_result_eq_ok_iff.mp h
      cases hnext
      exact .check (checkScope_result_eq_ok_iff.mp hsound)
  | render level =>
      cases h
      exact .render
  | report =>
      cases h
      exact .report
  | sortFaults =>
      cases h
      exact .sortFaults

/-- A command is answered with a change, or it is refused because there is none. Then the scope is
left as it was, and the fault joins the others. -/
theorem run_cases (session : Session) (command : Command) :
    (∃ reply, (session.run command).reply = .ok reply ∧
      Change session command (session.run command).session) ∨
    ∃ fault, (session.run command).reply = .error fault ∧
      (∀ next, ¬ Change session command next) ∧
        (session.run command).session = ⟨session.scope, session.faults ++ [fault]⟩ := by
  cases hattempt : session.attempt command with
  | mk journal result =>
      cases result with
      | ok answer =>
          obtain ⟨next, reply⟩ := answer
          have hchange : Change session command next :=
            change_of_attempt (congrArg Checked.result hattempt)
          left
          rw [run, hattempt]
          exact ⟨reply, rfl, hchange⟩
      | error fault =>
          right
          rw [run, hattempt]
          refine ⟨fault, rfl, fun next hchange => ?_, rfl⟩
          obtain ⟨reply, hreply⟩ := hchange.exists_attempt_eq
          rw [hattempt] at hreply
          cases hreply

/-- The fault of a command that was refused, and none of one that was answered. -/
def Outcome.refusal (outcome : Outcome) : List Fault :=
  match outcome.reply with
  | .ok _ => []
  | .error fault => [fault]

theorem Change.run_eq (h : Change session command next) :
    (session.run command).session = next ∧ (session.run command).refusal = [] := by
  obtain ⟨reply, hreply⟩ := h.exists_attempt_eq
  cases hattempt : session.attempt command with
  | mk journal result =>
      rw [hattempt] at hreply
      subst hreply
      rw [run, hattempt]
      exact ⟨rfl, rfl⟩

/-- Every declaration in scope was in scope before, was nested in one that was, or is made of
declarations that were. -/
theorem Change.obtainable (h : Change session command next)
    (hscope : ∀ d ∈ session.scope, d.Obtainable) : ∀ d ∈ next.scope, d.Obtainable := by
  cases h with
  | declare sound =>
      exact List.forall_mem_append.mpr ⟨hscope, List.forall_mem_singleton.mpr sound.obtainable⟩
  | @wrap header count kept taken split size sound =>
      rw [split, List.forall_mem_append] at hscope
      have hmade : Obtainable (.message header taken) :=
        .createMessage hscope.2 (createMessage_result_eq_ok_iff.mpr ⟨rfl, sound⟩)
      exact List.forall_mem_append.mpr ⟨hscope.1, List.forall_mem_singleton.mpr hmade⟩
  | unwrap split =>
      rw [split, List.forall_mem_append, List.forall_mem_singleton] at hscope
      exact List.forall_mem_append.mpr ⟨hscope.1, fun d hd => .takeOut hscope.2 hd⟩
  | @extend o others decl extended split parts sound =>
      rw [split, List.forall_mem_append, List.forall_mem_singleton] at hscope
      have hmade : Obtainable (.enum extended) :=
        .recreateEnum hscope.2 (createEnum_result_eq_ok_iff.mpr ⟨congrArg _ parts, parts ▸ sound⟩)
      exact List.forall_mem_append.mpr ⟨hscope.1, List.forall_mem_singleton.mpr hmade⟩
  | drop split =>
      rw [split, List.forall_mem_append] at hscope
      exact hscope.1
  | rotate split =>
      rw [split, List.forall_mem_cons] at hscope
      exact List.forall_mem_append.mpr ⟨hscope.2, List.forall_mem_singleton.mpr hscope.1⟩
  | nothingToUnwrap | nothingToExtend | nothingToDrop | nothingToRotate | check | render | report
    | sortFaults => exact hscope

theorem Change.faults_perm (h : Change session command next) :
    next.faults.Perm session.faults := by
  cases h with
  | sortFaults => exact Collation.sorted_perm session.faults
  | _ => exact .refl _

/-- The same change can be made of every session with the same scope. -/
theorem Change.exists_of_scope_eq {other : Session} (h : Change session command next)
    (hscope : other.scope = session.scope) :
    ∃ after, Change other command after ∧ after.scope = next.scope := by
  cases h with
  | declare sound => exact ⟨_, .declare sound, congrArg (· ++ [_]) hscope⟩
  | wrap split size sound =>
      exact ⟨_, .wrap (hscope.trans split) (hscope ▸ size) sound, rfl⟩
  | unwrap split => exact ⟨_, .unwrap (hscope.trans split), rfl⟩
  | nothingToUnwrap last => exact ⟨_, .nothingToUnwrap (hscope ▸ last), hscope⟩
  | extend split parts sound => exact ⟨_, .extend (hscope.trans split) parts sound, rfl⟩
  | nothingToExtend last => exact ⟨_, .nothingToExtend (hscope ▸ last), hscope⟩
  | drop split => exact ⟨_, .drop (hscope.trans split), rfl⟩
  | nothingToDrop empty => exact ⟨_, .nothingToDrop (hscope.trans empty), hscope⟩
  | rotate split => exact ⟨_, .rotate (hscope.trans split), rfl⟩
  | nothingToRotate empty => exact ⟨_, .nothingToRotate (hscope.trans empty), hscope⟩
  | check sound => exact ⟨_, .check (hscope ▸ sound), hscope⟩
  | render => exact ⟨_, .render, hscope⟩
  | report => exact ⟨_, .report, hscope⟩
  | sortFaults => exact ⟨_, .sortFaults, hscope⟩

/-- Sorting the faults of a session leaves and tells the same, whatever the order in which they were
met. -/
theorem run_sortFaults_eq {s t : Session} (hscope : s.scope = t.scope)
    (hfaults : s.faults.Perm t.faults) : s.run .sortFaults = t.run .sortFaults := by
  have hsorted : Collation.sorted s.faults = Collation.sorted t.faults :=
    Collation.sorted_eq_of_perm hfaults
  obtain ⟨scope, faults⟩ := s
  obtain rfl : scope = t.scope := hscope
  change Outcome.mk ⟨t.scope, Collation.sorted faults⟩ [] _ = _
  rw [hsorted]
  rfl

/-- The session after commands, one after the other. -/
def after (session : Session) : List Command → Session
  | [] => session
  | command :: rest => (session.run command).session.after rest

/-- The faults of the commands that are refused, in order. -/
def refusals (session : Session) : List Command → List Fault
  | [] => []
  | command :: rest =>
      (session.run command).refusal ++ (session.run command).session.refusals rest

/-- A command leaves only declarations in scope that can be obtained, if there were no others
before. -/
theorem obtainable_run (command : Command) (h : ∀ d ∈ session.scope, d.Obtainable) :
    ∀ d ∈ (session.run command).session.scope, d.Obtainable := by
  obtain ⟨_, -, hchange⟩ | ⟨_, -, -, hsession⟩ := session.run_cases command
  · exact hchange.obtainable h
  · rw [hsession]
    exact h

/-- A command adds its own fault to those met before, if it is refused, and loses none. -/
theorem faults_run_perm (session : Session) (command : Command) :
    (session.run command).session.faults.Perm
      (session.faults ++ (session.run command).refusal) := by
  obtain ⟨reply, hreply, hchange⟩ | ⟨fault, hreply, -, hsession⟩ := session.run_cases command
  · rw [Outcome.refusal, hreply, List.append_nil]
    exact hchange.faults_perm
  · rw [Outcome.refusal, hreply, hsession]

theorem obtainable_after (commands : List Command) (h : ∀ d ∈ session.scope, d.Obtainable) :
    ∀ d ∈ (session.after commands).scope, d.Obtainable := by
  induction commands generalizing session with
  | nil => exact h
  | cons command rest ih => exact ih (obtainable_run command h)

theorem faults_after_perm (session : Session) (commands : List Command) :
    (session.after commands).faults.Perm (session.faults ++ session.refusals commands) := by
  induction commands generalizing session with
  | nil => rw [after, refusals, List.append_nil]
  | cons command rest ih =>
      rw [after, refusals, ← List.append_assoc]
      exact (ih _).trans ((faults_run_perm session command).append_right _)

/-- The commands that are answered, in order. -/
def answered (session : Session) : List Command → List Command
  | [] => []
  | command :: rest =>
      match (session.run command).reply with
      | .ok _ => command :: (session.run command).session.answered rest
      | .error _ => (session.run command).session.answered rest

/-- Commands that are refused could as well be left out: without them, none of the others is
refused, and they lead to the same scope. -/
theorem after_answered {other : Session} (hscope : other.scope = session.scope)
    (commands : List Command) :
    (other.after (session.answered commands)).scope = (session.after commands).scope ∧
      other.refusals (session.answered commands) = [] := by
  -- The sessions part in their faults, since those of refused commands are missing from the other.
  induction commands generalizing session other with
  | nil => exact ⟨hscope, rfl⟩
  | cons command rest ih =>
      obtain ⟨reply, hreply, hchange⟩ | ⟨fault, hreply, -, hsession⟩ := session.run_cases command
      · obtain ⟨next, hnext, hnextScope⟩ := hchange.exists_of_scope_eq hscope
        obtain ⟨hrun, hrefusal⟩ := hnext.run_eq
        simp only [answered, hreply, after, refusals, hrun, hrefusal, List.nil_append]
        exact ih hnextScope
      · simp only [answered, hreply, after]
        exact ih (by rw [hsession, hscope])

/-- Whatever a session is told to do, there is nothing in scope that cannot be obtained. Its faults
are those of the commands that were refused, and sorting them tells these in order. -/
theorem after_start (commands : List Command) :
    (∀ d ∈ (start.after commands).scope, d.Obtainable) ∧
      (start.after commands).faults.Perm (start.refusals commands) ∧
        ((start.after commands).run .sortFaults).session.faults =
          Collation.sorted (start.refusals commands) := by
  have hperm : (start.after commands).faults.Perm (start.refusals commands) :=
    faults_after_perm start commands
  exact ⟨obtainable_after commands fun d hd => absurd hd List.not_mem_nil, hperm,
    Collation.sorted_eq_of_perm hperm⟩

end SchemaDecl.Session
