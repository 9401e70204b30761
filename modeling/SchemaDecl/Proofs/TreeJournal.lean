import SchemaDecl.Proofs.Records

/-!
# The journal of a tree

A tree of declarations is made from the leaves up, in the order of the lists, and the first
declaration that cannot be made ends it. The journal then tells of the declarations before that
one and of no other: each of them has left its own records, and no record stands between them.

## Implementation notes

A tree that is to be made is a `Plan`, so that an enum can be left to a draft that lacks a name.
All plans in a tree are listed in the order of making. `Progress` relates any steps to the plans
they go through, so that joined steps go through the joined lists.
-/

namespace SchemaDecl

namespace EnumDraft

/-- The enum that a draft describes, if both of its names are known. -/
def described? (draft : EnumDraft) : Option EnumDecl :=
  match draft.name, draft.qualifiedName with
  | some name, some qualifiedName =>
      some ⟨⟨name, qualifiedName, draft.documentation.getD "", draft.options⟩, draft.constants⟩
  | _, _ => none

theorem build_of_described? {draft : EnumDraft} {decl : EnumDecl}
    (h : draft.described? = some decl) :
    draft.build = EnumDecl.create decl.toHeader decl.constants := by
  rcases draft with ⟨_ | name, _ | qualifiedName, documentation, options, constants⟩
  · cases h
  · cases h
  · cases h
  · cases h
    rfl

/-- A draft that lacks a name leaves no record. -/
theorem build_of_described?_eq_none {draft : EnumDraft} (h : draft.described? = none) :
    ∃ fault, draft.build = Checked.fail fault := by
  rcases draft with ⟨_ | name, _ | qualifiedName, documentation, options, constants⟩
  · exact ⟨.missingPart "name", rfl⟩
  · exact ⟨.missingPart "name", rfl⟩
  · exact ⟨.missingPart "qualified_name", rfl⟩
  · cases h

end EnumDraft

/-- A declaration that is to be made. -/
inductive Plan where
  | enum (decl : EnumDecl)
  | draft (parts : EnumDraft)
  | message (header : Header) (nested : List Plan)

namespace Plan

/-- A property of all plans, where those nested in a message have it before the message. -/
@[induction_eliminator]
theorem induct {motive : Plan → Prop} (enum : ∀ decl, motive (.enum decl))
    (draft : ∀ parts, motive (.draft parts))
    (message : ∀ header nested, (∀ p ∈ nested, motive p) → motive (.message header nested)) :
    ∀ p, motive p :=
  @Plan.rec motive (fun ps => ∀ p ∈ ps, motive p) enum draft message
    (fun _ h => absurd h List.not_mem_nil)
    (fun _ _ hp hrest => List.forall_mem_cons.mpr ⟨hp, hrest⟩)

mutual

/-- Makes the declaration of a plan and all declarations in it from the leaves up. -/
def make : Plan → Checked Declaration
  | .enum decl => Declaration.createEnum decl.toHeader decl.constants
  | .draft parts => do
      let decl ← parts.build
      return .enum decl
  | .message header nested => do
      let made ← makeAll nested
      Declaration.createMessage header made

/-- Makes the declarations of plans one after the other. -/
def makeAll : List Plan → Checked (List Declaration)
  | [] => return []
  | p :: ps => do
      let made ← make p
      let others ← makeAll ps
      return made :: others

end

mutual

/-- All plans in a plan, each behind those nested in it. -/
def postorder : Plan → List Plan
  | .enum decl => [.enum decl]
  | .draft parts => [.draft parts]
  | .message header nested => postorderAll nested ++ [.message header nested]

/-- All plans in plans, each behind those nested in it. -/
def postorderAll : List Plan → List Plan
  | [] => []
  | p :: ps => postorder p ++ postorderAll ps

end

/-- The constants that a plan adds to the scope it stands in. -/
def constants : Plan → List Constant
  | .enum decl => decl.constants
  | .draft parts => parts.constants
  | .message _ _ => []

/-- The plan itself can be carried out: an enum has both names and sound tags, and the enums
directly inside a message have constants with different names. -/
def Succeeds : Plan → Prop
  | .enum decl => decl.TagsSound
  | .draft parts => ∃ decl, parts.described? = some decl ∧ decl.TagsSound
  | .message _ nested => ((nested.flatMap constants).map Constant.name).Nodup

/-- The records that a plan itself leaves when it is carried out, each with its level. -/
def entries : Plan → List (Level × Record)
  | .enum decl => decl.entries
  | .draft parts => parts.described?.elim [] EnumDecl.entries
  | .message header nested => header.entries (nested.flatMap constants).length nested.length

/-- The steps carry out plans in order, up to the first that fails, and meet the fault of that one.
They leave the records of the plans carried out. -/
inductive Progress {α : Type} (c : Checked α) (plans : List Plan) : Prop
  | done {a : α} (succeed : ∀ p ∈ plans, p.Succeeds) (result : c.result = .ok a)
      (entries : c.entries = plans.flatMap entries)
  | stopped {completed rest : List Plan} {p : Plan} {fault : Fault}
      (split : plans = completed ++ p :: rest) (succeed : ∀ q ∈ completed, q.Succeeds)
      (fails : ¬ p.Succeeds) (own : p.make.result = .error fault)
      (result : c.result = .error fault) (entries : c.entries = completed.flatMap entries)

namespace Progress

variable {α β : Type} {c : Checked α} {next : α → Checked β} {ps qs : List Plan} {p : Plan}

theorem pure (a : α) : Progress (Pure.pure a) [] :=
  .done (fun _ h => absurd h List.not_mem_nil) rfl rfl

/-- Joined steps carry out the plans of the first and then those of the second. -/
theorem bind (hc : Progress c ps) (hnext : ∀ a, c.result = .ok a → Progress (next a) qs) :
    Progress (c >>= next) (ps ++ qs) := by
  rcases c with ⟨journal, result⟩
  cases hc with
  | @stopped completed rest p fault split succeed fails own hresult hentries =>
      cases hresult
      have hsplit : ps ++ qs = completed ++ p :: (rest ++ qs) := by
        rw [split, List.append_assoc, List.cons_append]
      exact .stopped hsplit succeed fails own rfl hentries
  | @done a succeed hresult hentries =>
      cases hresult
      have happend : (⟨journal, .ok a⟩ >>= next).entries =
          ps.flatMap Plan.entries ++ (next a).entries := by
        rw [← hentries]
        exact List.map_append
      cases hnext a rfl with
      | done succeed' hresult' hentries' =>
          refine .done (fun p hp => ?_) hresult' ?_
          · exact (List.mem_append.mp hp).elim (succeed p) (succeed' p)
          · rw [happend, hentries', List.flatMap_append]
      | @stopped completed rest p fault split succeed' fails own hresult' hentries' =>
          have hsplit : ps ++ qs = (ps ++ completed) ++ p :: rest := by
            rw [split, List.append_assoc]
          refine .stopped hsplit (fun q hq => ?_) fails own hresult' ?_
          · exact (List.mem_append.mp hq).elim (succeed q) (succeed' q)
          · rw [happend, hentries', List.flatMap_append]

/-- A plan that fails leaves no record of its own. -/
theorem refused {fault : Fault} (hc : c = Checked.fail fault) (fails : ¬ p.Succeeds)
    (own : p.make.result = .error fault) : Progress c [p] := by
  subst hc
  exact .stopped (List.nil_append [p]).symm (fun _ h => absurd h List.not_mem_nil) fails own rfl rfl

/-- A plan that makes an enum of given parts is carried out exactly if the tags are sound. -/
theorem of_createEnum {decl : EnumDecl}
    (hmake : p.make = Declaration.createEnum decl.toHeader decl.constants)
    (hsucceeds : p.Succeeds ↔ decl.TagsSound) (hentries : p.entries = decl.entries) :
    Progress p.make [p] := by
  by_cases h : decl.TagsSound
  · have hresult : p.make.result = .ok (.enum decl) := by
      rw [hmake]
      exact Declaration.createEnum_result_eq_ok_iff.mpr ⟨rfl, h⟩
    refine .done (List.forall_mem_singleton.mpr (hsucceeds.mpr h)) hresult ?_
    rw [hmake, List.flatMap_singleton, hentries]
    exact Declaration.entries_createEnum_of_tagsSound h
  · obtain ⟨fault, hfault⟩ := Declaration.createEnum_of_not_tagsSound h
    have hrefused : p.make = Checked.fail fault := hmake.trans hfault
    exact refused hrefused (h ∘ hsucceeds.mp) (congrArg Checked.result hrefused)

theorem enum (decl : EnumDecl) : Progress (make (.enum decl)) [.enum decl] :=
  of_createEnum rfl Iff.rfl rfl

theorem draft (parts : EnumDraft) : Progress (make (.draft parts)) [.draft parts] := by
  cases h : parts.described? with
  | some decl =>
      have hmake : make (.draft parts) =
          Declaration.createEnum decl.toHeader decl.constants := by
        rw [make, EnumDraft.build_of_described? h]
        rfl
      apply of_createEnum hmake
      · simp [Succeeds, h]
      · simp [Plan.entries, h]
  | none =>
      obtain ⟨fault, hfault⟩ := EnumDraft.build_of_described?_eq_none h
      have hrefused : make (.draft parts) = Checked.fail fault := by
        rw [make, hfault, Checked.fail_bind]
      have hfails : ¬ Succeeds (.draft parts) := by
        simp [Succeeds, h]
      exact refused hrefused hfails (congrArg Checked.result hrefused)

end Progress

/-- What a plan makes adds the constants of the plan to its scope. -/
theorem constants_eq_of_make {p : Plan} {d : Declaration} (h : p.make.result = .ok d) :
    d.constants = p.constants := by
  cases p with
  | enum decl =>
      obtain ⟨rfl, -⟩ := Declaration.createEnum_result_eq_ok_iff.mp h
      rfl
  | draft parts =>
      obtain ⟨decl, hbuild, hd⟩ := Checked.bind_result_eq_ok_iff.mp h
      obtain ⟨-, -, -, -, hconstants, -⟩ := EnumDraft.build_result_eq_ok_iff.mp hbuild
      cases hd
      exact hconstants.symm
  | message header nested =>
      obtain ⟨made, -, hmade⟩ := Checked.bind_result_eq_ok_iff.mp h
      obtain ⟨rfl, -⟩ := Declaration.createMessage_result_eq_ok_iff.mp hmade
      rfl

theorem constants_eq_of_makeAll {ps : List Plan} {ds : List Declaration}
    (h : (makeAll ps).result = .ok ds) : ds.map Declaration.constants = ps.map constants := by
  induction ps generalizing ds with
  | nil =>
      cases h
      rfl
  | cons p rest ih =>
      obtain ⟨made, hmade, h⟩ := Checked.bind_result_eq_ok_iff.mp h
      obtain ⟨others, hothers, h⟩ := Checked.bind_result_eq_ok_iff.mp h
      cases h
      rw [List.map_cons, List.map_cons, constants_eq_of_make hmade, ih hothers]

/-- Once the declarations nested in a message are made, the message itself is the next plan. -/
theorem Progress.message {header : Header} {nested : List Plan} {made : List Declaration}
    (h : (makeAll nested).result = .ok made) :
    Progress (Declaration.createMessage header made) [.message header nested] := by
  have hmade : made.map Declaration.constants = nested.map constants :=
    constants_eq_of_makeAll h
  have hconstants : made.flatMap Declaration.constants = nested.flatMap constants := by
    rw [List.flatMap_def, List.flatMap_def, hmade]
  have hlength : made.length = nested.length := by
    simpa using congrArg List.length hmade
  have hsucceeds : Succeeds (.message header nested) ↔ ScopeSound made := by
    rw [Succeeds, scopeSound_iff_nodup_scopeNames, scopeNames, ← List.map_flatMap, hconstants]
  by_cases hsound : ScopeSound made
  · have hresult : (Declaration.createMessage header made).result =
        .ok (.message header made) :=
      Declaration.createMessage_result_eq_ok_iff.mpr ⟨rfl, hsound⟩
    refine .done (List.forall_mem_singleton.mpr (hsucceeds.mpr hsound)) hresult ?_
    rw [Declaration.entries_createMessage_of_scopeSound hsound, hconstants, hlength,
      List.flatMap_singleton, Plan.entries]
  · obtain ⟨fault, hfault⟩ := Declaration.createMessage_of_not_scopeSound hsound
    refine refused hfault (hsound ∘ hsucceeds.mp) ?_
    rw [make]
    exact Checked.bind_result_eq_error_iff.mpr
      (.inr ⟨made, h, congrArg Checked.result hfault⟩)

theorem progress_makeAll_of_forall {ps : List Plan} (h : ∀ p ∈ ps, Progress p.make p.postorder) :
    Progress (makeAll ps) (postorderAll ps) := by
  induction ps with
  | nil => exact .pure []
  | cons p rest ih =>
      obtain ⟨hp, hrest⟩ := List.forall_mem_cons.mp h
      refine hp.bind fun made _ => ?_
      simpa using (ih hrest).bind fun others _ => .pure (made :: others)

/-- Making a plan carries out all plans in it, each after those nested in it. -/
theorem progress_make (p : Plan) : Progress p.make p.postorder := by
  induction p with
  | enum decl => exact .enum decl
  | draft parts => exact .draft parts
  | message header nested ih =>
      rw [make, postorder]
      exact (progress_makeAll_of_forall ih).bind fun made hmade => .message hmade

end Plan

namespace Declaration

mutual

/-- The plan to make a declaration from the leaves up, with each enum in one go. -/
def plan : Declaration → Plan
  | .enum decl => .enum decl
  | .message header nested => .message header (plans nested)

/-- The plans to make declarations from the leaves up. -/
def plans : List Declaration → List Plan
  | [] => []
  | d :: ds => plan d :: plans ds

end

mutual

theorem make_plan : ∀ d : Declaration, d.plan.make = d.assemble
  | .enum _ => rfl
  | .message header nested => by
      rw [plan, Plan.make, makeAll_plans nested, assemble]

theorem makeAll_plans : ∀ ds : List Declaration, Plan.makeAll (plans ds) = assembleAll ds
  | [] => rfl
  | d :: ds => by
      rw [plans, Plan.makeAll, make_plan d, makeAll_plans ds, assembleAll]

end

end Declaration

/-- Making a tree leaves the records of the plans in it that come before the first that fails, in
the order in which the plans come, and no others. If there is one that fails, its fault is met; if
there is none, the tree is made. The same holds of a tree whose enums are all made in one go. -/
theorem Plan.entries_make (p : Plan) :
    (∃ completed rest, p.postorder = completed ++ rest ∧ (∀ q ∈ completed, q.Succeeds) ∧
      p.make.entries = completed.flatMap Plan.entries ∧
      match rest with
      | [] => ∃ made, p.make.result = .ok made
      | q :: _ => ¬ q.Succeeds ∧
          ∃ fault, q.make.result = .error fault ∧ p.make.result = .error fault) ∧
    ∀ d : Declaration, d.plan.make = d.assemble := by
  refine ⟨?_, Declaration.make_plan⟩
  cases progress_make p with
  | @done made succeed result entries =>
      exact ⟨p.postorder, [], (List.append_nil _).symm, succeed, entries, made, result⟩
  | @stopped completed rest q fault split succeed fails own result entries =>
      exact ⟨completed, q :: rest, split, succeed, entries, fails, fault, own, result⟩

example : (Plan.make (.message ⟨"M", "p.M", "", []⟩
      [.enum ⟨⟨"A", "p.M.A", "", []⟩, [⟨"X", 0, "", []⟩]⟩, .draft .blank,
        .enum ⟨⟨"B", "p.M.B", "", []⟩, []⟩])).journal = [.enumCreated "p.M.A" 0 1] := rfl

end SchemaDecl
