import SchemaDecl.EnumDraft

/-!
# When a declaration can be made

For each way to make a declaration there is one statement of when it succeeds and of what comes
out. The conditions are said of the options and of the constants as they stand in the lists: where
the first option that decides about aliases is, and which constants share a scope.
-/

namespace SchemaDecl

namespace Checked

variable {α β : Type}

/-- Joined steps have a result exactly if the first has one and the second has one from there. -/
theorem bind_result_eq_ok_iff {c : Checked α} {next : α → Checked β} {b : β} :
    (c >>= next).result = .ok b ↔ ∃ a, c.result = .ok a ∧ (next a).result = .ok b := by
  rcases c with ⟨journal, f | a⟩
  · simp
  · simp

/-- Joined steps meet a fault exactly if the first meets it or the second meets it from there. -/
theorem bind_result_eq_error_iff {c : Checked α} {next : α → Checked β} {f : Fault} :
    (c >>= next).result = .error f ↔
      c.result = .error f ∨ ∃ a, c.result = .ok a ∧ (next a).result = .error f := by
  rcases c with ⟨journal, g | a⟩
  · simp
  · simp

theorem pure_result_eq_ok_iff {a b : α} : (pure a : Checked α).result = .ok b ↔ a = b := by
  simp

theorem record_result_eq_ok_iff {r : Record} {u : Unit} : (record r).result = .ok u ↔ True := by
  simp [record]

/-- There is a result, and no fault. -/
def HasResult (c : Checked α) : Prop := ∃ a, c.result = .ok a

end Checked

/-- The first option of the name `allow_alias`, custom or not, is set to the truth value true. -/
def AliasesPermitted (options : List SchemaOption) : Prop :=
  ∃ before o after, options = before ++ o :: after ∧
    (∀ p ∈ before, p.name ≠ "allow_alias") ∧ o.name = "allow_alias" ∧ o.value = .boolean true

/-- The constants of an enum have different tags, or the enum permits aliases. -/
def EnumDecl.TagsSound (decl : EnumDecl) : Prop :=
  (decl.constants.map Constant.tag).Nodup ∨ AliasesPermitted decl.options

theorem Value.truth?_eq_some_iff {v : Value} {b : Bool} : v.truth? = some b ↔ v = .boolean b := by
  cases v <;> simp [truth?]

/-- The scan for the first option finds what the position in the list says. -/
theorem permitAliases_iff {options : List SchemaOption} :
    permitAliases options = true ↔ AliasesPermitted options := by
  have hfind (o : SchemaOption) : SchemaOption.find? allowAliasName options = some o ↔
      o.name = "allow_alias" ∧ ∃ before after, options = before ++ o :: after ∧
        ∀ p ∈ before, p.name ≠ "allow_alias" := by
    simp [SchemaOption.find?, allowAliasName, List.find?_eq_some_iff_append]
  constructor
  · intro h
    cases hf : SchemaOption.find? allowAliasName options with
    | none => simp [permitAliases, hf] at h
    | some o =>
        obtain ⟨hname, before, after, hsplit, hbefore⟩ := (hfind o).mp hf
        have hvalue : o.value = .boolean true := by
          simpa [permitAliases, hf, Value.truth?_eq_some_iff] using h
        exact ⟨before, o, after, hsplit, hbefore, hname, hvalue⟩
  · rintro ⟨before, o, after, hsplit, hbefore, hname, hvalue⟩
    have hf := (hfind o).mpr ⟨hname, before, after, hsplit, hbefore⟩
    simp [permitAliases, hf, Value.truth?_eq_some_iff, hvalue]

theorem checkTags_result_eq_ok_iff {enumName : String} {constants : List Constant}
    {u : Unit} : (checkTags enumName constants).result = .ok u ↔
      (constants.map Constant.tag).Nodup := by
  rw [← firstRepeat?_eq_none_iff, checkTags]
  cases firstRepeat? (constants.map Constant.tag) with
  | none => simp
  | some tag => simp [Checked.fail]

/-- An enum is made exactly if its tags are sound, and it has just the parts it is made of. -/
theorem EnumDecl.create_result_eq_ok_iff {header : Header} {constants : List Constant}
    {decl : EnumDecl} :
    (create header constants).result = .ok decl ↔ decl = ⟨header, constants⟩ ∧ decl.TagsSound := by
  by_cases h : permitAliases header.options = true
  · have hsound : TagsSound ⟨header, constants⟩ := .inr (permitAliases_iff.mp h)
    simp only [create, if_pos h, Checked.bind_result_eq_ok_iff, Checked.record_result_eq_ok_iff,
      exists_const, true_and, Checked.pure_result_eq_ok_iff]
    constructor
    · rintro rfl
      exact ⟨rfl, hsound⟩
    · exact fun hdecl => hdecl.1.symm
  · have hsound : TagsSound ⟨header, constants⟩ ↔ (constants.map Constant.tag).Nodup :=
      or_iff_left (h ∘ permitAliases_iff.mpr)
    simp only [create, if_neg h, Checked.bind_result_eq_ok_iff, checkTags_result_eq_ok_iff,
      Checked.record_result_eq_ok_iff, exists_const, true_and, Checked.pure_result_eq_ok_iff]
    constructor
    · rintro ⟨hnodup, rfl⟩
      exact ⟨rfl, hsound.mpr hnodup⟩
    · rintro ⟨rfl, hdecl⟩
      exact ⟨hsound.mp hdecl, rfl⟩

theorem EnumDecl.hasResult_create_iff {header : Header} {constants : List Constant} :
    (create header constants).HasResult ↔ TagsSound ⟨header, constants⟩ := by
  simp only [Checked.HasResult, create_result_eq_ok_iff]
  constructor
  · rintro ⟨_, rfl, hsound⟩
    exact hsound
  · intro hsound
    exact ⟨_, rfl, hsound⟩

/-- A fault of the constants is the earliest repeated tag. -/
theorem checkTags_result_eq_error_iff {enumName : String} {constants : List Constant}
    {f : Fault} : (checkTags enumName constants).result = .error f ↔
      ∃ tag, firstRepeat? (constants.map Constant.tag) = some tag ∧
        f = .duplicateTag tag enumName := by
  rw [checkTags]
  cases firstRepeat? (constants.map Constant.tag) with
  | none => simp
  | some tag => simp [Checked.fail, eq_comm]

/-- The only fault of an enum is a repeated tag, and only if aliases are not permitted. -/
theorem EnumDecl.create_result_eq_error_iff {header : Header} {constants : List Constant}
    {f : Fault} :
    (create header constants).result = .error f ↔
      ¬ AliasesPermitted header.options ∧
        ∃ tag, firstRepeat? (constants.map Constant.tag) = some tag ∧
          f = .duplicateTag tag header.qualifiedName := by
  rw [← permitAliases_iff]
  by_cases h : permitAliases header.options = true
  · simp [create, h]
  · simp only [create, if_neg h]
    rw [Checked.bind_result_eq_error_iff, checkTags_result_eq_error_iff]
    simp [h]

namespace EnumDraft

theorem require_result_eq_ok_iff {part s : String} {given : Option String} :
    (require part given).result = .ok s ↔ given = some s := by
  cases given with
  | none => simp [require, Checked.fail]
  | some t => simp [require]

/-- A draft gives an enum exactly if both names are known and the tags are sound. -/
theorem build_result_eq_ok_iff {draft : EnumDraft} {decl : EnumDecl} :
    draft.build.result = .ok decl ↔
      draft.name = some decl.name ∧ draft.qualifiedName = some decl.qualifiedName ∧
        draft.documentation.getD "" = decl.documentation ∧ draft.options = decl.options ∧
          draft.constants = decl.constants ∧ decl.TagsSound := by
  simp only [build, Checked.bind_result_eq_ok_iff, require_result_eq_ok_iff,
    EnumDecl.create_result_eq_ok_iff]
  constructor
  · rintro ⟨name, hname, qualifiedName, hqualified, rfl, hsound⟩
    exact ⟨hname, hqualified, rfl, rfl, rfl, hsound⟩
  · rintro ⟨hname, hqualified, hdoc, hoptions, hconstants, hsound⟩
    refine ⟨_, hname, _, hqualified, ?_, hsound⟩
    rw [hdoc, hoptions, hconstants]

end EnumDraft

/-- The enums among declarations, in order. -/
def enumsAmong (ds : List Declaration) : List EnumDecl :=
  ds.filterMap fun
    | .enum decl => some decl
    | .message _ _ => none

/-- The constants of all enums that stand directly in a scope have different names. -/
def ScopeSound (ds : List Declaration) : Prop :=
  ((enumsAmong ds).flatMap fun decl => decl.constants.map Constant.name).Nodup

theorem scopeNames_eq_flatMap (ds : List Declaration) :
    scopeNames ds = (enumsAmong ds).flatMap fun decl => decl.constants.map Constant.name := by
  induction ds with
  | nil => rfl
  | cons d rest ih =>
      cases d with
      | enum decl =>
          simp only [scopeNames, List.flatMap_cons, Declaration.constants] at ih ⊢
          rw [ih]
          rfl
      | message header nested =>
          simp only [scopeNames, List.flatMap_cons, Declaration.constants] at ih ⊢
          rw [ih]
          rfl

theorem scopeSound_iff_nodup_scopeNames {ds : List Declaration} :
    ScopeSound ds ↔ (scopeNames ds).Nodup := by
  rw [scopeNames_eq_flatMap, ScopeSound]

theorem checkScope_result_eq_ok_iff {scope : String} {ds : List Declaration} {u : Unit} :
    (checkScope scope ds).result = .ok u ↔ ScopeSound ds := by
  rw [scopeSound_iff_nodup_scopeNames, ← firstRepeat?_eq_none_iff, checkScope]
  cases firstRepeat? (scopeNames ds) with
  | none => simp [Checked.record]
  | some constant => simp [Checked.fail]

theorem hasResult_checkScope_iff {scope : String} {ds : List Declaration} :
    (checkScope scope ds).HasResult ↔ ScopeSound ds := by
  simp only [Checked.HasResult, checkScope_result_eq_ok_iff]
  exact exists_const Unit

/-- A fault of a scope is the earliest repeated name of a constant. -/
theorem checkScope_result_eq_error_iff {scope : String} {ds : List Declaration} {f : Fault} :
    (checkScope scope ds).result = .error f ↔
      ∃ constant, firstRepeat? (scopeNames ds) = some constant ∧
        f = .duplicateConstant constant scope := by
  rw [checkScope]
  cases firstRepeat? (scopeNames ds) with
  | none => simp [Checked.record]
  | some constant => simp [Checked.fail, eq_comm]

namespace Declaration

theorem createEnum_result_eq_ok_iff {header : Header} {constants : List Constant}
    {d : Declaration} :
    (createEnum header constants).result = .ok d ↔
      d = .enum ⟨header, constants⟩ ∧ EnumDecl.TagsSound ⟨header, constants⟩ := by
  simp only [createEnum, Checked.bind_result_eq_ok_iff, EnumDecl.create_result_eq_ok_iff,
    Checked.pure_result_eq_ok_iff]
  constructor
  · rintro ⟨decl, ⟨rfl, hsound⟩, rfl⟩
    exact ⟨rfl, hsound⟩
  · rintro ⟨rfl, hsound⟩
    exact ⟨_, ⟨rfl, hsound⟩, rfl⟩

/-- A message is made exactly if the scope of its nested declarations is sound. -/
theorem createMessage_result_eq_ok_iff {header : Header} {nested : List Declaration}
    {d : Declaration} :
    (createMessage header nested).result = .ok d ↔
      d = .message header nested ∧ ScopeSound nested := by
  simp only [createMessage, Checked.bind_result_eq_ok_iff, checkScope_result_eq_ok_iff,
    Checked.record_result_eq_ok_iff, exists_const, true_and, Checked.pure_result_eq_ok_iff]
  rw [and_comm, eq_comm]

theorem hasResult_createMessage_iff {header : Header} {nested : List Declaration} :
    (createMessage header nested).HasResult ↔ ScopeSound nested := by
  simp only [Checked.HasResult, createMessage_result_eq_ok_iff]
  exact exists_eq_left

/-- The only fault of a message is that of its scope. -/
theorem createMessage_result_eq_error_iff {header : Header} {nested : List Declaration}
    {f : Fault} :
    (createMessage header nested).result = .error f ↔
      (checkScope header.qualifiedName nested).result = .error f := by
  rw [createMessage, Checked.bind_result_eq_error_iff]
  simp

end Declaration

end SchemaDecl
