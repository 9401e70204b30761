import SchemaDecl.Proofs.Creation

/-!
# The records of one declaration

A declaration that is made leaves records of what it is, and one that is refused leaves none. An
enum tells first that its tags were not compared, if it allows aliases. A message tells first how
many names of constants were found to differ; these are as many as its enums have constants,
because a message is made only if no two of them have the same name.
-/

namespace SchemaDecl

/-- The records that an enum leaves when it is made, each with its level. -/
def EnumDecl.entries (decl : EnumDecl) : List (Level × Record) :=
  (if decl.allowsAlias then [(.trace, .aliasesAllowed decl.qualifiedName)] else []) ++
    [(.debug, .enumCreated decl.qualifiedName decl.options.length decl.constants.length)]

/-- The records that a message leaves when it is made, each with its level. The enums directly in
the message have as many constants as given. -/
def Header.entries (header : Header) (constants nested : Nat) : List (Level × Record) :=
  [(.debug, .scopeValidated header.qualifiedName constants),
    (.debug, .messageCreated header.qualifiedName nested)]

/-- The records that were left, each with its level. -/
def Checked.entries {α : Type} (c : Checked α) : List (Level × Record) :=
  c.journal.map fun r => (r.level, r)

namespace Declaration

theorem entries_createEnum_of_tagsSound {decl : EnumDecl} (h : decl.TagsSound) :
    (createEnum decl.toHeader decl.constants).entries = decl.entries := by
  by_cases haliases : permitAliases decl.options = true
  · simp [createEnum, EnumDecl.create, haliases, Checked.entries, EnumDecl.entries,
      EnumDecl.allowsAlias, Checked.record, Record.level]
  · have hnodup : (decl.constants.map Constant.tag).Nodup :=
      h.resolve_right (haliases ∘ permitAliases_iff.mpr)
    have hrepeat : firstRepeat? (decl.constants.map Constant.tag) = none :=
      firstRepeat?_eq_none_iff.mpr hnodup
    simp [createEnum, EnumDecl.create, haliases, checkTags, hrepeat, Checked.entries,
      EnumDecl.entries, EnumDecl.allowsAlias, Checked.record, Record.level]

/-- An enum that is refused leaves no record. -/
theorem createEnum_of_not_tagsSound {decl : EnumDecl} (h : ¬ decl.TagsSound) :
    ∃ fault, createEnum decl.toHeader decl.constants = Checked.fail fault := by
  obtain ⟨hnodup, haliases⟩ := not_or.mp h
  obtain ⟨tag, hrepeat⟩ := exists_firstRepeat?_iff.mpr hnodup
  have hpermit : ¬ permitAliases decl.options = true := haliases ∘ permitAliases_iff.mp
  refine ⟨.duplicateTag tag decl.qualifiedName, ?_⟩
  simp [createEnum, EnumDecl.create, hpermit, checkTags, hrepeat]

/-- The names of a sound scope are as many as its constants, since no two of them are the same. -/
theorem entries_createMessage_of_scopeSound {header : Header} {nested : List Declaration}
    (h : ScopeSound nested) :
    (createMessage header nested).entries =
      header.entries (nested.flatMap constants).length nested.length := by
  have hnodup : (scopeNames nested).Nodup := scopeSound_iff_nodup_scopeNames.mp h
  have hrepeat : firstRepeat? (scopeNames nested) = none := firstRepeat?_eq_none_iff.mpr hnodup
  have hcount : Collation.distinctCount (scopeNames nested) =
      (nested.flatMap constants).length := by
    rw [Collation.distinctCount_eq_length hnodup, scopeNames, ← List.map_flatMap,
      List.length_map]
  simp [createMessage, checkScope, hrepeat, hcount, Checked.entries, Header.entries,
    Checked.record, Record.level]

/-- A message that is refused leaves no record. -/
theorem createMessage_of_not_scopeSound {header : Header} {nested : List Declaration}
    (h : ¬ ScopeSound nested) : ∃ fault, createMessage header nested = Checked.fail fault := by
  obtain ⟨constant, hrepeat⟩ :=
    exists_firstRepeat?_iff.mpr (h ∘ scopeSound_iff_nodup_scopeNames.mpr)
  refine ⟨.duplicateConstant constant header.qualifiedName, ?_⟩
  simp [createMessage, checkScope, hrepeat]

end Declaration

end SchemaDecl
