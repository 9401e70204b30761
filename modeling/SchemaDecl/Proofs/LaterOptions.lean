import SchemaDecl.Proofs.AliasRule

/-!
# Options added to an enum that was made

An enum that was made has different tags, or an option that lets them repeat. Options behind its
own cannot take this away: the first option of the name `allow_alias` decides, and it stays the
first. An option in front of them can take its place, and without it there may be none that lets
tags repeat.
-/

namespace SchemaDecl

variable {options others : List SchemaOption}

/-- If an option of the name is there, then those that follow change nothing. -/
theorem permitAliases_append_of_exists (h : ∃ o ∈ options, o.name = "allow_alias") :
    permitAliases (options ++ others) = permitAliases options := by
  obtain ⟨o, ho, hname⟩ := h
  have hnone : ¬ ∀ o ∈ options, o.name ≠ "allow_alias" := fun hall => hall o ho hname
  apply Bool.eq_iff_iff.mpr
  rw [permitAliases_iff, permitAliases_iff, aliasesPermitted_append_iff]
  exact or_iff_left fun hothers => hnone hothers.1

/-- If no option of the name is there, then those that follow decide. -/
theorem permitAliases_append_of_forall (h : ∀ o ∈ options, o.name ≠ "allow_alias") :
    permitAliases (options ++ others) = permitAliases others := by
  have hnot : ¬ AliasesPermitted options := not_aliasesPermitted_of_forall h
  apply Bool.eq_iff_iff.mpr
  rw [permitAliases_iff, permitAliases_iff, aliasesPermitted_append_iff, or_iff_right hnot]
  exact and_iff_right h

namespace EnumDecl

variable {decl : EnumDecl}

/-- The enum with other options in place of its own. -/
def withOptions (decl : EnumDecl) (options : List SchemaOption) : EnumDecl :=
  ⟨{ decl.toHeader with options := options }, decl.constants⟩

/-- The options of the enum that do not bear on aliases. -/
def otherOptions (decl : EnumDecl) : List SchemaOption :=
  decl.options.filter fun o => o.name != "allow_alias"

/-- Options behind those of an enum leave its tags sound. -/
theorem TagsSound.append (h : decl.TagsSound) (further : List SchemaOption) :
    (decl.withOptions (decl.options ++ further)).TagsSound := by
  obtain hnodup | hpermitted := h
  · exact .inl hnodup
  · exact .inr (aliasesPermitted_append_iff.mpr (.inl hpermitted))

/-- Options in front of those of an enum whose tags are sound have it refused exactly if its tags
repeat and the first option of the name among them does not permit aliases. -/
theorem TagsSound.refused_prepend_iff (h : decl.TagsSound) (leading : List SchemaOption) :
    Refused (decl.withOptions (leading ++ decl.options)).toHeader decl.constants ↔
      ¬ (decl.constants.map Constant.tag).Nodup ∧
        (∃ o ∈ leading, o.name = "allow_alias") ∧ ¬ AliasesPermitted leading := by
  rw [refused_iff]
  apply and_congr_right
  intro hrepeated
  have hown : AliasesPermitted decl.options := h.resolve_left hrepeated
  calc
    ¬ AliasesPermitted (leading ++ decl.options)
      ↔ ¬ (AliasesPermitted leading ∨ ∀ o ∈ leading, o.name ≠ "allow_alias") := by
        rw [aliasesPermitted_append_iff, and_iff_left hown]
    _ ↔ (∃ o ∈ leading, o.name = "allow_alias") ∧ ¬ AliasesPermitted leading := by
        rw [not_or, and_comm]
        simp

/-- Without the options that bear on aliases an enum is refused exactly if its tags repeat. -/
theorem refused_otherOptions_iff :
    Refused (decl.withOptions decl.otherOptions).toHeader decl.constants ↔
      ¬ (decl.constants.map Constant.tag).Nodup := by
  rw [refused_iff]
  apply and_iff_left
  apply not_aliasesPermitted_of_forall
  intro o ho
  exact bne_iff_ne.mp (List.mem_filter.mp ho).2

/-- An enum that was made is made again, with the same constants, whatever options are added behind
its own. It allows aliases as before if an option `allow_alias` was there already, and otherwise
exactly if the first one added is set to true. Options added in front have the enum refused exactly
if its tags repeat and the first option `allow_alias` among them is not set to true; taking away
all of its options of the name does so exactly if its tags repeat. -/
theorem create_withOptions_append {header : Header} {constants : List Constant}
    (made : (create header constants).result = .ok decl) (further : List SchemaOption) :
    let longer := decl.withOptions (decl.options ++ further)
    ((create longer.toHeader decl.constants).result = .ok longer ∧
      longer.options = decl.options ++ further ∧ longer.constants = decl.constants ∧
      ((∃ o ∈ decl.options, o.name = "allow_alias") →
        longer.allowsAlias = decl.allowsAlias) ∧
      ((∀ o ∈ decl.options, o.name ≠ "allow_alias") →
        (longer.allowsAlias = true ↔ AliasesPermitted further))) ∧
    (Refused (decl.withOptions (further ++ decl.options)).toHeader decl.constants ↔
      ¬ (decl.constants.map Constant.tag).Nodup ∧
        (∃ o ∈ further, o.name = "allow_alias") ∧ ¬ AliasesPermitted further) ∧
    (Refused (decl.withOptions decl.otherOptions).toHeader decl.constants ↔
      ¬ (decl.constants.map Constant.tag).Nodup) := by
  intro longer
  have hsound : decl.TagsSound := (create_result_eq_ok_iff.mp made).2
  refine ⟨⟨?_, rfl, rfl, ?_, ?_⟩, hsound.refused_prepend_iff further, refused_otherOptions_iff⟩
  · exact create_result_eq_ok_iff.mpr ⟨rfl, hsound.append further⟩
  · exact permitAliases_append_of_exists
  · intro hnone
    rw [← permitAliases_iff, ← permitAliases_append_of_forall hnone]
    rfl

/-- An enum with a repeated tag and the option that lets it repeat. -/
def repeatingSample : EnumDecl := ⟨⟨"Color", "pkg.Color", "", [.allowAlias]⟩, twins⟩

/-- An option `allow_alias` that is set to false does not matter behind one that is set to true, but
it does in front of it. -/
theorem create_withOptions_repeatingSample :
    (create repeatingSample.toHeader twins).result = .ok repeatingSample ∧
      (let longer := repeatingSample.withOptions [.allowAlias, ⟨"allow_alias", .boolean false, true⟩]
       (create longer.toHeader twins).result = .ok longer ∧
         longer.allowsAlias = repeatingSample.allowsAlias) ∧
      Refused (repeatingSample.withOptions
        [⟨"allow_alias", .boolean false, true⟩, .allowAlias]).toHeader twins ∧
      Refused (repeatingSample.withOptions []).toHeader twins := by
  have hmade : (create repeatingSample.toHeader twins).result = .ok repeatingSample := rfl
  obtain ⟨⟨hlonger, -, -, haliases, -⟩, hleading, hwithout⟩ :=
    create_withOptions_append hmade [⟨"allow_alias", .boolean false, true⟩]
  have hnot : ¬ AliasesPermitted [⟨"allow_alias", .boolean false, true⟩] := by
    rw [aliasesPermitted_singleton_iff]
    rintro ⟨-, ⟨⟩⟩
  refine ⟨hmade, ⟨hlonger, haliases ⟨_, List.mem_singleton_self _, rfl⟩⟩, ?_, ?_⟩
  · exact hleading.mpr ⟨by decide, ⟨_, List.mem_singleton_self _, rfl⟩, hnot⟩
  · exact hwithout.mpr (by decide)

end EnumDecl

end SchemaDecl
