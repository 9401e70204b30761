import SchemaDecl.Proofs.Creation

/-!
# Which option lets tags repeat

An enum is refused if tags repeat and the first option of the name `allow_alias` is not set to
true. Whoever asks instead for any option of the name that is set to true comes to the same
decision, except where such an option stands behind another one of the name that is set to
something else. For the same reason the option helps a refused enum, when it is appended, only if
there was none of the name before.
-/

namespace SchemaDecl

variable {options others : List SchemaOption} {o : SchemaOption}

namespace SchemaOption

/-- The option has the name `allow_alias` and is set to the truth value true. -/
def AllowsAlias (o : SchemaOption) : Prop := o.name = "allow_alias" ∧ o.value = .boolean true

/-- The option that the advice on a repeated tag asks for. -/
def allowAlias : SchemaOption := ⟨allowAliasName, .boolean true, false⟩

end SchemaOption

theorem AliasesPermitted.exists_mem (h : AliasesPermitted options) :
    ∃ o ∈ options, o.AllowsAlias := by
  obtain ⟨before, o, after, rfl, -, hname, hvalue⟩ := h
  exact ⟨o, List.mem_append_cons_self, hname, hvalue⟩

theorem not_aliasesPermitted_of_forall (h : ∀ o ∈ options, o.name ≠ "allow_alias") :
    ¬ AliasesPermitted options := by
  intro hpermitted
  obtain ⟨o, ho, hname, -⟩ := hpermitted.exists_mem
  exact h o ho hname

theorem aliasesPermitted_singleton_iff : AliasesPermitted [o] ↔ o.AllowsAlias := by
  constructor
  · intro h
    obtain ⟨p, hp, hallows⟩ := h.exists_mem
    rwa [List.mem_singleton.mp hp] at hallows
  · rintro ⟨hname, hvalue⟩
    exact ⟨[], o, [], rfl, by simp, hname, hvalue⟩

/-- Options that follow matter only if none of the name stands before them. -/
theorem aliasesPermitted_append_iff :
    AliasesPermitted (options ++ others) ↔
      AliasesPermitted options ∨
        (∀ o ∈ options, o.name ≠ "allow_alias") ∧ AliasesPermitted others := by
  have hfind : SchemaOption.find? allowAliasName options = none ↔
      ∀ o ∈ options, o.name ≠ "allow_alias" := by
    simp [SchemaOption.find?, allowAliasName, List.find?_eq_none]
  have happend : SchemaOption.find? allowAliasName (options ++ others) =
      (SchemaOption.find? allowAliasName options).or
        (SchemaOption.find? allowAliasName others) := List.find?_append
  simp only [← permitAliases_iff, ← hfind, permitAliases, happend]
  cases SchemaOption.find? allowAliasName options with
  | none => simp
  | some o => simp

namespace EnumDecl

/-- An enum is refused for a repeated tag. -/
def Refused (header : Header) (constants : List Constant) : Prop :=
  ∃ tag, (create header constants).result = .error (.duplicateTag tag header.qualifiedName)

theorem refused_iff {header : Header} {constants : List Constant} :
    Refused header constants ↔
      ¬ (constants.map Constant.tag).Nodup ∧ ¬ AliasesPermitted header.options := by
  rw [← exists_firstRepeat?_iff]
  constructor
  · rintro ⟨tag, htag⟩
    obtain ⟨haliases, tag, hrepeat, -⟩ := create_result_eq_error_iff.mp htag
    exact ⟨⟨tag, hrepeat⟩, haliases⟩
  · rintro ⟨⟨tag, hrepeat⟩, haliases⟩
    exact ⟨tag, create_result_eq_error_iff.mpr ⟨haliases, tag, hrepeat, rfl⟩⟩

/-- The same enum with the option that the advice on a repeated tag asks for. -/
def advised (header : Header) : Header :=
  { header with options := header.options ++ [.allowAlias] }

/-- Appending the option helps exactly if it is then the one that decides, or if no tag repeats. -/
theorem create_advised_result_eq_ok_iff {header : Header} {constants : List Constant} :
    (create (advised header) constants).result = .ok ⟨advised header, constants⟩ ↔
      (constants.map Constant.tag).Nodup ∨ AliasesPermitted header.options ∨
        ∀ o ∈ header.options, o.name ≠ "allow_alias" := by
  have hlast : AliasesPermitted [SchemaOption.allowAlias] :=
    aliasesPermitted_singleton_iff.mpr ⟨rfl, rfl⟩
  rw [create_result_eq_ok_iff, TagsSound, advised, aliasesPermitted_append_iff]
  simp only [true_and, hlast, and_true]

/-- An enum is refused exactly if tags repeat and the first option `allow_alias` is not set to
true. This is the rule that any option `allow_alias` set to true prevents the refusal, exactly if
no such option of an enum with repeated tags stands behind one of the name that is set to something
else. The advice to append the option helps a refused enum exactly if it has no option of the
name. -/
theorem refused_iff_and_advised_iff (header : Header) (constants : List Constant) :
    (Refused header constants ↔
      ¬ (constants.map Constant.tag).Nodup ∧ ¬ AliasesPermitted header.options) ∧
    ((Refused header constants ↔
        ¬ (constants.map Constant.tag).Nodup ∧ ¬ ∃ o ∈ header.options, o.AllowsAlias) ↔
      (¬ (constants.map Constant.tag).Nodup → (∃ o ∈ header.options, o.AllowsAlias) →
        AliasesPermitted header.options)) ∧
    (Refused header constants →
      ((create (advised header) constants).result = .ok ⟨advised header, constants⟩ ↔
        ∀ o ∈ header.options, o.name ≠ "allow_alias")) := by
  have hmem : AliasesPermitted header.options → ∃ o ∈ header.options, o.AllowsAlias :=
    AliasesPermitted.exists_mem
  refine ⟨refused_iff, ?_, ?_⟩
  · rw [refused_iff]
    constructor
    · intro hrule hrepeat hallows
      refine Classical.byContradiction fun hfirst => ?_
      exact (hrule.mp ⟨hrepeat, hfirst⟩).2 hallows
    · intro hdecides
      constructor
      · rintro ⟨hrepeat, hfirst⟩
        exact ⟨hrepeat, fun hallows => hfirst (hdecides hrepeat hallows)⟩
      · rintro ⟨hrepeat, hnone⟩
        exact ⟨hrepeat, fun hfirst => hnone (hmem hfirst)⟩
  · intro hrefused
    obtain ⟨hrepeat, hfirst⟩ := refused_iff.mp hrefused
    rw [create_advised_result_eq_ok_iff, or_iff_right hrepeat, or_iff_right hfirst]

/-- Two constants with the same tag. -/
def twins : List Constant := [⟨"RED", 1, "", []⟩, ⟨"CRIMSON", 1, "", []⟩]

/-- Without an option `allow_alias`, a refused enum is made when the advice is followed. -/
theorem create_advised_twins :
    Refused ⟨"Color", "pkg.Color", "", [⟨"deprecated", .boolean true, false⟩]⟩ twins ∧
      (create (advised ⟨"Color", "pkg.Color", "", [⟨"deprecated", .boolean true, false⟩]⟩)
        twins).result = .ok
          ⟨advised ⟨"Color", "pkg.Color", "", [⟨"deprecated", .boolean true, false⟩]⟩, twins⟩ :=
  ⟨⟨1, rfl⟩, ((refused_iff_and_advised_iff _ twins).2.2 ⟨1, rfl⟩).mpr (by decide)⟩

/-- An option `allow_alias` that is set to false hides one behind it that is set to true: the enum
is refused all the same, and following the advice once more does not help. -/
theorem refused_behind_false :
    ¬ (∀ header constants, Refused header constants ↔
        ¬ (constants.map Constant.tag).Nodup ∧ ¬ ∃ o ∈ header.options, o.AllowsAlias) ∧
      ¬ ∀ header constants, Refused header constants →
        (create (advised header) constants).result = .ok ⟨advised header, constants⟩ := by
  let header : Header :=
    ⟨"Color", "pkg.Color", "", [⟨"allow_alias", .boolean false, false⟩, .allowAlias]⟩
  have hrefused : Refused header twins := ⟨1, rfl⟩
  have hadvised : Refused (advised header) twins := ⟨1, rfl⟩
  constructor
  · intro h
    exact ((h header twins).mp hrefused).2 ⟨.allowAlias, by simp [header], rfl, rfl⟩
  · intro h
    obtain ⟨tag, htag⟩ := hadvised
    have hmade := h header twins hrefused
    rw [htag] at hmade
    cases hmade

end EnumDecl

end SchemaDecl
