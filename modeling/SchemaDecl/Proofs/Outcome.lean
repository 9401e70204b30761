import Mathlib.Data.List.Nodup
import SchemaDecl.Proofs.Creation

/-!
# What comes of making one declaration

An enum is made of just the parts that are given, or it is refused for one tag; a message is made
around just the declarations that are given, or it is refused for one name. Which tag or name that
is depends on the places of the constants: it is the first that repeats, in the order of the
constants, and for a message in the order of its enums before that.

The first repeat of a list is found by a scan that keeps the items it has passed. Said by places, it
is the item at the smallest place whose item stands at a smaller place too. Of several items that
occur twice it is therefore the one whose second occurrence comes first, and not the one whose first
occurrence does.
-/

namespace SchemaDecl

section Places

variable {α : Type} {items : List α} {j : Nat} {a : α}

/-- The item at place `j` stands at a smaller place too. -/
def RepeatsAt (items : List α) (j : Nat) : Prop :=
  ∃ a, items[j]? = some a ∧ ∃ i < j, items[i]? = some a

/-- Place `j` is the smallest whose item stands at a smaller place too. -/
def FirstRepeatsAt (items : List α) (j : Nat) : Prop :=
  RepeatsAt items j ∧ ∀ k < j, ¬ RepeatsAt items k

/-- No item of a list without repeats stands at a smaller place too, whatever follows the list. -/
theorem not_repeatsAt_append (h : items.Nodup) (hj : j < items.length) (rest : List α) :
    ¬ RepeatsAt (items ++ rest) j := by
  rintro ⟨a, ha, i, hij, hi⟩
  rw [List.getElem?_append_left hj] at ha
  rw [List.getElem?_append_left (Nat.lt_trans hij hj)] at hi
  exact List.nodup_iff_getElem?_ne_getElem?.mp h i j hij hj (hi.trans ha.symm)

/-- An item of a list without repeats that follows the list is the first that repeats. -/
theorem firstRepeatsAt_append_cons (h : items.Nodup) (ha : a ∈ items) (rest : List α) :
    FirstRepeatsAt (items ++ a :: rest) items.length := by
  refine ⟨⟨a, by simp, ?_⟩, fun k hk => not_repeatsAt_append h hk _⟩
  obtain ⟨i, hi, rfl⟩ := List.getElem_of_mem ha
  refine ⟨i, hi, ?_⟩
  rw [List.getElem?_append_left hi, List.getElem?_eq_getElem hi]

variable [DecidableEq α]

/-- The scan has passed items that are all different, and stops at the first place whose item is
among them. -/
theorem exists_firstRepeatsAt_of_scan {passed rest : List α} (h : passed.Nodup)
    (hscan : firstRepeatAfter? passed.reverse rest = some a) :
    ∃ j, (passed ++ rest)[j]? = some a ∧ FirstRepeatsAt (passed ++ rest) j := by
  induction rest generalizing passed with
  | nil => simp [firstRepeatAfter?] at hscan
  | cons b rest ih =>
      by_cases hb : b ∈ passed
      · have hba : b = a := by simpa [firstRepeatAfter?, hb] using hscan
        subst hba
        refine ⟨passed.length, ?_, firstRepeatsAt_append_cons h hb rest⟩
        simp
      · have hpassed : (passed ++ [b]).Nodup := by
          rw [← List.concat_eq_append]
          exact h.concat hb
        have hnext : firstRepeatAfter? (passed ++ [b]).reverse rest = some a := by
          simpa [firstRepeatAfter?, hb] using hscan
        simpa using ih hpassed hnext

/-- If items are not all different, then the first repeat is the item at the smallest place whose
item stands at a smaller place too. -/
theorem exists_firstRepeatsAt (h : ¬ items.Nodup) :
    ∃ j a, items[j]? = some a ∧ FirstRepeatsAt items j ∧ firstRepeat? items = some a := by
  obtain ⟨a, hrepeat⟩ := exists_firstRepeat?_iff.mpr h
  obtain ⟨j, ha, hfirst⟩ := exists_firstRepeatsAt_of_scan List.nodup_nil hrepeat
  exact ⟨j, a, ha, hfirst, hrepeat⟩

example : firstRepeat? [1, 2, 2, 1] = some 2 := by decide

end Places

/-- An enum is made exactly of the parts given if its first option `allow_alias` is true or if its
tags are all different, and it allows aliases exactly in the first case. Otherwise the enum is
refused under its qualified name for the tag of the first constant whose tag stands before it. -/
theorem EnumDecl.create_outcome (name qualifiedName documentation : String)
    (options : List SchemaOption) (constants : List Constant) :
    let outcome := (create ⟨name, qualifiedName, documentation, options⟩ constants).result
    let tags := constants.map Constant.tag
    (AliasesPermitted options ∨ tags.Nodup →
      ∃ decl, outcome = .ok decl ∧ decl.name = name ∧ decl.qualifiedName = qualifiedName ∧
        decl.documentation = documentation ∧ decl.options = options ∧
          decl.constants = constants ∧
            (decl.allowsAlias = true ↔ AliasesPermitted options)) ∧
    (¬ (AliasesPermitted options ∨ tags.Nodup) →
      ∃ j c, constants[j]? = some c ∧ FirstRepeatsAt tags j ∧
        outcome = .error (.duplicateTag c.tag qualifiedName)) := by
  intro outcome tags
  constructor
  · intro h
    refine ⟨⟨⟨name, qualifiedName, documentation, options⟩, constants⟩, ?_, rfl, rfl, rfl, rfl,
      rfl, permitAliases_iff⟩
    exact create_result_eq_ok_iff.mpr ⟨rfl, h.symm⟩
  · intro h
    obtain ⟨haliases, hrepeated⟩ := not_or.mp h
    obtain ⟨j, tag, htag, hfirst, hrepeat⟩ := exists_firstRepeatsAt hrepeated
    rw [List.getElem?_map, Option.map_eq_some_iff] at htag
    obtain ⟨c, hc, rfl⟩ := htag
    refine ⟨j, c, hc, hfirst, ?_⟩
    exact create_result_eq_error_iff.mpr ⟨haliases, c.tag, hrepeat, rfl⟩

namespace EnumDecl

/-- Constants of which the second tag repeats first, and the first tag last. -/
def crossed : List Constant :=
  [⟨"A", 1, "", []⟩, ⟨"B", 2, "", []⟩, ⟨"C", 2, "", []⟩, ⟨"D", 1, "", []⟩]

/-- Options that set `allow_alias` to both truth values, the given one first. -/
def contradictory (first : Bool) : List SchemaOption :=
  [⟨"allow_alias", .boolean first, true⟩, ⟨"allow_alias", .boolean !first, false⟩]

theorem create_outcome_crossed :
    AliasesPermitted (contradictory true) ∧
    (∃ decl, (create ⟨"E", "p.E", "doc", contradictory true⟩ crossed).result = .ok decl ∧
      decl.name = "E" ∧ decl.qualifiedName = "p.E" ∧ decl.documentation = "doc" ∧
        decl.options = contradictory true ∧ decl.constants = crossed ∧
          (decl.allowsAlias = true ↔ AliasesPermitted (contradictory true))) ∧
    ¬ (AliasesPermitted (contradictory false) ∨ (crossed.map Constant.tag).Nodup) ∧
    ∃ j c, crossed[j]? = some c ∧ FirstRepeatsAt (crossed.map Constant.tag) j ∧
      (create ⟨"E", "p.E", "doc", contradictory false⟩ crossed).result =
        .error (.duplicateTag c.tag "p.E") := by
  have hpermitted : AliasesPermitted (contradictory true) := permitAliases_iff.mp (by decide)
  have hrefused :
      ¬ (AliasesPermitted (contradictory false) ∨ (crossed.map Constant.tag).Nodup) := by
    rw [← permitAliases_iff]
    decide
  exact ⟨hpermitted,
    (create_outcome "E" "p.E" "doc" (contradictory true) crossed).1 (.inl hpermitted), hrefused,
    (create_outcome "E" "p.E" "doc" (contradictory false) crossed).2 hrefused⟩

end EnumDecl

/-- The names of the constants of all enums among declarations, in order. A message among them
adds none, whatever is in it. -/
def enumConstantNames (ds : List Declaration) : List String :=
  (enumsAmong ds).flatMap fun decl => decl.constants.map Constant.name

/-- A scope has no fault exactly if the constants of the enums that stand directly in it have
different names, whatever their enums allow. Otherwise its fault is the first name that stands
before, in the order of the enums and then of their constants. A message is refused exactly with
the fault of its scope, and otherwise made of just the parts given. -/
theorem checkScope_outcome (scope : String) (ds : List Declaration) :
    let names := enumConstantNames ds
    ((checkScope scope ds).result = .ok () ↔ names.Nodup) ∧
    (¬ names.Nodup →
      ∃ j constant, names[j]? = some constant ∧ FirstRepeatsAt names j ∧
        (checkScope scope ds).result = .error (.duplicateConstant constant scope)) ∧
    ∀ name documentation options,
      let header : Header := ⟨name, scope, documentation, options⟩
      (∀ fault, (Declaration.createMessage header ds).result = .error fault ↔
        (checkScope scope ds).result = .error fault) ∧
      ((checkScope scope ds).result = .ok () →
        (Declaration.createMessage header ds).result = .ok (.message header ds)) := by
  intro names
  have hnames : scopeNames ds = names := scopeNames_eq_flatMap ds
  refine ⟨checkScope_result_eq_ok_iff, ?_, fun name documentation options => ⟨?_, ?_⟩⟩
  · intro h
    obtain ⟨j, constant, hconstant, hfirst, hrepeat⟩ := exists_firstRepeatsAt h
    refine ⟨j, constant, hconstant, hfirst, ?_⟩
    exact checkScope_result_eq_error_iff.mpr ⟨constant, hnames ▸ hrepeat, rfl⟩
  · intro fault
    exact Declaration.createMessage_result_eq_error_iff
  · intro h
    exact Declaration.createMessage_result_eq_ok_iff.mpr
      ⟨rfl, checkScope_result_eq_ok_iff.mp h⟩

/-- A scope with a message between two enums. The second enum allows aliases. -/
def mixedScope (last : String) : List Declaration :=
  [.enum ⟨⟨"A", "p.A", "", []⟩, [⟨"X", 0, "", []⟩, ⟨"Y", 1, "", []⟩]⟩,
    .message ⟨"M", "p.M", "", []⟩ [.enum ⟨⟨"I", "p.M.I", "", []⟩, [⟨"Z", 0, "", []⟩]⟩],
    .enum ⟨⟨"B", "p.B", "", EnumDecl.contradictory true⟩, [⟨"Z", 0, "", []⟩, ⟨last, 0, "", []⟩]⟩]

theorem checkScope_outcome_mixedScope :
    (checkScope "p" (mixedScope "W")).result = .ok () ∧
    (Declaration.createMessage ⟨"P", "p", "", []⟩ (mixedScope "W")).result =
      .ok (.message ⟨"P", "p", "", []⟩ (mixedScope "W")) ∧
    ¬ (enumConstantNames (mixedScope "Z")).Nodup ∧
    ∃ j constant, (enumConstantNames (mixedScope "Z"))[j]? = some constant ∧
      FirstRepeatsAt (enumConstantNames (mixedScope "Z")) j ∧
      (checkScope "p" (mixedScope "Z")).result = .error (.duplicateConstant constant "p") := by
  have hpassed : (checkScope "p" (mixedScope "W")).result = .ok () :=
    (checkScope_outcome "p" (mixedScope "W")).1.mpr (by decide)
  have hrepeated : ¬ (enumConstantNames (mixedScope "Z")).Nodup := by decide
  exact ⟨hpassed, ((checkScope_outcome "p" (mixedScope "W")).2.2 "P" "" []).2 hpassed, hrepeated,
    (checkScope_outcome "p" (mixedScope "Z")).2.1 hrepeated⟩

end SchemaDecl
