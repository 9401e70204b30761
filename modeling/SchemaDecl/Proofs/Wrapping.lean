import Mathlib.Data.List.Perm.Basic
import SchemaDecl.Proofs.Outcome

/-!
# Declarations moved into a message and out again

A message keeps the constants of its enums to itself. Declarations that are moved out of a scope
into a message in their place therefore leave to the scope what is left of it without them, and
they bring their names back when the message is taken apart. What is moved in can always be moved
in if the scope had no fault; what is moved out fits exactly if it shares no name with the rest.
-/

namespace SchemaDecl

variable {header : Header} {before moved after nested : List Declaration}

theorem enumConstantNames_append (ds es : List Declaration) :
    enumConstantNames (ds ++ es) = enumConstantNames ds ++ enumConstantNames es := by
  simp [enumConstantNames, enumsAmong]

theorem enumConstantNames_message (header : Header) (nested : List Declaration) :
    enumConstantNames [.message header nested] = [] := rfl

/-- The names of a scope with a message are those of the scope without it. -/
theorem enumConstantNames_append_message :
    enumConstantNames (before ++ [.message header nested] ++ after) =
      enumConstantNames (before ++ after) := by
  simp only [enumConstantNames_append, enumConstantNames_message, List.append_nil]

/-- A scope is sound exactly if a part of it and the rest are, and if these share no name. -/
theorem scopeSound_append_append_iff :
    ScopeSound (before ++ moved ++ after) ↔
      ScopeSound moved ∧ ScopeSound (before ++ after) ∧
        ∀ name ∈ enumConstantNames moved,
          name ∉ enumConstantNames before ∧ name ∉ enumConstantNames after := by
  have hperm : (enumConstantNames (before ++ moved ++ after)).Perm
      (enumConstantNames moved ++ enumConstantNames (before ++ after)) := by
    simp only [enumConstantNames_append, List.append_assoc]
    exact List.perm_append_comm_assoc _ _ _
  have hshared (name : String) : name ∉ enumConstantNames (before ++ after) ↔
      name ∉ enumConstantNames before ∧ name ∉ enumConstantNames after := by
    rw [enumConstantNames_append, List.mem_append, not_or]
  calc
    ScopeSound (before ++ moved ++ after)
      ↔ (enumConstantNames moved ++ enumConstantNames (before ++ after)).Nodup :=
        hperm.nodup_iff
    _ ↔ ScopeSound moved ∧ ScopeSound (before ++ after) ∧
          ∀ name ∈ enumConstantNames moved, name ∉ enumConstantNames (before ++ after) := by
        rw [List.nodup_append', List.disjoint_left]
        rfl
    _ ↔ _ := by
        simp only [hshared]

namespace Declaration

/-- Declarations of a scope without fault can be moved into a message in their place, and the scope
is then without fault as well. A message that can be made at all adds nothing to a scope: with it
the scope is without fault exactly if it is without fault when the message is left out. Taken
apart, the message gives back what it was made around; in its place this leaves the scope without
fault exactly if the rest is without fault and shares no name with it. -/
theorem checkScope_wrapped (scope : String) (header : Header)
    (before moved after : List Declaration) :
    ((checkScope scope (before ++ moved ++ after)).result = .ok () →
      ∃ made, (createMessage header moved).result = .ok made ∧
        (checkScope scope (before ++ [made] ++ after)).result = .ok ()) ∧
    ∀ made, (createMessage header moved).result = .ok made →
      ((checkScope scope (before ++ [made] ++ after)).result = .ok () ↔
        (checkScope scope (before ++ after)).result = .ok ()) ∧
      made = .message header moved ∧ made.nested = moved ∧
      ((checkScope scope (before ++ made.nested ++ after)).result = .ok () ↔
        (checkScope scope (before ++ after)).result = .ok () ∧
          ∀ name ∈ enumConstantNames made.nested,
            name ∉ enumConstantNames before ∧ name ∉ enumConstantNames after) := by
  have hwrapped : ScopeSound (before ++ [.message header moved] ++ after) ↔
      ScopeSound (before ++ after) := by
    exact iff_of_eq (congrArg List.Nodup enumConstantNames_append_message)
  simp only [checkScope_result_eq_ok_iff, createMessage_result_eq_ok_iff]
  constructor
  · intro h
    obtain ⟨hmoved, hrest, -⟩ := scopeSound_append_append_iff.mp h
    exact ⟨.message header moved, ⟨rfl, hmoved⟩, hwrapped.mpr hrest⟩
  · rintro made ⟨rfl, hmoved⟩
    refine ⟨hwrapped, rfl, rfl, ?_⟩
    rw [nested, scopeSound_append_append_iff, and_iff_right hmoved]

/-- An enum of one constant. -/
def single (name constant : String) : Declaration :=
  .enum ⟨⟨name, "p." ++ name, "", []⟩, [⟨constant, 0, "", []⟩]⟩

/-- Between enums with the constants `X` and `Z` an enum with the constant `Y` can be moved into a
message and out again, and one with the constant `X` only stay in a message. -/
theorem checkScope_wrapped_single :
    (∃ made, (createMessage ⟨"M", "p.M", "", []⟩ [single "B" "Y"]).result = .ok made ∧
      (checkScope "p" ([single "A" "X"] ++ [made] ++ [single "C" "Z"])).result = .ok ()) ∧
    (createMessage ⟨"M", "p.M", "", []⟩ [single "B" "X"]).result =
      .ok (.message ⟨"M", "p.M", "", []⟩ [single "B" "X"]) ∧
    (checkScope "p" ([single "A" "X"] ++ [.message ⟨"M", "p.M", "", []⟩ [single "B" "X"]] ++
      [single "C" "Z"])).result = .ok () ∧
    ¬ (checkScope "p" ([single "A" "X"] ++ [single "B" "X"] ++ [single "C" "Z"])).result =
      .ok () := by
  have hmade : (createMessage ⟨"M", "p.M", "", []⟩ [single "B" "X"]).result =
      .ok (.message ⟨"M", "p.M", "", []⟩ [single "B" "X"]) := rfl
  obtain ⟨hwrapped, -, -, hunwrapped⟩ :=
    (checkScope_wrapped "p" ⟨"M", "p.M", "", []⟩ [single "A" "X"] [single "B" "X"]
      [single "C" "Z"]).2 _ hmade
  refine ⟨?_, hmade, hwrapped.mpr rfl, fun h => ?_⟩
  · exact (checkScope_wrapped "p" ⟨"M", "p.M", "", []⟩ [single "A" "X"] [single "B" "Y"]
      [single "C" "Z"]).1 rfl
  · exact ((hunwrapped.mp h).2 "X" (by decide)).1 (by decide)

end Declaration

end SchemaDecl
