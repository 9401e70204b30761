import Mathlib.Data.List.Flatten
import Mathlib.Data.List.Perm.Subperm
import Mathlib.Logic.Relation
import SchemaDecl.Proofs.Obtainable

/-!
# Declarations in another order, or left out

A scope can be rearranged: its declarations, the constants of an enum in it, or the scope inside a
message in it can be put in another order, and some of them can be left out. One such change after
the other leads to every rearrangement at any depths. Another order never changes whether the
factories accept something, although it may change which fault is told. What has been accepted
stays acceptable when parts of it are left out.

## Implementation notes

A change takes a list to another one. Which lists it may take to which is a parameter of the
relation `Edit`, so that changes of the order and changes that leave something out are the same
changes with different parameters.
-/

namespace SchemaDecl

/-- The second list holds items of the first, each at most as often, in any order. -/
def Thins {α : Type} (xs ys : List α) : Prop := ys.Subperm xs

namespace Thins

variable {α β : Type} {xs ys : List α}

theorem of_perm (h : xs.Perm ys) : Thins xs ys := h.symm.subperm

theorem flatMap (h : Thins xs ys) (f : α → List β) : Thins (xs.flatMap f) (ys.flatMap f) := by
  obtain ⟨kept, hperm, hsublist⟩ := h
  exact ⟨kept.flatMap f, hperm.flatMap_right f, hsublist.flatMap f⟩

theorem map (h : Thins xs ys) (f : α → β) : Thins (xs.map f) (ys.map f) := by
  obtain ⟨kept, hperm, hsublist⟩ := h
  exact ⟨kept.map f, hperm.map f, hsublist.map f⟩

theorem nodup (h : Thins xs ys) (hxs : xs.Nodup) : ys.Nodup := by
  obtain ⟨kept, hperm, hsublist⟩ := h
  exact hperm.nodup_iff.mp (hxs.sublist hsublist)

end Thins

/-- An enum keeps sound tags when its constants are put in another order or left out. -/
theorem EnumDecl.TagsSound.thin {header : Header} {constants others : List Constant}
    (h : TagsSound ⟨header, constants⟩) (hthins : Thins constants others) :
    TagsSound ⟨header, others⟩ := by
  obtain hnodup | hpermitted := h
  · exact .inl ((hthins.map Constant.tag).nodup hnodup)
  · exact .inr hpermitted

namespace Declaration

/-- One change to a scope. Names, documentation and options stay as they are. -/
inductive Edit (replaces : ∀ α : Type, List α → List α → Prop) :
    List Declaration → List Declaration → Prop
  | siblings {ds es : List Declaration} (h : replaces _ ds es) : Edit replaces ds es
  | constants {before after : List Declaration} {header : Header} {cs others : List Constant}
      (h : replaces _ cs others) :
      Edit replaces (before ++ .enum ⟨header, cs⟩ :: after)
        (before ++ .enum ⟨header, others⟩ :: after)
  | nested {before after : List Declaration} {header : Header} {ds es : List Declaration}
      (h : Edit replaces ds es) :
      Edit replaces (before ++ .message header ds :: after) (before ++ .message header es :: after)

/-- A scope is put in another order, at any depths, by one change after the other. -/
def Reordered : List Declaration → List Declaration → Prop :=
  Relation.ReflTransGen (Edit @List.Perm)

/-- A scope is put in another order, and parts of it are left out, at any depths, by one change
after the other. -/
def Thinned : List Declaration → List Declaration → Prop := Relation.ReflTransGen (Edit @Thins)

variable {ds es : List Declaration}

theorem Edit.thins_of_perm (h : Edit @List.Perm ds es) : Edit @Thins ds es ∧ Edit @Thins es ds := by
  induction h with
  | siblings h => exact ⟨.siblings (.of_perm h), .siblings (.of_perm h.symm)⟩
  | constants h => exact ⟨.constants (.of_perm h), .constants (.of_perm h.symm)⟩
  | nested h ih => exact ⟨.nested ih.1, .nested ih.2⟩

/-- Another order can be undone, and leaves nothing out. -/
theorem Reordered.thinned (h : Reordered ds es) : Thinned ds es ∧ Thinned es ds := by
  induction h with
  | refl => exact ⟨.refl, .refl⟩
  | tail _ hedit ih => exact ⟨ih.1.tail hedit.thins_of_perm.1, ih.2.head hedit.thins_of_perm.2⟩

/-- The constants of a declaration stand among the names of its scope where it stands. -/
theorem scopeNames_append_cons (before after : List Declaration) (d : Declaration) :
    scopeNames (before ++ d :: after) =
      scopeNames before ++ (d.constants.map Constant.name ++ scopeNames after) := by
  simp only [scopeNames, List.flatMap_append, List.flatMap_cons]

/-- A change to a scope brings no names of constants to it; a change inside a message leaves its
names alone. -/
theorem Edit.thins_scopeNames (h : Edit @Thins ds es) :
    Thins (scopeNames ds) (scopeNames es) := by
  cases h with
  | siblings h => exact h.flatMap _
  | constants h =>
      rw [scopeNames_append_cons, scopeNames_append_cons]
      exact (List.Subperm.refl _).append ((h.map Constant.name).append (.refl _))
  | nested _ =>
      rw [scopeNames_append_cons, scopeNames_append_cons]
      exact List.Subperm.refl _

theorem Edit.scopeSound (h : Edit @Thins ds es) (hds : ScopeSound ds) : ScopeSound es := by
  rw [scopeSound_iff_nodup_scopeNames] at hds ⊢
  exact h.thins_scopeNames.nodup hds

theorem Thinned.scopeSound (h : Thinned ds es) (hds : ScopeSound ds) : ScopeSound es := by
  induction h with
  | refl => exact hds
  | tail _ hedit ih => exact hedit.scopeSound ih

/-- Sound declarations are sound after a change. Inside a message the scope that is changed stays
sound, and so does every declaration in it. -/
theorem Edit.sound (h : Edit @Thins ds es) (hds : ∀ d ∈ ds, Sound d) : ∀ e ∈ es, Sound e := by
  induction h with
  | siblings h => exact fun e he => hds e (h.subset he)
  | constants h =>
      simp only [List.forall_mem_append, List.forall_mem_cons, sound_enum_iff] at hds ⊢
      exact ⟨hds.1, hds.2.1.thin h, hds.2.2⟩
  | nested h ih =>
      simp only [List.forall_mem_append, List.forall_mem_cons, sound_message_iff] at hds ⊢
      obtain ⟨hbefore, ⟨hscope, hnested⟩, hafter⟩ := hds
      exact ⟨hbefore, ⟨h.scopeSound hscope, ih hnested⟩, hafter⟩

theorem Thinned.sound (h : Thinned ds es) (hds : ∀ d ∈ ds, Sound d) : ∀ e ∈ es, Sound e := by
  induction h with
  | refl => exact hds
  | tail _ hedit ih => exact hedit.sound ih

/-- Whether an enum is made does not depend on the order of its constants. Whether a scope has a
fault, and a message around it is refused, does not depend on the order of the declarations nor, at
any depth, on the order of constants and of nested declarations. A tree that was obtained is made
from the leaves up again after any of its constants and nested declarations, at any depths, have
been put in another order or left out. -/
theorem accepted_of_rearranged :
    (∀ (header : Header) (constants others : List Constant), constants.Perm others →
      ((EnumDecl.create header constants).HasResult ↔
        (EnumDecl.create header others).HasResult)) ∧
    (∀ ds es : List Declaration, Reordered ds es →
      (∀ scope, (checkScope scope ds).HasResult ↔ (checkScope scope es).HasResult) ∧
      ∀ header, (createMessage header ds).HasResult ↔ (createMessage header es).HasResult) ∧
    ∀ d e : Declaration, Obtainable d → Thinned [d] [e] → e.assemble.result = .ok e := by
  have hreordered (ds es : List Declaration) (h : Reordered ds es) :
      ScopeSound ds ↔ ScopeSound es := ⟨h.thinned.1.scopeSound, h.thinned.2.scopeSound⟩
  refine ⟨fun header constants others h => ?_, fun ds es h => ⟨?_, ?_⟩, fun d e hd h => ?_⟩
  · rw [EnumDecl.hasResult_create_iff, EnumDecl.hasResult_create_iff]
    exact ⟨fun hsound => hsound.thin (.of_perm h), fun hsound => hsound.thin (.of_perm h.symm)⟩
  · intro scope
    rw [hasResult_checkScope_iff, hasResult_checkScope_iff]
    exact hreordered ds es h
  · intro header
    rw [hasResult_createMessage_iff, hasResult_createMessage_iff]
    exact hreordered ds es h
  · have hsound : Sound e :=
      List.forall_mem_singleton.mp (h.sound (List.forall_mem_singleton.mpr hd.sound))
    exact assemble_result_eq_ok_iff.mpr ⟨hsound, rfl⟩

/-- An enum that allows aliases and one that does not, with the given constants. -/
def twoEnums (first second : List Constant) : List Declaration :=
  [.enum ⟨⟨"A", "p.M.A", "", [⟨allowAliasName, .boolean true, false⟩]⟩, first⟩,
    .enum ⟨⟨"B", "p.M.B", "", []⟩, second⟩]

/-- A message around a message around two enums. -/
def twoEnumsNested (first second : List Constant) : Declaration :=
  .message ⟨"L", "p.L", "", []⟩ [.message ⟨"M", "p.L.M", "", []⟩ (twoEnums first second)]

theorem accepted_of_rearranged_twoEnums :
    let x : Constant := ⟨"X", 0, "", []⟩
    let y : Constant := ⟨"Y", 0, "", []⟩
    ([x, y].Perm [y, x] ∧ ((EnumDecl.create ⟨"E", "p.E", "", []⟩ [x, y]).HasResult ↔
      (EnumDecl.create ⟨"E", "p.E", "", []⟩ [y, x]).HasResult)) ∧
    (Reordered (twoEnums [x, y] [x]) (twoEnums [y, x] [x]).reverse ∧
      ((checkScope "p.M" (twoEnums [x, y] [x])).HasResult ↔
        (checkScope "p.M" (twoEnums [y, x] [x]).reverse).HasResult)) ∧
    Obtainable (twoEnumsNested [x, y] []) ∧
      Thinned [twoEnumsNested [x, y] []] [twoEnumsNested [y] []] ∧
        (twoEnumsNested [y] []).assemble.result = .ok (twoEnumsNested [y] []) := by
  intro x y
  have hperm : [x, y].Perm [y, x] := .swap y x []
  have hreordered : Reordered (twoEnums [x, y] [x]) (twoEnums [y, x] [x]).reverse :=
    .tail (.single (@Edit.constants _ [] _ _ _ _ hperm)) (.siblings (List.reverse_perm _).symm)
  have hobtained : Obtainable (twoEnumsNested [x, y] []) :=
    (assemble_result_eq_ok_iff.mp rfl).1.obtainable
  have hthins : Thins [x, y] [y] := (List.sublist_cons_self x [y]).subperm
  have hthinned : Thinned [twoEnumsNested [x, y] []] [twoEnumsNested [y] []] :=
    .single (@Edit.nested _ [] _ _ _ _ (@Edit.nested _ [] _ _ _ _
      (@Edit.constants _ [] _ _ _ _ hthins)))
  exact ⟨⟨hperm, accepted_of_rearranged.1 _ _ _ hperm⟩,
    ⟨hreordered, (accepted_of_rearranged.2.1 _ _ hreordered).1 "p.M"⟩,
    hobtained, hthinned, accepted_of_rearranged.2.2 _ _ hobtained hthinned⟩

end Declaration

end SchemaDecl
