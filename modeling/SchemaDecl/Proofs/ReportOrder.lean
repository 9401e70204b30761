import Mathlib.Data.List.Basic
import SchemaDecl.Collation
import SchemaDecl.Fault

/-!
# The order of a report

Faults and diagnostics that are collected in any order are sorted into one list. Comparing two of
them tells which one precedes the other, unless they are the same; so no two different ones are
equal to the sort, and the sorted list depends on nothing but what was collected.
-/

namespace SchemaDecl

open Std

namespace Collation

variable {α : Type} [Ord α]

/-- Comparing two items tells which one precedes the other or that they are the same, and chains of
items that precede each other are in order throughout. -/
structure OrdersBy (precedes : α → α → Prop) : Prop where
  lt_iff : ∀ a b : α, compare a b = .lt ↔ precedes a b
  eq_iff : ∀ a b : α, compare a b = .eq ↔ a = b
  gt_iff : ∀ a b : α, compare a b = .gt ↔ precedes b a
  trans : ∀ a b c, precedes a b → precedes b c → precedes a c

/-- Sorting puts the items in order, and depends on nothing but the items. -/
structure SortsBy (precedes : α → α → Prop) : Prop where
  perm : ∀ items : List α, (sorted items).Perm items
  pairwise : ∀ items : List α, (sorted items).Pairwise fun a b => ¬ precedes b a
  eq_iff_perm : ∀ items others : List α, sorted items = sorted others ↔ items.Perm others

theorem sorted_perm (items : List α) : (sorted items).Perm items :=
  List.mergeSort_perm items _

/-- The items at the places that the sort tells are the sorted items. -/
theorem map_sortedPlaces (items : List α) :
    (sortedPlaces items).map (items[·]?) = (sorted items).map some := by
  let places := items.zipIdx.mergeSort fun a b => (compare a.1 b.1).isLE
  have hat : ∀ p ∈ places, items[p.2]? = some p.1 := by
    intro p hp
    have hzip : p ∈ items.zipIdx := (List.mergeSort_perm _ _).mem_iff.mp hp
    exact List.mem_zipIdx_iff_getElem?.mp hzip
  have hitems : places.map (·.1) = sorted items := by
    have hsort : places.map (·.1) = sorted (items.zipIdx.map (·.1)) :=
      List.map_mergeSort fun _ _ _ _ => rfl
    rwa [List.zipIdx_map_fst] at hsort
  calc
    (sortedPlaces items).map (items[·]?) = places.map fun p => items[p.2]? := List.map_map
    _ = places.map fun p => some p.1 := List.map_congr_left hat
    _ = (sorted items).map some := by rw [← hitems, List.map_map]; rfl

variable {precedes : α → α → Prop} [TransOrd α]

theorem pairwise_sorted (items : List α) :
    (sorted items).Pairwise fun a b => (compare a b).isLE = true := by
  apply List.pairwise_mergeSort
  · exact fun a b c => TransCmp.isLE_trans
  · intro a b
    have hswap : compare b a = (compare a b).swap := OrientedCmp.eq_swap
    rw [hswap]
    cases compare a b <;> rfl

variable [LawfulEqOrd α]

theorem ordersBy_of_lt_iff (h : ∀ a b, compare a b = .lt ↔ precedes a b) : OrdersBy precedes where
  lt_iff := h
  eq_iff _ _ := LawfulEqCmp.compare_eq_iff_eq
  gt_iff a b := by rw [OrientedCmp.gt_iff_lt, h]
  trans a b c hab hbc := by
    rw [← h] at hab hbc ⊢
    exact TransCmp.lt_trans hab hbc

/-- Lists of the same items are sorted into the same list, since only the same items are equal. -/
theorem sorted_eq_of_perm {items others : List α} (h : items.Perm others) :
    sorted items = sorted others := by
  apply List.Perm.eq_of_pairwise _ (pairwise_sorted items) (pairwise_sorted others)
  · exact ((sorted_perm items).trans h).trans (sorted_perm others).symm
  · intro a b _ _ hab hba
    exact LawfulEqCmp.eq_of_compare (OrientedCmp.isLE_antisymm hab hba)

theorem OrdersBy.sortsBy (h : OrdersBy precedes) : SortsBy precedes where
  perm := sorted_perm
  pairwise items := (pairwise_sorted items).imp fun {a b} hab hba => by
    rw [← h.gt_iff] at hba
    rw [hba] at hab
    cases hab
  eq_iff_perm items others := by
    refine ⟨fun heq => ?_, sorted_eq_of_perm⟩
    have hperm := sorted_perm others
    rw [← heq] at hperm
    exact (sorted_perm items).symm.trans hperm

end Collation

/-- The code points of a string. -/
def Text.codePoints (s : String) : List Nat := s.toList.map Char.toNat

theorem Text.map_toNat_lt_iff {s t : List Char} :
    s.map Char.toNat < t.map Char.toNat ↔ s < t := by
  induction s generalizing t with
  | nil => cases t <;> simp
  | cons c rest ih =>
      cases t with
      | nil => simp
      | cons d others =>
          rw [List.map_cons, List.map_cons, List.cons_lt_cons_iff, List.cons_lt_cons_iff, ih,
            Char.toNat_inj]
          rfl

theorem Text.compare_eq_lt_iff {s t : String} :
    compare s t = .lt ↔ codePoints s < codePoints t := by
  rw [codePoints, codePoints, map_toNat_lt_iff, ← String.lt_iff]
  exact compareOfLessAndEq_eq_lt

namespace Fault

open Text

/-- A fault precedes another one by its cause, or else by what it holds: by its tag as a number, by
names as their code points, and by the later part only if the earlier one is the same. -/
inductive Precedes : Fault → Fault → Prop
  | part {p q : String} (h : codePoints p < codePoints q) :
      Precedes (.missingPart p) (.missingPart q)
  | partTag {p n : String} {t : Int32} : Precedes (.missingPart p) (.duplicateTag t n)
  | partConstant {p d n : String} : Precedes (.missingPart p) (.duplicateConstant d n)
  | tag {s t : Int32} {m n : String} (h : s.toInt < t.toInt) :
      Precedes (.duplicateTag s m) (.duplicateTag t n)
  | enumName {t : Int32} {m n : String} (h : codePoints m < codePoints n) :
      Precedes (.duplicateTag t m) (.duplicateTag t n)
  | tagConstant {t : Int32} {m d n : String} :
      Precedes (.duplicateTag t m) (.duplicateConstant d n)
  | constant {c d m n : String} (h : codePoints c < codePoints d) :
      Precedes (.duplicateConstant c m) (.duplicateConstant d n)
  | scope {c m n : String} (h : codePoints m < codePoints n) :
      Precedes (.duplicateConstant c m) (.duplicateConstant c n)

/-- The tag that a fault holds, or zero. -/
def tag : Fault → Int32
  | .duplicateTag tag _ => tag
  | _ => 0

/-- The names that a fault holds, the second one empty if there is none. -/
def names : Fault → String × String
  | .missingPart part => (part, "")
  | .duplicateTag _ enumName => (enumName, "")
  | .duplicateConstant constant scope => (constant, scope)

/-- Faults are compared by their causes, tags and names in turn. -/
theorem compare_eq_compareLex :
    (compare : Fault → Fault → Ordering) =
      compareLex (compareOn rank) (compareLex (compareOn tag)
        (compareLex (compareOn fun f => f.names.1) (compareOn fun f => f.names.2))) := by
  funext f g
  have hsecond (o : Ordering) : o = o.then (compare "" "") := Ordering.then_eq.symm
  cases f with
  | missingPart p =>
      cases g with
      | missingPart q => exact hsecond _
      | duplicateTag | duplicateConstant => rfl
  | duplicateTag s m =>
      cases g with
      | duplicateTag t n => exact congrArg (compare s t).then (hsecond _)
      | missingPart | duplicateConstant => rfl
  | duplicateConstant c m => cases g <;> rfl

instance : TransOrd Fault := by
  rw [TransOrd, compare_eq_compareLex]
  infer_instance

theorem eq_of_compare_eq {f g : Fault} (h : compare f g = .eq) : f = g := by
  cases f with
  | missingPart p =>
      cases g with
      | missingPart q =>
          have hpart : compare p q = .eq := h
          rw [LawfulEqCmp.eq_of_compare hpart]
      | duplicateTag | duplicateConstant => cases h
  | duplicateTag s m =>
      cases g with
      | duplicateTag t n =>
          obtain ⟨htag, hname⟩ := Ordering.then_eq_eq.mp h
          rw [LawfulEqCmp.eq_of_compare htag, LawfulEqCmp.eq_of_compare hname]
      | missingPart | duplicateConstant => cases h
  | duplicateConstant c m =>
      cases g with
      | duplicateConstant d n =>
          obtain ⟨hname, hscope⟩ := Ordering.then_eq_eq.mp h
          rw [LawfulEqCmp.eq_of_compare hname, LawfulEqCmp.eq_of_compare hscope]
      | missingPart | duplicateTag => cases h

instance : LawfulEqOrd Fault where
  eq_of_compare := eq_of_compare_eq

theorem compare_eq_lt_iff {f g : Fault} : compare f g = .lt ↔ f.Precedes g := by
  cases f with
  | missingPart p =>
      cases g with
      | missingPart q => exact Text.compare_eq_lt_iff.trans ⟨.part, fun | .part h => h⟩
      | duplicateTag t n => exact iff_of_true rfl .partTag
      | duplicateConstant d n => exact iff_of_true rfl .partConstant
  | duplicateTag s m =>
      cases g with
      | missingPart q => exact iff_of_false nofun nofun
      | duplicateTag t n =>
          calc
            compare (duplicateTag s m) (duplicateTag t n) = .lt ↔
                compare s t = .lt ∨ compare s t = .eq ∧ compare m n = .lt := Ordering.then_eq_lt
            _ ↔ s.toInt < t.toInt ∨ s = t ∧ codePoints m < codePoints n := by
              rw [compare_eq_lt, Int32.lt_iff_toInt_lt, LawfulEqCmp.compare_eq_iff_eq,
                Text.compare_eq_lt_iff]
            _ ↔ Precedes (duplicateTag s m) (duplicateTag t n) := by
              constructor
              · rintro (h | ⟨rfl, h⟩)
                · exact .tag h
                · exact .enumName h
              · intro h
                cases h with
                | tag h => exact .inl h
                | enumName h => exact .inr ⟨rfl, h⟩
      | duplicateConstant d n => exact iff_of_true rfl .tagConstant
  | duplicateConstant c m =>
      cases g with
      | missingPart q => exact iff_of_false nofun nofun
      | duplicateTag t n => exact iff_of_false nofun nofun
      | duplicateConstant d n =>
          calc
            compare (duplicateConstant c m) (duplicateConstant d n) = .lt ↔
                compare c d = .lt ∨ compare c d = .eq ∧ compare m n = .lt := Ordering.then_eq_lt
            _ ↔ codePoints c < codePoints d ∨ c = d ∧ codePoints m < codePoints n := by
              rw [Text.compare_eq_lt_iff, LawfulEqCmp.compare_eq_iff_eq, Text.compare_eq_lt_iff]
            _ ↔ Precedes (duplicateConstant c m) (duplicateConstant d n) := by
              constructor
              · rintro (h | ⟨rfl, h⟩)
                · exact .constant h
                · exact .scope h
              · intro h
                cases h with
                | constant h => exact .inl h
                | scope h => exact .inr ⟨rfl, h⟩

end Fault

namespace Severity

/-- A severity precedes another one if it is graver. -/
inductive Precedes : Severity → Severity → Prop
  | errorWarning : Precedes .error .warning
  | errorInfo : Precedes .error .info
  | warningInfo : Precedes .warning .info

instance : TransOrd Severity := inferInstanceAs (TransCmp (compareOn rank))

instance : LawfulEqOrd Severity where
  eq_of_compare {s t} h := by
    cases s <;> cases t <;> first | rfl | cases h

theorem compare_eq_lt_iff {s t : Severity} : compare s t = .lt ↔ s.Precedes t := by
  constructor
  · intro h
    match s, t with
    | .error, .warning => exact .errorWarning
    | .error, .info => exact .errorInfo
    | .warning, .info => exact .warningInfo
  · rintro (_ | _ | _) <;> rfl

end Severity

namespace Diagnostic

open Text

/-- A diagnostic precedes another one by its message as code points, or else by its severity, or
else by its help, of which none precedes any. -/
inductive Precedes : Diagnostic → Diagnostic → Prop
  | message {m n : String} {s t : Severity} {g h : Option String}
      (hmessage : codePoints m < codePoints n) : Precedes ⟨m, s, g⟩ ⟨n, t, h⟩
  | severity {m : String} {s t : Severity} {g h : Option String} (hseverity : s.Precedes t) :
      Precedes ⟨m, s, g⟩ ⟨m, t, h⟩
  | noHelp {m h : String} {s : Severity} : Precedes ⟨m, s, none⟩ ⟨m, s, some h⟩
  | help {m g h : String} {s : Severity} (hhelp : codePoints g < codePoints h) :
      Precedes ⟨m, s, some g⟩ ⟨m, s, some h⟩

theorem compareHelp_eq_compare (g h : Option String) : compareHelp g h = compare g h := by
  cases g <;> cases h <;> rfl

theorem compare_mk (m n : String) (s t : Severity) (g h : Option String) :
    compare (⟨m, s, g⟩ : Diagnostic) ⟨n, t, h⟩ =
      (compare m n).then ((compare s t).then (compare g h)) := by
  rw [← compareHelp_eq_compare]
  rfl

/-- Diagnostics are compared by their messages, severities and helps in turn. -/
theorem compare_eq_compareLex :
    (compare : Diagnostic → Diagnostic → Ordering) =
      compareLex (compareOn message) (compareLex (compareOn severity) (compareOn help)) := by
  funext d e
  exact compare_mk d.message e.message d.severity e.severity d.help e.help

instance : TransOrd Diagnostic := by
  rw [TransOrd, compare_eq_compareLex]
  infer_instance

instance : LawfulEqOrd Diagnostic where
  eq_of_compare {d e} h := by
    obtain ⟨m, s, g⟩ := d
    obtain ⟨n, t, h'⟩ := e
    rw [compare_mk, Ordering.then_eq_eq, Ordering.then_eq_eq] at h
    obtain ⟨hmessage, hseverity, hhelp⟩ := h
    rw [LawfulEqCmp.eq_of_compare hmessage, LawfulEqCmp.eq_of_compare hseverity,
      LawfulEqCmp.eq_of_compare hhelp]

theorem compare_eq_lt_iff {d e : Diagnostic} : compare d e = .lt ↔ d.Precedes e := by
  obtain ⟨m, s, g⟩ := d
  obtain ⟨n, t, h⟩ := e
  rw [compare_mk, Ordering.then_eq_lt, Ordering.then_eq_lt, Text.compare_eq_lt_iff,
    Severity.compare_eq_lt_iff, LawfulEqCmp.compare_eq_iff_eq, LawfulEqCmp.compare_eq_iff_eq]
  constructor
  · rintro (hmessage | ⟨rfl, hseverity | ⟨rfl, hhelp⟩⟩)
    · exact .message hmessage
    · exact .severity hseverity
    · match g, h with
      | none, some _ => exact .noHelp
      | some _, some _ => exact .help (Text.compare_eq_lt_iff.mp hhelp)
  · rintro (hmessage | hseverity | _ | hhelp)
    · exact .inl hmessage
    · exact .inr ⟨rfl, .inl hseverity⟩
    · exact .inr ⟨rfl, .inr ⟨rfl, rfl⟩⟩
    · exact .inr ⟨rfl, .inr ⟨rfl, Text.compare_eq_lt_iff.mpr hhelp⟩⟩

end Diagnostic

/-- Faults and diagnostics are compared by total orders in which only the same ones are equal, and
sorting them gives one list for all orders in which they were collected. -/
theorem Collation.ordersBy_and_sortsBy :
    OrdersBy Fault.Precedes ∧ OrdersBy Diagnostic.Precedes ∧
      SortsBy Fault.Precedes ∧ SortsBy Diagnostic.Precedes := by
  have hfault : OrdersBy Fault.Precedes := ordersBy_of_lt_iff fun _ _ => Fault.compare_eq_lt_iff
  have hdiagnostic : OrdersBy Diagnostic.Precedes :=
    ordersBy_of_lt_iff fun _ _ => Diagnostic.compare_eq_lt_iff
  exact ⟨hfault, hdiagnostic, hfault.sortsBy, hdiagnostic.sortsBy⟩

end SchemaDecl
