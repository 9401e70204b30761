/-!
# Equal and ordered items

Views of a list of items that can be compared: its first repeat, where each item first occurs, how
many different items there are, and the items in order. The first repeat is the earliest item that
equals an item before it; there is none exactly if no item occurs twice. Sorting is stable, so that
items of the same rank keep their places relative to each other.
-/

namespace SchemaDecl

section Repeats

variable {α : Type} [DecidableEq α]

/-- The earliest item that is among the items seen or equals an item before it. -/
def firstRepeatAfter? (seen : List α) : List α → Option α
  | [] => none
  | a :: rest => if a ∈ seen then some a else firstRepeatAfter? (a :: seen) rest

/-- The earliest item that equals an item before it. -/
def firstRepeat? (items : List α) : Option α := firstRepeatAfter? [] items

theorem firstRepeatAfter?_eq_none_iff {seen items : List α} :
    firstRepeatAfter? seen items = none ↔ items.Nodup ∧ ∀ a ∈ items, a ∉ seen := by
  induction items generalizing seen with
  | nil => simp [firstRepeatAfter?]
  | cons a rest ih =>
      by_cases h : a ∈ seen
      · simp [firstRepeatAfter?, h]
      · simp only [firstRepeatAfter?, if_neg h, ih, List.nodup_cons, List.mem_cons,
          forall_eq_or_imp, not_or]
        grind

theorem firstRepeat?_eq_none_iff {items : List α} : firstRepeat? items = none ↔ items.Nodup := by
  simp [firstRepeat?, firstRepeatAfter?_eq_none_iff]

/-- There is a repeat exactly if the items are not all different. -/
theorem exists_firstRepeat?_iff {items : List α} :
    (∃ a, firstRepeat? items = some a) ↔ ¬ items.Nodup := by
  rw [← firstRepeat?_eq_none_iff, ← Option.isSome_iff_exists, Option.isSome_iff_ne_none]

end Repeats

namespace Collation

variable {α : Type}

/-- For each item the place of the first item equal to it. -/
def firstPlaces [DecidableEq α] (items : List α) : List Nat :=
  items.map fun a => items.idxOf a

/-- How many different items there are. -/
def distinctCount [DecidableEq α] (items : List α) : Nat := items.eraseDups.length

theorem distinctCount_eq_length [DecidableEq α] {items : List α} (h : items.Nodup) :
    distinctCount items = items.length := by
  induction items with
  | nil => rfl
  | cons a rest ih =>
      obtain ⟨ha, hrest⟩ := List.nodup_cons.mp h
      have hfilter : rest.filter (fun b => !b == a) = rest := by
        rw [List.filter_eq_self]
        intro b hb
        simpa using ne_of_mem_of_not_mem hb ha
      rw [distinctCount, List.eraseDups_cons, hfilter, List.length_cons, List.length_cons]
      exact congrArg (· + 1) (ih hrest)

/-- The items in order. -/
def sorted [Ord α] (items : List α) : List α :=
  items.mergeSort fun a b => (compare a b).isLE

/-- The places of the items, in the order of the items at them. -/
def sortedPlaces [Ord α] (items : List α) : List Nat :=
  (items.zipIdx.mergeSort fun a b => (compare a.1 b.1).isLE).map (·.2)

end Collation

end SchemaDecl
