import Mathlib.Data.List.Forall2
import SchemaDecl.Matching

/-!
# How far two lists are compared

Two lists are compared by their lengths first, and then pair by pair. Whoever compares a pair may
keep a world of its own, which each comparison reads and changes; what it says of a pair then
depends on the pairs before. Said by places: the items at a place are compared in the world that
the places before it have left. If all items pass, all places are compared, in order and once each.
Otherwise just the places up to the first one whose items do not pass are compared, and this one
gives the reason. Lists of different lengths are told apart without comparing any items.

## Implementation notes

The comparison of lists runs in any monad. To see which pairs it hands over, it is run with a
comparison that notes its pairs, in the monad with the notes added. Without the notes this is the
run of the comparison itself.
-/

namespace SchemaDecl.Matching

variable {ε α β : Type}

section Noting

variable {m : Type → Type} [Monad m]

/-- Compares two items as given, and notes them behind the pairs that have been noted before. -/
def noting (compare : α → β → m (Except ε Unit)) (a : α) (b : β) :
    StateT (List (α × β)) m (Except ε Unit) := do
  modify (· ++ [(a, b)])
  compare a b

variable {compare : α → β → m (Except ε Unit)} {expected : List α} {actual : List β}

variable [LawfulMonad m]

/-- One pair is noted and compared. If it passes, the others follow. -/
theorem run_comparePairs_noting_cons (a : α) (b : β) (rest noted : List (α × β)) :
    (comparePairs (noting compare) ((a, b) :: rest)).run noted = (do
      match ← compare a b with
      | .ok () => (comparePairs (noting compare) rest).run (noted ++ [(a, b)])
      | .error reason => return (.error reason, noted ++ [(a, b)])) := by
  simp only [comparePairs, noting, StateT.run_bind, bind_assoc, StateT.run_modify, pure_bind,
    StateT.run_monadLift, monadLift_self]
  congr 1
  funext verdict
  cases verdict with
  | ok _ => rfl
  | error reason => rfl

/-- Without its notes, the noting comparison of pairs is the comparison itself. -/
theorem fst_run_comparePairs_noting (pairs noted : List (α × β)) :
    Prod.fst <$> (comparePairs (noting compare) pairs).run noted = comparePairs compare pairs := by
  induction pairs generalizing noted with
  | nil => simp [comparePairs]
  | cons pair rest ih =>
      obtain ⟨a, b⟩ := pair
      rw [run_comparePairs_noting_cons, comparePairs, map_bind]
      congr 1
      funext verdict
      cases verdict with
      | ok _ => exact ih _
      | error reason => simp

theorem fst_run_compareLists_noting (noted : List (α × β)) :
    Prod.fst <$> (compareLists (noting compare) expected actual).run noted =
      compareLists compare expected actual := by
  by_cases h : expected.length = actual.length
  · have hpairs : Prod.fst <$> (comparePairs (noting compare) (expected.zip actual)).run noted =
        comparePairs compare (expected.zip actual) :=
      fst_run_comparePairs_noting (expected.zip actual) noted
    rw [compareLists_of_length_eq h, compareLists_of_length_eq h, StateT.run_map, ← hpairs,
      Functor.map_map, Functor.map_map]
  · rw [compareLists_of_length_ne h, compareLists_of_length_ne h]
    simp

end Noting

/-- What comes of comparing two lists. -/
structure Course (ε α β σ : Type) where
  outcome : Except (Mismatch ε) Unit
  compared : List (α × β)
  world : σ

variable {σ : Type} (compare : α → β → StateM σ (Except ε Unit)) (expected : List α)
  (actual : List β) (w : σ)

/-- The world that the places before one leave, each compared in the world left before it. -/
def worldAt : Nat → σ
  | 0 => w
  | i + 1 =>
      match expected[i]?, actual[i]? with
      | some a, some b => ((compare a b).run (worldAt i)).2
      | _, _ => worldAt i

/-- What the comparison says of the items at a place when its turn has come, if there are two. -/
def verdictAt (i : Nat) : Option (Except ε Unit) :=
  match expected[i]?, actual[i]? with
  | some a, some b => some ((compare a b).run (worldAt compare expected actual w i)).1
  | _, _ => none

/-- The items at all places before the given one pass, each pair in its turn. -/
def PassBefore (place : Nat) : Prop :=
  ∀ i < place, verdictAt compare expected actual w i = some (.ok ())

instance [DecidableEq ε] (place : Nat) :
    Decidable (PassBefore compare expected actual w place) :=
  Nat.decidableBallLT place fun i _ => verdictAt compare expected actual w i = some (.ok ())

/-- The course of comparing two lists in the given world, seen by its notes. -/
def course : Course ε α β σ :=
  let ((outcome, compared), world) :=
    ((compareLists (noting compare) expected actual).run []).run w
  ⟨outcome, compared, world⟩

/-- The course from a place on, with the pairs before it noted and their world left. -/
def courseFrom (place : Nat) : Course ε α β σ :=
  let ((verdict, compared), world) :=
    ((comparePairs (noting compare) ((expected.zip actual).drop place)).run
      ((expected.zip actual).take place)).run (worldAt compare expected actual w place)
  ⟨verdict.mapError .pair, compared, world⟩

variable {compare expected actual w} {i : Nat} {a : α} {b : β} {reason : ε}

theorem drop_zip (ha : expected[i]? = some a) (hb : actual[i]? = some b) :
    (expected.zip actual).drop i = (a, b) :: (expected.zip actual).drop (i + 1) := by
  have hpair : (expected.zip actual)[i]? = some (a, b) :=
    List.getElem?_zip_eq_some.mpr ⟨ha, hb⟩
  rw [List.drop_eq_getElem?_toList_append, hpair]
  rfl

theorem take_zip (ha : expected[i]? = some a) (hb : actual[i]? = some b) :
    (expected.zip actual).take (i + 1) = (expected.zip actual).take i ++ [(a, b)] := by
  have hpair : (expected.zip actual)[i]? = some (a, b) :=
    List.getElem?_zip_eq_some.mpr ⟨ha, hb⟩
  rw [List.take_add_one, hpair]
  rfl

theorem verdictAt_eq (ha : expected[i]? = some a) (hb : actual[i]? = some b) :
    verdictAt compare expected actual w i =
      some ((compare a b).run (worldAt compare expected actual w i)).1 := by
  rw [verdictAt, ha, hb]

theorem worldAt_succ (ha : expected[i]? = some a) (hb : actual[i]? = some b) :
    worldAt compare expected actual w (i + 1) =
      ((compare a b).run (worldAt compare expected actual w i)).2 := by
  rw [worldAt, ha, hb]

theorem exists_of_verdictAt {verdict : Except ε Unit}
    (h : verdictAt compare expected actual w i = some verdict) :
    ∃ a b, expected[i]? = some a ∧ actual[i]? = some b ∧
      ((compare a b).run (worldAt compare expected actual w i)).1 = verdict := by
  cases ha : expected[i]? with
  | none => simp [verdictAt, ha] at h
  | some a =>
      cases hb : actual[i]? with
      | none => simp [verdictAt, hb] at h
      | some b =>
          rw [verdictAt_eq ha hb] at h
          exact ⟨a, b, rfl, rfl, Option.some.inj h⟩

/-- Two lists of the same length have two items at each place, of which something is said. -/
theorem exists_verdictAt_eq (compare : α → β → StateM σ (Except ε Unit)) (w : σ)
    (h : expected.length = actual.length) (hi : i < expected.length) :
    ∃ verdict, verdictAt compare expected actual w i = some verdict :=
  ⟨_, verdictAt_eq (List.getElem?_eq_getElem hi) (List.getElem?_eq_getElem (h ▸ hi))⟩

/-- One step: the items at a place are noted and compared in the world they find. -/
theorem courseFrom_eq (ha : expected[i]? = some a) (hb : actual[i]? = some b) :
    courseFrom compare expected actual w i =
      match ((compare a b).run (worldAt compare expected actual w i)).1 with
      | .ok () => courseFrom compare expected actual w (i + 1)
      | .error reason => ⟨.error (.pair reason), (expected.zip actual).take (i + 1),
          worldAt compare expected actual w (i + 1)⟩ := by
  rw [courseFrom, courseFrom, drop_zip ha hb, run_comparePairs_noting_cons, take_zip ha hb,
    worldAt_succ ha hb, StateT.run_bind]
  rcases (compare a b).run (worldAt compare expected actual w i) with ⟨verdict, next⟩
  cases verdict with
  | ok _ => rfl
  | error reason => rfl

theorem courseFrom_of_passes (h : verdictAt compare expected actual w i = some (.ok ())) :
    courseFrom compare expected actual w i = courseFrom compare expected actual w (i + 1) := by
  obtain ⟨a, b, ha, hb, hverdict⟩ := exists_of_verdictAt h
  rw [courseFrom_eq ha hb, hverdict]

theorem courseFrom_of_fails (h : verdictAt compare expected actual w i = some (.error reason)) :
    courseFrom compare expected actual w i =
      ⟨.error (.pair reason), (expected.zip actual).take (i + 1),
        worldAt compare expected actual w (i + 1)⟩ := by
  obtain ⟨a, b, ha, hb, hverdict⟩ := exists_of_verdictAt h
  rw [courseFrom_eq ha hb, hverdict]

theorem passBefore_succ_iff {place : Nat} :
    PassBefore compare expected actual w (place + 1) ↔
      PassBefore compare expected actual w place ∧
        verdictAt compare expected actual w place = some (.ok ()) :=
  Nat.forall_lt_succ_right

/-- The run: as long as items pass, it goes on at the next place. -/
theorem courseFrom_of_passBefore {place : Nat}
    (h : PassBefore compare expected actual w place) :
    courseFrom compare expected actual w 0 = courseFrom compare expected actual w place := by
  induction place with
  | zero => rfl
  | succ place ih =>
      obtain ⟨hbefore, hpasses⟩ := passBefore_succ_iff.mp h
      rw [ih hbefore, courseFrom_of_passes hpasses]

theorem courseFrom_length (h : expected.length = actual.length) :
    courseFrom compare expected actual w expected.length =
      ⟨.ok (), expected.zip actual, worldAt compare expected actual w expected.length⟩ := by
  have hlength : (expected.zip actual).length = expected.length := by
    rw [List.length_zip, ← h, Nat.min_self]
  rw [courseFrom, ← hlength, List.drop_length, List.take_length]
  rfl

/-- The items at all places before the given one pass, or there is a first place whose items do
not. -/
theorem passBefore_or_exists_first (compare : α → β → StateM σ (Except ε Unit)) (w : σ)
    (h : expected.length = actual.length) {place : Nat} (hplace : place ≤ expected.length) :
    PassBefore compare expected actual w place ∨
      ∃ k < place, ∃ reason, PassBefore compare expected actual w k ∧
        verdictAt compare expected actual w k = some (.error reason) := by
  induction place with
  | zero => exact .inl fun i hi => absurd hi (Nat.not_lt_zero i)
  | succ place ih =>
      obtain hbefore | ⟨k, hk, hfirst⟩ := ih (Nat.le_of_succ_le hplace)
      · obtain ⟨verdict, hverdict⟩ := exists_verdictAt_eq compare w h hplace
        cases verdict with
        | ok _ => exact .inl (passBefore_succ_iff.mpr ⟨hbefore, hverdict⟩)
        | error reason =>
            exact .inr ⟨place, Nat.lt_succ_self place, reason, hbefore, hverdict⟩
      · exact .inr ⟨k, Nat.lt_succ_of_lt hk, hfirst⟩

/-- The notes change neither what comes out nor the world that is left. -/
theorem run_compareLists_eq :
    (compareLists compare expected actual).run w =
      ((course compare expected actual w).outcome, (course compare expected actual w).world) := by
  rw [← fst_run_compareLists_noting [], StateT.run_map]
  rfl

theorem course_of_length_ne (h : expected.length ≠ actual.length) :
    course compare expected actual w =
      ⟨.error (.lengths expected.length actual.length), [], w⟩ := by
  rw [course, compareLists_of_length_ne h]
  rfl

/-- Lists as long as each other are compared from the first place on. -/
theorem course_of_length_eq (h : expected.length = actual.length) :
    course compare expected actual w = courseFrom compare expected actual w 0 := by
  rw [course, compareLists_of_length_eq h, StateT.run_map, StateT.run_map]
  rfl

theorem course_of_passBefore (h : expected.length = actual.length)
    (hpass : PassBefore compare expected actual w expected.length) :
    course compare expected actual w =
      ⟨.ok (), expected.zip actual, worldAt compare expected actual w expected.length⟩ :=
  calc course compare expected actual w
    _ = courseFrom compare expected actual w 0 := course_of_length_eq h
    _ = courseFrom compare expected actual w expected.length := courseFrom_of_passBefore hpass
    _ = _ := courseFrom_length h

theorem course_of_first {k : Nat} (h : expected.length = actual.length)
    (hbefore : PassBefore compare expected actual w k)
    (hfail : verdictAt compare expected actual w k = some (.error reason)) :
    course compare expected actual w =
      ⟨.error (.pair reason), (expected.zip actual).take (k + 1),
        worldAt compare expected actual w (k + 1)⟩ :=
  calc course compare expected actual w
    _ = courseFrom compare expected actual w 0 := course_of_length_eq h
    _ = courseFrom compare expected actual w k := courseFrom_of_passBefore hbefore
    _ = _ := courseFrom_of_fails hfail

/-- Two lists match exactly if they have the same length and the items at all places pass. -/
theorem run_compareLists_fst_eq_ok_iff :
    ((compareLists compare expected actual).run w).1 = .ok () ↔
      expected.length = actual.length ∧
        PassBefore compare expected actual w expected.length := by
  rw [run_compareLists_eq]
  by_cases h : expected.length = actual.length
  · obtain hpass | ⟨k, hk, reason, hbefore, hfail⟩ :=
      passBefore_or_exists_first compare w h (Nat.le_refl _)
    · rw [course_of_passBefore h hpass]
      exact iff_of_true rfl ⟨h, hpass⟩
    · rw [course_of_first h hbefore hfail]
      refine iff_of_false (fun hok => nomatch hok) fun hpass => ?_
      cases hfail.symm.trans (hpass.2 k hk)
  · rw [course_of_length_ne h]
    exact iff_of_false (fun hok => nomatch hok) fun hpass => h hpass.1

/-- If what is said of two items does not depend on the world, then two lists match exactly if they
have the same length and pass item by item. -/
theorem run_compareLists_fst_eq_ok_iff_forall₂ {R : α → β → Prop}
    (h : ∀ a b w, ((compare a b).run w).1 = .ok () ↔ R a b) :
    ((compareLists compare expected actual).run w).1 = .ok () ↔
      List.Forall₂ R expected actual := by
  have hverdict {i : Nat} (hi : i < expected.length) (hi' : i < actual.length) :
      verdictAt compare expected actual w i = some (.ok ()) ↔ R expected[i] actual[i] := by
    rw [verdictAt_eq (List.getElem?_eq_getElem hi) (List.getElem?_eq_getElem hi'),
      Option.some.injEq, h]
  rw [run_compareLists_fst_eq_ok_iff, List.forall₂_iff_get]
  refine and_congr_right fun hlength => forall_congr' fun i => ?_
  constructor
  · intro hpass hi hi'
    exact (hverdict hi hi').mp (hpass hi)
  · intro hR hi
    exact (hverdict hi (hlength ▸ hi)).mpr (hR hi (hlength ▸ hi))

/-- Lists of items that are compared for equality match exactly if they are equal. -/
theorem run_compareLists_fst_eq_ok_iff_eq {compare : α → α → StateM σ (Except ε Unit)}
    {expected actual : List α} (h : ∀ a b w, ((compare a b).run w).1 = .ok () ↔ a = b) :
    ((compareLists compare expected actual).run w).1 = .ok () ↔ expected = actual := by
  rw [run_compareLists_fst_eq_ok_iff_forall₂ h, List.forall₂_eq_eq_eq]

/-- Two lists match exactly if they have the same length and the items at all places pass, each pair
compared in its turn. If the lengths differ, no items are compared and the world stays as it was. If
they are the same and all items pass, all pairs are compared, in order and once each. Otherwise the
pairs at the places up to the first one that does not pass are compared, in order and once each, and
the reason given at this place comes out. -/
theorem compareLists_course (compare : α → β → StateM σ (Except ε Unit)) (expected : List α)
    (actual : List β) (w : σ) :
    let run := (compareLists compare expected actual).run w
    let course := course compare expected actual w
    let passBefore := PassBefore compare expected actual w
    let world := worldAt compare expected actual w
    run = (course.outcome, course.world) ∧
    (run.1 = .ok () ↔ expected.length = actual.length ∧ passBefore expected.length) ∧
    (expected.length ≠ actual.length →
      course = ⟨.error (.lengths expected.length actual.length), [], w⟩) ∧
    (expected.length = actual.length → passBefore expected.length →
      course = ⟨.ok (), expected.zip actual, world expected.length⟩) ∧
    (expected.length = actual.length → ¬ passBefore expected.length →
      ∃ k < expected.length, ∃ reason, passBefore k ∧
        verdictAt compare expected actual w k = some (.error reason) ∧
          course =
            ⟨.error (.pair reason), (expected.zip actual).take (k + 1), world (k + 1)⟩) := by
  intro run course passBefore world
  refine ⟨run_compareLists_eq, run_compareLists_fst_eq_ok_iff, course_of_length_ne,
    course_of_passBefore, ?_⟩
  intro h hfail
  obtain ⟨k, hk, reason, hbefore, hverdict⟩ :=
    (passBefore_or_exists_first compare w h (Nat.le_refl _)).resolve_left hfail
  exact ⟨k, hk, reason, hbefore, hverdict, course_of_first h hbefore hverdict⟩

/-- Two numbers pass if an allowance covers their distance, which is then taken from it. If they do
not pass, the reason is what the allowance falls short by. -/
def spendDistance (a b : Nat) : StateM Nat (Except Nat Unit) := do
  let allowance ← get
  let distance := (a - b) + (b - a)
  if distance ≤ allowance then
    set (allowance - distance)
    return .ok ()
  else
    return .error (distance - allowance)

/-- The third pair passes or not, according to what the second one has left of the allowance. -/
theorem compareLists_course_spendDistance :
    course spendDistance [5, 7] [5] 3 = ⟨.error (.lengths 2 1), [], 3⟩ ∧
    PassBefore spendDistance [5, 7, 9] [5, 8, 7] 3 3 ∧
    course spendDistance [5, 7, 9] [5, 8, 7] 3 = ⟨.ok (), [(5, 5), (7, 8), (9, 7)], 0⟩ ∧
    ¬ PassBefore spendDistance [5, 7, 9, 4] [5, 8, 7, 4] 2 4 ∧
    ∃ k < 4, ∃ reason, PassBefore spendDistance [5, 7, 9, 4] [5, 8, 7, 4] 2 k ∧
      verdictAt spendDistance [5, 7, 9, 4] [5, 8, 7, 4] 2 k = some (.error reason) ∧
        course spendDistance [5, 7, 9, 4] [5, 8, 7, 4] 2 =
          ⟨.error (.pair reason), [(5, 5), (7, 8), (9, 7), (4, 4)].take (k + 1),
            worldAt spendDistance [5, 7, 9, 4] [5, 8, 7, 4] 2 (k + 1)⟩ := by
  have hpass : PassBefore spendDistance [5, 7, 9] [5, 8, 7] 3 3 := by decide
  have hfail : ¬ PassBefore spendDistance [5, 7, 9, 4] [5, 8, 7, 4] 2 4 := by decide
  exact ⟨(compareLists_course spendDistance [5, 7] [5] 3).2.2.1 (by decide), hpass,
    (compareLists_course spendDistance [5, 7, 9] [5, 8, 7] 3).2.2.2.1 rfl hpass, hfail,
    (compareLists_course spendDistance [5, 7, 9, 4] [5, 8, 7, 4] 2).2.2.2.2 rfl hfail⟩

end SchemaDecl.Matching
