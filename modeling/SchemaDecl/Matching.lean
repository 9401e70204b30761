/-!
# Matching two lists

Two lists match under a comparison if they have the same length and the items at equal places
pass the comparison. The lengths are compared first; the pairs are then compared in order, up to
the first that does not pass.

## Implementation notes

The comparison runs in any monad, so that whoever supplies it can tell which pairs it has seen.
-/

namespace SchemaDecl

/-- Why two lists do not match. -/
inductive Mismatch (ε : Type) where
  | lengths (expected actual : Nat)
  | pair (reason : ε)
deriving DecidableEq, Repr

namespace Matching

variable {m : Type → Type} [Monad m] {ε α β : Type}

/-- Compares pairs in order, up to the first that does not pass. -/
def comparePairs (compare : α → β → m (Except ε Unit)) : List (α × β) → m (Except ε Unit)
  | [] => return .ok ()
  | (a, b) :: rest => do
      match ← compare a b with
      | .ok () => comparePairs compare rest
      | .error reason => return .error reason

/-- Compares two lists. -/
def compareLists (compare : α → β → m (Except ε Unit)) (expected : List α) (actual : List β) :
    m (Except (Mismatch ε) Unit) := do
  if expected.length = actual.length then
    return (← comparePairs compare (expected.zip actual)).mapError .pair
  else
    return .error (.lengths expected.length actual.length)

variable {compare : α → β → m (Except ε Unit)} {expected : List α} {actual : List β}

theorem compareLists_of_length_ne (h : expected.length ≠ actual.length) :
    compareLists compare expected actual =
      pure (.error (.lengths expected.length actual.length)) :=
  if_neg h

variable [LawfulMonad m]

theorem compareLists_of_length_eq (h : expected.length = actual.length) :
    compareLists compare expected actual =
      Except.mapError .pair <$> comparePairs compare (expected.zip actual) := by
  rw [compareLists, if_pos h, bind_pure_comp]

end Matching

end SchemaDecl
