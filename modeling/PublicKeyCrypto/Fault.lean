/-!
# Broken preconditions

A `Fault` is not an answer. It is what becomes of a computation whose precondition does not hold,
and it is kept apart from the errors that a caller can receive, so that it can be shown that no
call with sound arguments runs into one.

## Main Definitions

* `Fault` — the preconditions that can be broken
* `difference` — the difference of natural numbers, which must not be negative
* `wrappedDifference` — the difference of words of the machine, which wraps around
-/

namespace PublicKeyCrypto

/-- Preconditions that a computation can break. -/
inductive Fault
  /-- A number was to be drawn from an empty range. -/
  | emptyRange
  /-- A prime of fewer than three bits was asked for. -/
  | primeTooShort
  /-- A difference of natural numbers would be negative. -/
  | underflow
  /-- A position lies outside its byte string. -/
  | outOfBounds
  /-- A byte was to be shifted by eight places or more. -/
  | shiftTooFar
  deriving DecidableEq, Repr

/-- The difference of two numbers; it is a fault to take a number from a smaller one. -/
def difference (a b : Nat) : Except Fault Nat :=
  if b ≤ a then .ok (a - b) else .error .underflow

/-- A sequence that gave a value has come through its first part. -/
theorem exists_of_bind_eq_ok {α β : Type} {x : Except Fault α} {f : α → Except Fault β} {b : β}
    (h : x >>= f = .ok b) : ∃ a, x = .ok a ∧ f a = .ok b := by
  cases x with
  | error broken => cases h
  | ok a => exact ⟨a, rfl, h⟩

theorem difference_of_le {a b : Nat} (h : b ≤ a) : difference a b = .ok (a - b) := if_pos h

/-- A difference that is not negative is the number that was missing. -/
theorem difference_eq_ok {a b c : Nat} (h : difference a b = .ok c) : b + c = a := by
  unfold difference at h
  split at h
  · cases h
    omega
  · cases h

/-- The difference of two sizes that are words of the machine. It wraps around below zero, which is
no fault until the result is used as a position. -/
def wrappedDifference (a b : Nat) : Nat :=
  if b ≤ a then a - b else (BitVec.ofNat 64 a - BitVec.ofNat 64 b).toNat

theorem wrappedDifference_of_le {a b : Nat} (h : b ≤ a) : wrappedDifference a b = a - b := if_pos h

end PublicKeyCrypto
