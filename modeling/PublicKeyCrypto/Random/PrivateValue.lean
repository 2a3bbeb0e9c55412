import PublicKeyCrypto.Fault
import PublicKeyCrypto.Random.Sampler

/-!
# Private exponents

Private exponents of low weight in non-adjacent form are drawn again, since discrete logarithms
of low weight are easier to find.

## Main Definitions

* `Draw.heavy` — a number drawn until its weight is a quarter of a given length
* `Draw.privateValue` — a private exponent of a group
-/

namespace PublicKeyCrypto.Draw

/-- The first candidate whose weight is at least a quarter of `bits`. -/
def heavy (bits : Nat) (candidate : Draw Nat) : Draw Nat :=
  firstAccepted candidate fun x => if bits / 4 ≤ nafWeight x then some x else none

/-- A private exponent for a modulus `p`: of exactly `length` bits if the length is not zero,
otherwise from `2` to the order of the generator less two, or to `p - 2` if the order is not
known. -/
def privateValue (p : Nat) (order : Option Nat) (length : Nat) : Draw Nat :=
  if length ≠ 0 then
    heavy length do return (← number length) ||| 1 <<< (length - 1)
  else do
    let greatest ← checked (difference (order.getD p) 2)
    heavy (bitLength greatest) (inRange 2 greatest)

end PublicKeyCrypto.Draw
