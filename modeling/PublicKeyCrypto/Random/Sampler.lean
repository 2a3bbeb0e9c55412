import PublicKeyCrypto.Number.Bits
import PublicKeyCrypto.Random.Draw

/-!
# Uniform numbers

A number below a bound is found by rejection: a candidate of the bound's bit length is drawn, and
drawn again while it is out of range. Every candidate takes whole bytes from the tape; surplus
bits of its first byte are cleared.

## Main Definitions

* `Draw.number` — a number of a given bit length
* `Draw.below`, `Draw.positiveBelow`, `Draw.inRange` — numbers of a range
-/

namespace PublicKeyCrypto

/-- The string with the surplus bits of its first byte cleared: with `surplus` below eight, the
value modulo `2 ^ (8 * length - surplus)`. -/
def Bytes.clearTop (surplus : Nat) : Bytes → Bytes
  | [] => []
  | first :: rest => (first &&& (0xFF >>> surplus.toUInt8)) :: rest

namespace Draw

/-- A number below `2 ^ bits`, from the next `⌈bits / 8⌉` bytes. -/
def number (bits : Nat) : Draw Nat := do
  let len := (bits + 7) / 8
  let drawn ← bytes len
  return (drawn.clearTop (8 * len - bits)).value

/-- A number below `bound`, which must not be zero. -/
def below (bound : Nat) : Draw Nat :=
  if bound = 0 then fail .emptyRange
  else firstAccepted (number (bitLength bound)) fun k => if k < bound then some k else none

/-- A number from `1` to `bound - 1`; the bound must be at least two. -/
def positiveBelow (bound : Nat) : Draw Nat :=
  if bound ≤ 1 then fail .emptyRange
  else firstAccepted (number (bitLength bound)) fun k =>
    if k ≠ 0 ∧ k < bound then some k else none

/-- A number from `least` to `greatest`, both included. -/
def inRange (least greatest : Nat) : Draw Nat :=
  if greatest < least then fail .emptyRange
  else do return least + (← below (greatest - least + 1))

end Draw

end PublicKeyCrypto
