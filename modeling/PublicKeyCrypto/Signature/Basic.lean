import PublicKeyCrypto.Bytes

/-!
# Signatures that are pairs of numbers

## Main Definitions

* `Signature` — a pair of numbers
* `Signature.inRange` — the range that both numbers are checked for
-/

namespace PublicKeyCrypto

/-- A pair of numbers. -/
structure Signature where
  r : Nat
  s : Nat
  deriving DecidableEq, Repr

/-- Whether both numbers are from `1` to the order less one. -/
def Signature.inRange (signature : Signature) (order : Nat) : Bool :=
  signature.r ≠ 0 && signature.r < order && signature.s ≠ 0 && signature.s < order

end PublicKeyCrypto
