import PublicKeyCrypto.Curve.Basic
import PublicKeyCrypto.KeyHalf
import PublicKeyCrypto.Random.PrivateValue

/-!
# Curve keys

## Main Definitions

* `Curve.PrivateKey`, `Curve.PublicKey` — a secret multiplier, and the multiple of the generator
* `Curve.PrivateKey.generate` — a random private key
-/

namespace PublicKeyCrypto.Curve

/-- A private key over the curve with points of type `P`: a secret multiplier. -/
structure PrivateKey (P : Type) where
  scalar : Nat

/-- A public key: a point. -/
structure PublicKey (P : Type) where
  point : P

/-- A private or a public key. -/
abbrev Key (P : Type) := KeyHalf (PrivateKey P) (PublicKey P)

variable {P : Type} [Curve P]

namespace PrivateKey

/-- The key with a multiplier from `1` to the order less one. -/
def make (scalar : Nat) : Except Error (PrivateKey P) :=
  if scalar = 0 ∨ order P ≤ scalar then .error (.invalidKey .scalarRange)
  else .ok { scalar }

/-- The public key of the same pair. -/
def publicKey (k : PrivateKey P) : PublicKey P := { point := mulGenerator k.scalar }

/-- A random private key. -/
def generate : Draw (PrivateKey P) := do
  let n := order P
  return { scalar := ← Draw.heavy (bitLength n) (Draw.positiveBelow n) }

end PrivateKey

namespace PublicKey

/-- The key with a point other than the point at infinity. -/
def make (point : P) : Except Error (PublicKey P) :=
  if isNeutral point then .error (.invalidKey .pointAtInfinity) else .ok { point }

/-- The key with the given encoding. -/
def decode (encoding : Bytes) : Except Error (PublicKey P) :=
  match Curve.decode encoding with
  | none => .error (.invalidKey .pointEncoding)
  | some point => make point

/-- The uncompressed encoding of the key. -/
def encode (k : PublicKey P) : Bytes := Curve.encode k.point

end PublicKey

end PublicKeyCrypto.Curve
