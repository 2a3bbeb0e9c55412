import PublicKeyCrypto.Bytes

/-!
# Curves

The curve schemes are stated over an arbitrary group of points with a generator of prime order.

## Main Definitions

* `Curve` — the interface of a curve
-/

namespace PublicKeyCrypto

/-- A group of points of type `P`, with a generator. Multipliers of any size count modulo the
order. -/
class Curve (P : Type) where
  /-- Name of the curve. -/
  name : String
  /-- Order of the group. -/
  order : Nat
  /-- Length of a coordinate, in bytes. -/
  fieldSize : Nat
  /-- A multiple of the generator. -/
  mulGenerator : (k : Nat) → P
  /-- A multiple of a point. -/
  mul : P → (k : Nat) → P
  /-- The sum of two points. -/
  add : P → P → P
  /-- `u` times the point plus `v` times the generator. -/
  mulAddGenerator : P → (u v : Nat) → P
  /-- Whether the point is the point at infinity. -/
  isNeutral : P → Bool
  /-- Whether the points are equal. -/
  equals : P → P → Bool
  /-- The x coordinate; zero for the point at infinity. -/
  xCoordinate : P → Nat
  /-- The uncompressed encoding. -/
  encode : P → Bytes
  /-- The point with the given encoding, compressed or not. -/
  decode : Bytes → Option P

end PublicKeyCrypto
