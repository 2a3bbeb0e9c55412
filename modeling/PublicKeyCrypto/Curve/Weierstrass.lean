import PublicKeyCrypto.Curve.Basic
import PublicKeyCrypto.Number.Modular

/-!
# Short Weierstrass curves

The points of `y² = x³ + a x + b` over a prime field, with the point at infinity as neutral
element. Sums are computed by the chord and the tangent, multiples by doubling.

A point is encoded in the forms of SEC 1: a byte 4 and both coordinates, or a byte 2 or 3, by the
parity of the second coordinate, and the first coordinate, or a single zero byte for the point at
infinity.

## Main Definitions

* `WeierstrassCurve`, `WeierstrassCurve.Point` — curves and their points
* `Point.add`, `Point.mul` — the group operations
* `Point.encode`, `Point.decode` — the encodings
-/

namespace PublicKeyCrypto

/-- A curve with a generator. The field prime is three modulo four, so that a square root is a
power. -/
structure WeierstrassCurve where
  name : String
  /-- The field prime. -/
  p : Nat
  /-- Coefficient of `x`. -/
  a : Nat
  /-- Constant coefficient. -/
  b : Nat
  /-- Order of the generator. -/
  order : Nat
  /-- First coordinate of the generator. -/
  gx : Nat
  /-- Second coordinate of the generator. -/
  gy : Nat
  /-- Length of a coordinate, in bytes. -/
  coordinateSize : Nat

namespace WeierstrassCurve

/-- A point: at infinity, or with two coordinates. -/
inductive Point (c : WeierstrassCurve)
  | infinity
  | affine (x y : Nat)
  deriving DecidableEq, Repr

variable {c : WeierstrassCurve}

/-- The difference modulo the field prime of two numbers below it. -/
def sub (c : WeierstrassCurve) (a b : Nat) : Nat := (a + (c.p - b)) % c.p

/-- The quotient modulo the field prime; zero if there is none. -/
def div (c : WeierstrassCurve) (a b : Nat) : Nat := a * (invMod b c.p).getD 0 % c.p

/-- The right hand side of the curve equation. -/
def cubic (c : WeierstrassCurve) (x : Nat) : Nat := (x * x % c.p * x + c.a * x + c.b) % c.p

/-- Whether the coordinates are below the field prime and satisfy the curve equation. -/
def contains (c : WeierstrassCurve) (x y : Nat) : Bool :=
  x < c.p && y < c.p && y * y % c.p = c.cubic x

namespace Point

/-- The third point on the line of a slope through a point with coordinates `x₁` and `y₁` and a
point with first coordinate `x₂`, reflected in the axis. -/
def chord (c : WeierstrassCurve) (slope x₁ y₁ x₂ : Nat) : Point c :=
  let x₃ := c.sub (c.sub (slope * slope % c.p) x₁) x₂
  affine x₃ (c.sub (slope * c.sub x₁ x₃ % c.p) y₁)

/-- The sum of two points. -/
def add : Point c → Point c → Point c
  | infinity, q => q
  | p, infinity => p
  | affine x₁ y₁, affine x₂ y₂ =>
    if x₁ = x₂ then
      if (y₁ + y₂) % c.p = 0 then infinity
      else chord c (c.div (3 * x₁ * x₁ + c.a) (2 * y₁)) x₁ y₁ x₂
    else chord c (c.div (c.sub y₂ y₁) (c.sub x₂ x₁)) x₁ y₁ x₂

/-- A multiple of a point, by doubling. -/
def times (p : Point c) (k : Nat) : Point c :=
  if k = 0 then infinity
  else
    let half := times p (k / 2)
    let even := half.add half
    if k % 2 = 1 then even.add p else even
termination_by k

/-- A multiple of a point; multipliers count modulo the order. -/
def mul (p : Point c) (k : Nat) : Point c := p.times (k % c.order)

/-- The generator. -/
def generator (c : WeierstrassCurve) : Point c := affine c.gx c.gy

/-- The first coordinate; zero for the point at infinity. -/
def x : Point c → Nat
  | infinity => 0
  | affine x _ => x

/-- The uncompressed encoding; the point at infinity is written as zeros of the same length. -/
def encode : Point c → Bytes
  | infinity => Bytes.zeros (1 + 2 * c.coordinateSize)
  | affine x y => 0x04 :: (Bytes.wide c.coordinateSize x ++ Bytes.wide c.coordinateSize y)

/-- The point with the given coordinates, if it is on the curve. -/
def ofCoordinates (c : WeierstrassCurve) (x y : Nat) : Option (Point c) :=
  if c.contains x y then some (affine x y) else none

/-- The point with the given first coordinate whose second coordinate has the given parity. -/
def decompress (c : WeierstrassCurve) (x parity : Nat) : Option (Point c) :=
  let root := powMod (c.cubic x) ((c.p + 1) / 4) c.p
  ofCoordinates c x (if root % 2 = parity then root else c.p - root)

/-- The point with the given encoding. -/
def decode (c : WeierstrassCurve) : Bytes → Option (Point c)
  | [] => none
  | form :: rest =>
    let n := c.coordinateSize
    if form = 0x00 && rest.length = 0 then some infinity
    else if form = 0x04 && rest.length = 2 * n then
      ofCoordinates c (Bytes.value (rest.take n)) (Bytes.value (rest.drop n))
    else if form = 0x02 && rest.length = n then decompress c (Bytes.value rest) 0
    else if form = 0x03 && rest.length = n then decompress c (Bytes.value rest) 1
    else none

/-- Whether the point is the point at infinity. -/
def isInfinity : Point c → Bool
  | infinity => true
  | affine _ _ => false

end Point

instance (c : WeierstrassCurve) : Curve (Point c) where
  name := c.name
  order := c.order
  fieldSize := c.coordinateSize
  mulGenerator k := (Point.generator c).mul k
  mul := Point.mul
  add := Point.add
  mulAddGenerator p u v := (p.mul u).add ((Point.generator c).mul v)
  isNeutral := Point.isInfinity
  equals p q := p = q
  xCoordinate := Point.x
  encode := Point.encode
  decode := Point.decode c

end WeierstrassCurve

end PublicKeyCrypto
