import PublicKeyCrypto.KeyHalf
import PublicKeyCrypto.Number.Modular
import PublicKeyCrypto.Random.PrivateValue

/-!
# DSA keys

## Main Definitions

* `Dsa.Group` — a modulus, a subgroup order, and a generator of the subgroup
* `Dsa.PrivateKey`, `Dsa.PublicKey` — a secret exponent, and the power of the generator
* `Dsa.Group.generate` — a random private key
-/

namespace PublicKeyCrypto.Dsa

/-- A group in the sense of FIPS 186. That `p` and `q` are prime is not checked. -/
structure Group where
  p : Nat
  q : Nat
  g : Nat
  /-- The order has at least two bits. -/
  q_size : 2 ≤ bitLength q
  q_lt : q < p
  /-- The order divides `p - 1`. -/
  q_dvd : (p - 1) % q = 0
  g_range : 1 < g ∧ g < p
  /-- The order is a multiple of the order of the generator. -/
  g_order : powMod g q p = 1

namespace Group

/-- The group with the given components, in the ranges of the type. -/
def make (p q g : Nat) : Except Error Group :=
  if hs : 2 ≤ bitLength q ∧ q < p then
    if hd : (p - 1) % q = 0 then
      if hg : (1 < g ∧ g < p) ∧ powMod g q p = 1 then
        .ok { p, q, g,
              q_size := hs.1, q_lt := hs.2, q_dvd := hd, g_range := hg.1, g_order := hg.2 }
      else .error (.invalidArgument .dsaGeneratorOrder)
    else .error (.invalidArgument .dsaOrderNotDivisor)
  else .error (.invalidArgument .dsaGroupSizes)

end Group

/-- A private key: a secret exponent. -/
structure PrivateKey where
  x : Nat
  group : Group

/-- A public key: a power of the generator. -/
structure PublicKey where
  y : Nat
  group : Group

/-- A private or a public key. -/
abbrev Key := KeyHalf PrivateKey PublicKey

namespace PrivateKey

/-- The key with an exponent from `1` to `q - 1`. -/
def make (x : Nat) (group : Group) : Except Error PrivateKey :=
  if x = 0 ∨ group.q ≤ x then .error (.invalidKey (.privateValueRange .dsa))
  else .ok { x, group }

/-- The public key of the same pair. -/
def publicKey (k : PrivateKey) : PublicKey :=
  { y := powMod k.group.g k.x k.group.p, group := k.group }

end PrivateKey

/-- The key with a value from `2` to `p - 2` in the subgroup. -/
def PublicKey.make (y : Nat) (group : Group) : Except Error PublicKey :=
  if y < 2 ∨ group.p - 2 < y ∨ powMod y group.q group.p ≠ 1 then
    .error (.invalidKey (.publicValueRange .dsa))
  else .ok { y, group }

/-- A random private key. -/
def Group.generate (group : Group) : Draw PrivateKey := do
  let x ← Draw.heavy (bitLength group.q) (Draw.positiveBelow group.q)
  return { x, group }

end PublicKeyCrypto.Dsa
