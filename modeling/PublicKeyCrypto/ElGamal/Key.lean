import PublicKeyCrypto.KeyHalf
import PublicKeyCrypto.Number.Modular
import PublicKeyCrypto.Random.PrivateValue

/-!
# ElGamal keys

## Main Definitions

* `ElGamal.Group` — a modulus and a generator
* `ElGamal.PrivateKey`, `ElGamal.PublicKey` — a secret exponent, and the power of the generator
* `ElGamal.Group.generate` — a random private key
-/

namespace PublicKeyCrypto.ElGamal

/-- A modulus, a generator, and the length of private exponents in bits, where zero leaves the
length open. That the modulus is prime is not checked. -/
structure Group where
  p : Nat
  g : Nat
  privateLength : Nat
  /-- The modulus has at least 16 bits. -/
  p_size : 16 ≤ bitLength p
  /-- The modulus is odd. -/
  p_odd : p % 2 = 1
  /-- The generator is none of `0`, `1` and `-1`. -/
  g_range : 2 ≤ g ∧ g ≤ p - 2
  /-- Private exponents are shorter than the modulus. -/
  length_range : privateLength = 0 ∨ privateLength < bitLength p

namespace Group

/-- The group with the given components, in the ranges of the type. -/
def make (p g privateLength : Nat) : Except Error Group :=
  if hp : 16 ≤ bitLength p ∧ p % 2 = 1 then
    if hg : 2 ≤ g ∧ g ≤ p - 2 then
      if hl : privateLength = 0 ∨ privateLength < bitLength p then
        .ok { p, g, privateLength,
              p_size := hp.1, p_odd := hp.2, g_range := hg, length_range := hl }
      else .error (.invalidArgument (.privateLengthTooLarge .elGamal))
    else .error (.invalidArgument (.generatorRange .elGamal))
  else .error (.invalidArgument (.modulusNotOdd .elGamal))

end Group

/-- A private key: a secret exponent. -/
structure PrivateKey where
  x : Nat
  group : Group

/-- A public key: a power of the generator. -/
structure PublicKey where
  y : Nat
  group : Group

/-- A private or a public key. -/
abbrev Key := KeyHalf PrivateKey PublicKey

namespace PrivateKey

/-- The key with an exponent from `1` to `p - 2`. -/
def make (x : Nat) (group : Group) : Except Error PrivateKey :=
  if x = 0 ∨ group.p - 2 < x then .error (.invalidKey (.privateValueRange .elGamal))
  else .ok { x, group }

/-- The public key of the same pair. -/
def publicKey (k : PrivateKey) : PublicKey :=
  { y := powMod k.group.g k.x k.group.p, group := k.group }

end PrivateKey

/-- The key with a value from `2` to `p - 2`. -/
def PublicKey.make (y : Nat) (group : Group) :
    Except Error PublicKey :=
  if y < 2 ∨ group.p - 2 < y then .error (.invalidKey (.publicValueRange .elGamal))
  else .ok { y, group }

/-- A random private key. -/
def Group.generate (group : Group) : Draw PrivateKey := do
  let x ← Draw.privateValue group.p none group.privateLength
  return { x, group }

end PublicKeyCrypto.ElGamal
