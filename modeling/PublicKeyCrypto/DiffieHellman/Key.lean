import PublicKeyCrypto.KeyHalf
import PublicKeyCrypto.Number.Modular
import PublicKeyCrypto.Random.PrivateValue

/-!
# Diffie-Hellman keys

## Main Definitions

* `DiffieHellman.Group` — a modulus, a generator, and optionally its order
* `DiffieHellman.PrivateKey`, `DiffieHellman.PublicKey` — a secret exponent, and the power of the
  generator
* `DiffieHellman.Group.checkValue` — the range that every value of a peer is checked for
* `DiffieHellman.Group.generate` — a random private key
-/

namespace PublicKeyCrypto.DiffieHellman

/-- A modulus, a generator, optionally the order of the generator, and the length of private
exponents in bits, where zero leaves the length open. That the modulus is prime is not checked. -/
structure Group where
  p : Nat
  g : Nat
  order : Option Nat
  privateLength : Nat
  /-- The modulus has at least three bits. -/
  p_size : 3 ≤ bitLength p
  /-- The modulus is odd. -/
  p_odd : p % 2 = 1
  /-- The generator is none of `0`, `1` and `-1`. -/
  g_range : 2 ≤ g ∧ g ≤ p - 2
  /-- A known order leaves room for private exponents from `2` to the order less two. -/
  order_range : ∀ q ∈ order, 5 ≤ q ∧ q < p
  /-- Private exponents are shorter than the modulus. -/
  length_range : privateLength = 0 ∨ privateLength < bitLength p
  deriving DecidableEq, Repr

namespace Group

/-- The group with the given components, in the ranges of the type. -/
def make (p g : Nat) (order : Option Nat) (privateLength : Nat) : Except Error Group :=
  if hp : 3 ≤ bitLength p ∧ p % 2 = 1 then
    if hg : 2 ≤ g ∧ g ≤ p - 2 then
      if hq : ∀ q ∈ order, 5 ≤ q ∧ q < p then
        if hl : privateLength = 0 ∨ privateLength < bitLength p then
          .ok { p, g, order, privateLength,
                p_size := hp.1, p_odd := hp.2, g_range := hg, order_range := hq,
                length_range := hl }
        else .error (.invalidArgument (.privateLengthTooLarge .diffieHellman))
      else .error (.invalidArgument .subgroupOrderRange)
    else .error (.invalidArgument (.generatorRange .diffieHellman))
  else .error (.invalidArgument (.modulusNotOdd .diffieHellman))

/-- Refuses the values `0`, `1` and `-1`, which lie in a subgroup of at most two elements. -/
def checkValue (group : Group) (y : Nat) : Except Error Unit :=
  if y ≤ 1 ∨ group.p - 1 ≤ y then .error (.invalidKey (.publicValueRange .diffieHellman))
  else .ok ()

end Group

/-- A private key: a secret exponent. -/
structure PrivateKey where
  x : Nat
  group : Group

/-- A public key: a power of the generator. -/
structure PublicKey where
  y : Nat
  group : Group

/-- A private or a public key. -/
abbrev Key := KeyHalf PrivateKey PublicKey

namespace PrivateKey

/-- The key with an exponent from `1` to `p - 2`. -/
def make (x : Nat) (group : Group) : Except Error PrivateKey :=
  if x = 0 ∨ group.p - 2 < x then .error (.invalidKey (.privateValueRange .diffieHellman))
  else .ok { x, group }

/-- The public key of the same pair. -/
def publicKey (k : PrivateKey) : PublicKey :=
  { y := powMod k.group.g k.x k.group.p, group := k.group }

end PrivateKey

/-- The key with a value that is none of `0`, `1` and `-1`, and in the subgroup if its order is
known. -/
def PublicKey.make (y : Nat) (group : Group) : Except Error PublicKey := do
  group.checkValue y
  match group.order with
  | some q =>
    if powMod y q group.p ≠ 1 then .error (.invalidKey .publicValueOutsideSubgroup)
    else return { y, group }
  | none => return { y, group }

/-- A random private key. -/
def Group.generate (group : Group) : Draw PrivateKey := do
  let x ← Draw.privateValue group.p group.order group.privateLength
  return { x, group }

end PublicKeyCrypto.DiffieHellman
