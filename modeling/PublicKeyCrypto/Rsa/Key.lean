import PublicKeyCrypto.KeyHalf
import PublicKeyCrypto.Number.Bits

/-!
# RSA keys

A private key carries the factors of the modulus and the exponents modulo each factor less one, so
that its operation can be done modulo the factors and put together again.

## Main Definitions

* `Rsa.PublicKey`, `Rsa.PublicKey.make` — public keys, and the check of their ranges
* `Rsa.PrivateKey`, `Rsa.PrivateKey.validate` — private keys, and the check of their components
-/

namespace PublicKeyCrypto.Rsa

/-- A public key. -/
structure PublicKey where
  modulus : Nat
  exponent : Nat
  deriving DecidableEq, Repr

/-- A private key: `dp` and `dq` are the private exponent modulo `p - 1` and `q - 1`, and `qinv`
is the inverse of `q` modulo `p`. -/
structure PrivateKey where
  modulus : Nat
  publicExponent : Nat
  privateExponent : Nat
  p : Nat
  q : Nat
  dp : Nat
  dq : Nat
  qinv : Nat
  deriving DecidableEq, Repr

/-- A private or a public key. -/
abbrev Key := KeyHalf PrivateKey PublicKey

namespace PublicKey

/-- The key with the given components: the modulus is odd and has at least 16 bits, and the
exponent is odd, above one and below the modulus. -/
def make (modulus exponent : Nat) : Except Error PublicKey :=
  if modulus % 2 = 0 ∨ bitLength modulus < 16 then .error (.invalidKey .rsaModulusNotOdd)
  else if exponent % 2 = 0 ∨ exponent = 1 ∨ modulus ≤ exponent then
    .error (.invalidKey .rsaExponentRange)
  else .ok { modulus, exponent }

end PublicKey

namespace PrivateKey

/-- The key itself, if the factors give the modulus and the components modulo the factors are in
range. The exponents are not computed anew. -/
def validate (k : PrivateKey) : Except Error PrivateKey :=
  if k.p * k.q ≠ k.modulus then .error (.invalidKey .rsaFactors)
  else if k.p ≤ k.dp ∨ k.q ≤ k.dq ∨ k.p ≤ k.qinv then .error (.invalidKey .rsaCrtRange)
  else .ok k

/-- The public key of the same pair. -/
def publicKey (k : PrivateKey) : PublicKey :=
  { modulus := k.modulus, exponent := k.publicExponent }

end PrivateKey

/-- The modulus of a key. -/
def Key.modulus : Key → Nat
  | .ofPrivate k => k.modulus
  | .ofPublic k => k.modulus

end PublicKeyCrypto.Rsa
