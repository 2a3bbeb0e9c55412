import PublicKeyCrypto.Number.Primality
import PublicKeyCrypto.Rsa.Key

/-!
# RSA key pairs

Two random primes are drawn, each one more than a number that the public exponent does not
divide. Pairs that are too close to each other, that miss the wanted size, or that do not go with
the public exponent are drawn again.

## Main Definitions

* `Rsa.KeyGenerator` — size and public exponent of the keys to generate
* `Rsa.KeyGenerator.generate` — a random private key
-/

namespace PublicKeyCrypto.Rsa

/-- Size and public exponent of the keys to generate. -/
structure KeyGenerator where
  /-- Length of the modulus, in bits. -/
  strength : Nat
  publicExponent : Nat

namespace KeyGenerator

/-- The number of strong tests that a prime has to pass. -/
def certainty : Nat := 40

/-- The usual public exponent. -/
def defaultExponent : Nat := 65537

/-- The generator for moduli of at least 256 bits and an odd exponent above one. -/
def make (strength publicExponent : Nat) : Except Error KeyGenerator :=
  if strength < 256 then .error (.invalidArgument .rsaSizeTooSmall)
  else if publicExponent % 2 = 0 ∨ bitLength publicExponent < 2 then
    .error (.invalidArgument .rsaExponentNotOdd)
  else .ok { strength, publicExponent }

/-- A prime whose predecessor is no multiple of `e`. -/
def factor (bits e : Nat) : Draw Nat :=
  Draw.firstAccepted (Draw.prime bits certainty) fun p =>
    if (p - 1) % e ≠ 0 then some p else none

/-- The private key with two given factors, unless they are unsuitable. The larger factor becomes
the first. -/
def assemble (g : KeyGenerator) (a b : Nat) : Option PrivateKey := do
  let p := max a b
  let q := min a b
  guard (g.strength / 2 - 100 ≤ bitLength (p - q))
  guard (bitLength (p * q) = g.strength)
  let d ← invMod g.publicExponent ((p - 1) * (q - 1))
  let qinv ← invMod q p
  guard (1 < d)
  return { modulus := p * q, publicExponent := g.publicExponent, privateExponent := d,
           p, q, dp := d % (p - 1), dq := d % (q - 1), qinv }

/-- A random private key. -/
def generate (g : KeyGenerator) : Draw PrivateKey :=
  let pBits := (g.strength + 1) / 2
  Draw.firstAccepted (do
    let a ← factor pBits g.publicExponent
    let b ← factor (g.strength - pBits) g.publicExponent
    return (a, b)) fun (a, b) => g.assemble a b

end KeyGenerator

end PublicKeyCrypto.Rsa
