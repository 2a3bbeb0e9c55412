import PublicKeyCrypto.Direction
import PublicKeyCrypto.KeyHalf
import PublicKeyCrypto.Random.Draw

/-!
# Asymmetric ciphers

An asymmetric cipher transforms one block of bytes with a key. RSA and ElGamal are such ciphers,
and so is a stack of encodings over one of them.

## Main Definitions

* `AsymmetricCipher` — the interface of an asymmetric cipher
-/

namespace PublicKeyCrypto

/-- An asymmetric cipher with states of type `E`, private keys of type `S` and public keys of
type `P`. -/
class AsymmetricCipher (E : Type) (S P : outParam Type) where
  /-- Name of the algorithm. -/
  name : E → String
  /-- Sets the direction and the key. -/
  init : E → Direction → KeyHalf S P → Reply E Unit
  /-- Greatest length of an input block, in bytes. -/
  inputSize : E → Nat
  /-- Greatest length of an output block, in bytes. -/
  outputSize : E → Nat
  /-- Length of the modulus, in bits. -/
  keySize : E → Nat
  /-- The transformed block; blinding and random encryption draw from the tape. -/
  process : E → (input : Bytes) → Call Bytes

end PublicKeyCrypto
