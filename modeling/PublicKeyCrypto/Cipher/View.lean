import PublicKeyCrypto.Cipher.Basic

/-!
# What an encoding sees of the cipher under it

## Main Definitions

* `CipherView` — the sizes and the operation of a cipher in its current state
-/

namespace PublicKeyCrypto

/-- The sizes and the operation of a cipher in its current state. -/
structure CipherView where
  /-- Greatest length of an input block. -/
  inputSize : Nat
  /-- Greatest length of an output block. -/
  outputSize : Nat
  /-- The transformed block. -/
  process : Bytes → Call Bytes

namespace CipherView

/-- The view of a cipher. -/
def ofCipher {E S P : Type} [AsymmetricCipher E S P] (e : E) : CipherView where
  inputSize := AsymmetricCipher.inputSize e
  outputSize := AsymmetricCipher.outputSize e
  process := AsymmetricCipher.process e

/-- Length of the blocks that an encoding fills when encrypting and reads when decrypting. -/
def blockSize (v : CipherView) : Direction → Nat
  | .encrypt => v.inputSize
  | .decrypt => v.outputSize

end CipherView

end PublicKeyCrypto
