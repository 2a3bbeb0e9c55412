import PublicKeyCrypto.Bytes
import PublicKeyCrypto.Direction
import PublicKeyCrypto.Error

/-!
# Block ciphers

A block cipher has a key and a direction, and transforms blocks of one size. The modes of the
library are stated over an arbitrary block cipher.

## Main Definitions

* `BlockCipher` — the interface of a block cipher
-/

namespace PublicKeyCrypto

/-- A block cipher with states of type `C`. -/
class BlockCipher (C : Type) where
  /-- Name of the algorithm. -/
  name : String
  /-- Length of a block, in bytes. -/
  blockSize : Nat
  /-- Sets the direction and the key. -/
  init : C → Direction → (key : Bytes) → Reply C Unit
  /-- The transformed block. -/
  process : C → (block : Bytes) → Except Error Bytes
  /-- A block is transformed in place. -/
  length_process : ∀ {c block out}, process c block = .ok out → out.length = block.length

end PublicKeyCrypto
