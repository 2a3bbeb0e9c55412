import PublicKeyCrypto.Symmetric.Basic

/-!
# A cipher to try modes with

A block cipher of any block size and any key, which makes the effect of a mode easy to see. It
protects nothing.

## Main Definitions

* `ToyCipher` — the cipher of a given block size
-/

namespace PublicKeyCrypto

/-- A cipher that lays the repeated key over a block and reverses the order of the bytes. -/
structure ToyCipher (size : Nat) where
  key : Bytes := []
  direction : Direction := .encrypt

namespace ToyCipher

/-- The block with the key laid over it, repeated as often as needed; an empty key changes
nothing. -/
def overlay (key block : Bytes) : Bytes :=
  block.zipIdx.map fun (b, i) => b ^^^ key.getD (i % key.length) 0

/-- The transformed block. -/
def transform {size : Nat} (c : ToyCipher size) (block : Bytes) : Bytes :=
  match c.direction with
  | .encrypt => (overlay c.key block).reverse
  | .decrypt => overlay c.key block.reverse

theorem length_transform {size : Nat} (c : ToyCipher size) (block : Bytes) :
    (c.transform block).length = block.length := by
  unfold transform
  split <;> simp [overlay]

instance (size : Nat) : BlockCipher (ToyCipher size) where
  name := "TOY"
  blockSize := size
  init _ direction key := (.ok (), { key, direction })
  process c block := .ok (c.transform block)
  length_process h := by
    cases h
    exact length_transform _ _

end ToyCipher

end PublicKeyCrypto
