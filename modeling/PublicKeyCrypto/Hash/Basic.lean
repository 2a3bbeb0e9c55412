import PublicKeyCrypto.Bytes

/-!
# Hash functions

The encodings, signatures and derivations of the library are stated over an arbitrary `Hash`.

## Main Definitions

* `Hash` — a hash function with its sizes
* `Hash.hmac` — the keyed hash
-/

namespace PublicKeyCrypto

/-- A hash function: every message has a digest of `size` bytes. -/
structure Hash where
  /-- Length of a digest, in bytes. -/
  size : Nat
  /-- Length of the blocks in which a message is absorbed, in bytes. -/
  blockSize : Nat
  /-- The digest of a message. -/
  digest : Bytes → Bytes
  /-- A digest is not empty. -/
  size_pos : 0 < size
  /-- All digests have one length. -/
  length_digest : ∀ message, (digest message).length = size

namespace Hash

/-- The keyed hash of a message, for a key of at most one block. -/
def hmac (H : Hash) (key message : Bytes) : Bytes :=
  let keyed (pad : UInt8) := Bytes.xorOver (List.replicate H.blockSize pad) key
  H.digest (keyed 0x5C ++ H.digest (keyed 0x36 ++ message))

@[simp] theorem length_hmac (H : Hash) (key message : Bytes) :
    (H.hmac key message).length = H.size := H.length_digest _

end Hash

end PublicKeyCrypto
