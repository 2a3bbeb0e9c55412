import PublicKeyCrypto.Hash.Basic

/-!
# Mask generation

The mask of a seed is the concatenation of the digests of the seed followed by a 32-bit counter
(RFC 8017, appendix B.2.1). The encodings only ever lay it over a string of the same length.

## Main Definitions

* `Hash.mask` — a string with the mask of a seed laid over it
-/

namespace PublicKeyCrypto.Hash

/-- The mask from the given counter on, laid over pieces of digest length. -/
def maskPieces (H : Hash) (seed : Bytes) : (counter : UInt32) → List Bytes → Bytes
  | _, [] => []
  | counter, piece :: rest =>
    Bytes.xorOver piece (H.digest (seed ++ Bytes.ofWord32 counter)) ++
      maskPieces H seed (counter + 1) rest

/-- The data with the mask of the seed laid over it. -/
def mask (H : Hash) (seed data : Bytes) : Bytes := H.maskPieces seed 0 (chunks H.size data)

/-- A mask changes no length. -/
@[simp] theorem length_mask (H : Hash) (seed data : Bytes) :
    (H.mask seed data).length = data.length := by
  have hpieces : ∀ (pieces : List Bytes) (counter : UInt32),
      (H.maskPieces seed counter pieces).length = pieces.flatten.length := by
    intro pieces
    induction pieces with
    | nil => intro counter; rfl
    | cons piece rest ih => intro counter; simp [maskPieces, ih]
  rw [mask, hpieces, flatten_chunks (Nat.ne_of_gt H.size_pos)]

end PublicKeyCrypto.Hash
