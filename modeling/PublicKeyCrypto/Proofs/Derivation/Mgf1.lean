import PublicKeyCrypto.Derivation.Mgf1
import PublicKeyCrypto.Proofs.Bytes
import PublicKeyCrypto.Random.Sampler
import Mathlib

/-!
# Masks are undone by masking again

A mask is laid over a string piece by piece.  Masking keeps the length of every piece, so that the
masked string is cut at the same places, and each piece meets the same digest again.

The standard speaks of the mask as a string of its own, which is cut to the length of what it masks
(RFC 8017, appendix B.2.1).  Both are the same, since all digests but the last are used up.

## Main Definitions

* `Hash.mgf1` — the mask of a seed as a string

## Main Results

* `Hash.mask_mask` — masking twice with one seed changes nothing
* `Hash.clearTop_mask_clearTop_mask` — the same for the bits that are kept, if some are cleared
* `Hash.mask_eq_zipWith` — masking is exclusive or with the mask as a string
-/

namespace PublicKeyCrypto

namespace Hash

variable (H : Hash) (seed : Bytes)

/-- The induction follows the cutting of the string; the counter moves along with the pieces. -/
theorem maskPieces_maskPieces (counter : UInt32) (data : Bytes) :
    H.maskPieces seed counter
      (chunks H.size (H.maskPieces seed counter (chunks H.size data))) = data := by
  have positive : H.size ≠ 0 := Nat.ne_of_gt H.size_pos
  induction data using chunks.induct H.size generalizing counter with
  | case1 data empty =>
      obtain rfl := empty.resolve_left positive
      rw [chunks_nil, maskPieces, chunks_nil, maskPieces]
  | case2 data nonempty ih =>
      have notNil : data ≠ [] := (not_or.mp nonempty).2
      have someBytes : 0 < data.length := List.length_pos_iff.mpr notNil
      have length : (Bytes.xorOver (data.take H.size)
          (H.digest (seed ++ Bytes.ofWord32 counter))).length = min H.size data.length := by
        rw [Bytes.length_xorOver, List.length_take]
      rw [chunks_of_ne_nil positive notNil, maskPieces, chunks_append positive, maskPieces,
        Bytes.xorOver_xorOver, ih, List.take_append_drop]
      · rw [← List.length_pos_iff, length]
        omega
      · -- The masked piece is as long as the piece; only the last one may be short.
        by_cases full : H.size ≤ data.length
        · exact .inl (by omega)
        · refine .inr ⟨by omega, ?_⟩
          rw [List.drop_of_length_le (by omega), chunks_nil, maskPieces]

/-- Masking twice with one seed changes nothing. -/
@[simp] theorem mask_mask (data : Bytes) : H.mask seed (H.mask seed data) = data :=
  H.maskPieces_maskPieces seed 0 data

/-- The first byte of a string and the others are masked apart. -/
theorem exists_mask_cons (rest : Bytes) :
    ∃ (key : UInt8) (tail : Bytes), ∀ x, H.mask seed (x :: rest) = (x ^^^ key) :: tail := by
  have positive : H.size ≠ 0 := Nat.ne_of_gt H.size_pos
  obtain ⟨less, hless⟩ := Nat.exists_eq_succ_of_ne_zero positive
  -- A digest is not empty, so the first byte of the first piece meets the first byte of it.
  obtain ⟨key, keys, hkeys⟩ : ∃ key keys, H.digest (seed ++ Bytes.ofWord32 0) = key :: keys :=
    List.exists_cons_of_length_eq_add_one ((H.length_digest _).trans hless)
  refine ⟨key, Bytes.xorOver (rest.take less) keys ++
    H.maskPieces seed 1 (chunks H.size (rest.drop less)), fun x => ?_⟩
  rw [mask, chunks_of_ne_nil positive (List.cons_ne_nil x rest), maskPieces, hkeys, hless,
    List.take_succ_cons, List.drop_succ_cons, Bytes.xorOver, List.cons_append]
  rfl

/-- What is laid over a byte twice does not show in the bits that are kept both times. -/
theorem and_xor_and (x key bits : UInt8) :
    (((x ^^^ key) &&& bits) ^^^ key) &&& bits = x &&& bits := by
  apply UInt8.toBitVec_inj.mp
  simp only [UInt8.toBitVec_and, UInt8.toBitVec_xor]
  ext i hi
  simp only [BitVec.getElem_and, BitVec.getElem_xor]
  cases x.toBitVec[i] <;> cases key.toBitVec[i] <;> cases bits.toBitVec[i] <;> rfl

/-- Top bits that were cleared between masking and unmasking do not disturb the others. -/
theorem clearTop_mask_clearTop_mask (surplus : ℕ) (data : Bytes) :
    (H.mask seed ((H.mask seed data).clearTop surplus)).clearTop surplus =
      data.clearTop surplus := by
  cases data with
  | nil => simp [mask, maskPieces, Bytes.clearTop]
  | cons x rest =>
      obtain ⟨key, tail, masked⟩ := H.exists_mask_cons seed rest
      obtain ⟨key', tail', masked'⟩ := H.exists_mask_cons seed tail
      have back : (x ^^^ key ^^^ key') :: tail' = x :: rest := by
        rw [← masked', ← masked, mask_mask]
      obtain ⟨first, rfl⟩ := List.cons.inj back
      have same : key' = key := by
        rw [UInt8.xor_assoc] at first
        have cancels : key ^^^ key' = 0 :=
          (UInt8.xor_right_inj x).mp (first.trans UInt8.xor_zero.symm)
        exact (UInt8.xor_eq_zero_iff.mp cancels).symm
      rw [masked, Bytes.clearTop, masked', Bytes.clearTop, same, and_xor_and, Bytes.clearTop]

/-! ## The mask as a string -/

/-- The digests of the seed followed by each of `count` counters, from the first one on, over four
bytes.  The standard has no mask of more than `2 ^ 32` digests; here the counters start again. -/
def maskDigests (first count : ℕ) : Bytes :=
  (List.range' first count).flatMap fun counter => H.digest (seed ++ Bytes.wide 4 counter)

/-- The mask of a seed: as many digests as the length takes, cut to the length. -/
def mgf1 (length : ℕ) : Bytes :=
  (H.maskDigests seed 0 ((length + H.size - 1) / H.size)).take length

/-- The pieces meet the digests in their order.  The induction follows the cutting of the string,
as for masking twice. -/
theorem maskPieces_eq_zipWith (first : ℕ) (data : Bytes) :
    H.maskPieces seed (UInt32.ofNat first) (chunks H.size data) =
      List.zipWith (· ^^^ ·) data
        (H.maskDigests seed first ((data.length + H.size - 1) / H.size)) := by
  have positive : H.size ≠ 0 := Nat.ne_of_gt H.size_pos
  induction data using chunks.induct H.size generalizing first with
  | case1 data empty =>
      obtain rfl := empty.resolve_left positive
      rw [chunks_nil, maskPieces, List.zipWith_nil_left]
  | case2 data nonempty ih =>
      have notNil : data ≠ [] := (not_or.mp nonempty).2
      have someBytes : 0 < data.length := List.length_pos_iff.mpr notNil
      have count : (data.length + H.size - 1) / H.size =
          ((data.drop H.size).length + H.size - 1) / H.size + 1 := by
        rw [show data.length + H.size - 1 = data.length - 1 + H.size by omega,
          Nat.add_div_right _ H.size_pos, List.length_drop]
        congr 1
        by_cases full : H.size ≤ data.length
        · congr 1
          omega
        · rw [Nat.div_eq_of_lt (by omega), Nat.div_eq_of_lt (by omega)]
      have next : UInt32.ofNat first + 1 = UInt32.ofNat (first + 1) := by simp
      rw [chunks_of_ne_nil positive notNil, maskPieces, next, ih, count, maskDigests, maskDigests,
        List.range'_succ, List.flatMap_cons, Bytes.ofWord32_ofNat,
        Bytes.xorOver_eq_zipWith (by rw [List.length_take, H.length_digest]; omega)]
      by_cases full : H.size ≤ data.length
      · rw [← List.zipWith_append (by rw [List.length_take_of_le full, H.length_digest]),
          List.take_append_drop]
      · -- The last piece is short: nothing follows it, and its digest is not used up.
        rw [List.drop_of_length_le (by omega), List.take_of_length_le (by omega),
          List.length_nil, Nat.zero_add, Nat.div_eq_of_lt (by omega), List.range'_zero,
          List.flatMap_nil, List.append_nil, List.zipWith_nil_left, List.append_nil]

/-- **Masking** is exclusive or with the mask of the same length. -/
theorem mask_eq_zipWith (data : Bytes) :
    H.mask seed data = List.zipWith (· ^^^ ·) data (H.mgf1 seed data.length) := by
  set digests := H.maskDigests seed 0 ((data.length + H.size - 1) / H.size) with hdigests
  calc H.mask seed data
      = List.zipWith (· ^^^ ·) data digests := H.maskPieces_eq_zipWith seed 0 data
    _ = (List.zipWith (· ^^^ ·) data digests).take data.length :=
        (List.take_of_length_le (by rw [List.length_zipWith]; omega)).symm
    _ = List.zipWith (· ^^^ ·) data (H.mgf1 seed data.length) := by
        rw [List.take_zipWith, List.take_length, mgf1]

end Hash

end PublicKeyCrypto
