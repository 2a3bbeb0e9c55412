import PublicKeyCrypto.Cipher.Block
import Mathlib

/-!
# Byte strings in pieces

A string that is put together from pieces of one length is cut at the same places again, a string
laid over another one with exclusive or can be taken off again, and what is read at the place where
parts are joined is one of the parts.

## Main Results

* `chunks_append`, `chunks_flatten` — cutting undoes joining
* `Bytes.xorOver_append`, `Bytes.xorOver_comm` — a string laid over another one
* `Bytes.xorOver_eq_zipWith`, `Bytes.xorOver_eq_zipWith_zeros` — the same, place by place
* `Bytes.byteAt_join`, `Bytes.slice_join` — reading parts of a joined string
-/

namespace PublicKeyCrypto

variable {α : Type}

/-! ## Cutting -/

/-- A first part is the first piece if it has full length, or if nothing follows it. -/
theorem chunks_append {size : ℕ} {piece rest : List α} (positive : size ≠ 0) (nonempty : piece ≠ [])
    (first : piece.length = size ∨ piece.length ≤ size ∧ rest = []) :
    chunks size (piece ++ rest) = piece :: chunks size rest := by
  rw [chunks_of_ne_nil positive (List.append_ne_nil_of_left_ne_nil nonempty rest)]
  rcases first with rfl | ⟨short, rfl⟩
  · rw [List.take_left, List.drop_left]
  · rw [List.append_nil, List.take_of_length_le short, List.drop_of_length_le short]

/-- A first part of full length is the first piece. -/
theorem chunks_append_of_length {size : ℕ} (positive : size ≠ 0) {piece : List α}
    (full : piece.length = size) (rest : List α) :
    chunks size (piece ++ rest) = piece :: chunks size rest := by
  refine chunks_append positive ?_ (.inl full)
  rintro rfl
  exact positive full.symm

/-- Pieces of full length in front of a list are found again. -/
theorem chunks_flatten_append {size : ℕ} (positive : size ≠ 0) {pieces : List (List α)}
    (full : ∀ piece ∈ pieces, piece.length = size) (rest : List α) :
    chunks size (pieces.flatten ++ rest) = pieces ++ chunks size rest := by
  induction pieces with
  | nil => rfl
  | cons piece others ih =>
      obtain ⟨first, full⟩ := List.forall_mem_cons.mp full
      rw [List.flatten_cons, List.append_assoc, chunks_append_of_length positive first, ih full,
        List.cons_append]

/-- Pieces of full length that were joined are found again. -/
theorem chunks_flatten {size : ℕ} (positive : size ≠ 0) {pieces : List (List α)}
    (full : ∀ piece ∈ pieces, piece.length = size) : chunks size pieces.flatten = pieces := by
  have found := chunks_flatten_append positive full []
  rwa [List.append_nil, chunks_nil, List.append_nil] at found

/-- The length of pieces of full length that are joined. -/
theorem length_flatten_of_full {size : ℕ} {pieces : List (List α)}
    (full : ∀ piece ∈ pieces, piece.length = size) :
    pieces.flatten.length = size * pieces.length := by
  induction pieces with
  | nil => rfl
  | cons piece rest ih =>
      obtain ⟨first, others⟩ := List.forall_mem_cons.mp full
      rw [List.flatten_cons, List.length_append, first, ih others, List.length_cons, Nat.mul_succ,
        Nat.add_comm]

namespace Bytes

/-! ## Laying over -/

@[simp] theorem xorOver_nil (lower : Bytes) : xorOver lower [] = lower := by
  cases lower <;> rfl

/-- What is laid over does not reach beyond its own length. -/
theorem xorOver_append (lower rest upper : Bytes) (inside : upper.length ≤ lower.length) :
    xorOver (lower ++ rest) upper = xorOver lower upper ++ rest := by
  induction lower generalizing upper with
  | nil =>
      obtain rfl : upper = [] := List.length_eq_zero_iff.mp (Nat.le_zero.mp inside)
      rw [xorOver_nil, xorOver_nil]
  | cons a lower ih =>
      cases upper with
      | nil => rw [xorOver_nil, xorOver_nil]
      | cons b upper =>
          rw [List.cons_append, xorOver, xorOver, List.cons_append,
            ih upper (Nat.le_of_succ_le_succ inside)]

/-- Of two strings of one length either may be laid over the other. -/
theorem xorOver_comm {a b : Bytes} (length : a.length = b.length) : xorOver a b = xorOver b a := by
  induction a generalizing b with
  | nil =>
      cases b with
      | nil => rfl
      | cons y b => cases length
  | cons x a ih =>
      cases b with
      | nil => cases length
      | cons y b => rw [xorOver, xorOver, UInt8.xor_comm, ih (Nat.succ.inj length)]

/-- A string is found again under what it was laid over. -/
theorem xorOver_xorOver_self {a b : Bytes} (length : a.length = b.length) :
    xorOver a (xorOver b a) = b := by
  rw [xorOver_comm (by rw [length_xorOver, length]), xorOver_xorOver]

/-- Whole blocks that give the same when they are laid over a block are the same. -/
theorem xorOver_right_inj {a b c : Bytes} (hb : b.length = a.length) (hc : c.length = a.length)
    (same : xorOver a b = xorOver a c) : b = c := by
  rw [← xorOver_xorOver b a, ← xorOver_xorOver c a, xorOver_comm hb, xorOver_comm hc, same]

/-- A string laid over one that is not longer leaves no place out. -/
theorem xorOver_eq_zipWith {lower upper : Bytes} (covered : lower.length ≤ upper.length) :
    xorOver lower upper = List.zipWith (· ^^^ ·) lower upper := by
  induction lower generalizing upper with
  | nil => cases upper <;> rfl
  | cons a lower ih =>
      cases upper with
      | nil => cases covered
      | cons b upper =>
          rw [xorOver, List.zipWith_cons_cons, ih (Nat.le_of_succ_le_succ covered)]

/-- Zeros change nothing. -/
theorem zipWith_zeros (b : Bytes) : List.zipWith (· ^^^ ·) (zeros b.length) b = b := by
  induction b with
  | nil => rfl
  | cons x b ih =>
      rw [List.length_cons, zeros, List.replicate_succ, List.zipWith_cons_cons, UInt8.zero_xor]
      exact congrArg (x :: ·) ih

/-- A string laid over a longer one may be brought to its length by zeros. -/
theorem xorOver_eq_zipWith_zeros {lower upper : Bytes} (inside : upper.length ≤ lower.length) :
    xorOver lower upper =
      List.zipWith (· ^^^ ·) (upper ++ zeros (lower.length - upper.length)) lower := by
  induction lower generalizing upper with
  | nil =>
      obtain rfl : upper = [] := List.length_eq_zero_iff.mp (Nat.le_zero.mp inside)
      rfl
  | cons a lower ih =>
      cases upper with
      | nil => rw [xorOver_nil, List.nil_append, List.length_nil, Nat.sub_zero, zipWith_zeros]
      | cons b upper =>
          rw [xorOver, ih (Nat.le_of_succ_le_succ inside), List.cons_append, List.length_cons,
            List.length_cons, Nat.succ_sub_succ, List.zipWith_cons_cons, UInt8.xor_comm]

/-! ## Numbers of four bytes -/

/-- A 32-bit word is written as the number that it is, over four bytes. -/
theorem ofWord32_ofNat (n : ℕ) : ofWord32 (UInt32.ofNat n) = wide 4 n := by
  simp only [ofWord32, wide, List.nil_append, List.cons_append, List.cons.injEq, and_true]
  refine ⟨?_, ?_, ?_, ?_⟩ <;> apply UInt8.toNat_inj.mp <;>
    simp [Nat.shiftRight_eq_div_pow] <;> omega

/-! ## Reading parts -/

/-- The byte behind a first part. -/
theorem byteAt_join (a : Bytes) (x : UInt8) (c : Bytes) {i : ℕ} (place : i = a.length) :
    byteAt (a ++ x :: c) i = .ok x := by
  unfold byteAt
  rw [place, List.getElem?_append_right le_rfl, Nat.sub_self]
  rfl

/-- The part between two others. -/
theorem slice_join (a part c : Bytes) {start stop : ℕ} (hstart : start = a.length)
    (hstop : stop = a.length + part.length) : slice (a ++ (part ++ c)) start stop = .ok part := by
  refine slice_eq_ok_iff.mpr ⟨by omega, ?_, ?_⟩
  · rw [hstop, List.length_append, List.length_append]
    omega
  · rw [hstop, hstart, ← List.append_assoc, List.take_left' List.length_append, List.drop_left]

/-- A part of a given length in front of the others. -/
theorem exists_join {b : Bytes} {m n : ℕ} (length : b.length = m + n) :
    ∃ a c : Bytes, b = a ++ c ∧ a.length = m ∧ c.length = n := by
  refine ⟨b.take m, b.drop m, (List.take_append_drop m b).symm,
    List.length_take_of_le (by omega), ?_⟩
  rw [List.length_drop]
  omega

end Bytes

end PublicKeyCrypto
