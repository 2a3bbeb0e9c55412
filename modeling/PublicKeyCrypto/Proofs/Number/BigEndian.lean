import PublicKeyCrypto.Proofs.Number.Encoding
import Mathlib

/-!
# Numbers and byte strings, both ways

A byte string is read as the big-endian digits of a number to base 256.  Many strings are read as
one number, since leading zeros do not count; two things single out one of them.

* **The length.**  Of the strings of a length, one is read as the number, if the number is below the
  power of 256 with that exponent, and none otherwise (`fixedBytes_eq_ok_iff`).
* **Being shortest.**  No other string of as few bytes is read as the number, and none of fewer
  (`Bytes.eq_minimal_iff`).

So a number is written and read back without loss, and a string is read and written back up to its
leading zeros, or entirely if its length is kept.

## Main Results

* `Bytes.value_eq_ofDigits` — reading is positional
* `fixedBytes_eq_ok_iff`, `exists_fixedBytes_iff`, `fixedBytes_eq_error_iff` — what is written over a
  given length, and which numbers are refused
* `number_encodings_exact` — both encodings against reading
-/

namespace PublicKeyCrypto

namespace Bytes

/-- The bytes are digits to base 256, and the last one has the lowest place. -/
theorem value_eq_ofDigits (b : Bytes) :
    value b = Nat.ofDigits 256 (b.reverse.map UInt8.toNat) := by
  induction b using List.reverseRecOn with
  | nil => rfl
  | append_singleton b x ih =>
      rw [value_concat, ih, List.reverse_concat, List.map_cons, Nat.ofDigits_cons,
        Nat.add_comm, Nat.mul_comm]

/-- Only zero needs no byte. -/
theorem minimal_eq_nil_iff {n : ℕ} : minimal n = [] ↔ n = 0 := by
  constructor
  · intro empty
    rw [← value_minimal n, empty, value_nil]
  · rintro rfl
    exact minimal_zero

/-- A string takes at least as many bytes as the number that it is read as. -/
theorem byteLength_value_le (b : Bytes) : byteLength (value b) ≤ b.length := by
  rw [← length_minimal]
  exact length_minimal_value_le b

/-- The shortest encoding is the one string of its length that is read as the number. -/
theorem eq_minimal_iff {n : ℕ} {b : Bytes} :
    value b = n ∧ b.length = byteLength n ↔ b = minimal n := by
  constructor
  · rintro ⟨rfl, length⟩
    exact eq_of_value_eq (by rw [length, length_minimal]) (value_minimal _).symm
  · rintro rfl
    exact ⟨value_minimal n, length_minimal n⟩

/-- No string that is read as the number is shorter. -/
theorem isLeast_byteLength (n : ℕ) :
    IsLeast {len | ∃ b, value b = n ∧ b.length = len} (byteLength n) := by
  refine ⟨⟨minimal n, value_minimal n, length_minimal n⟩, ?_⟩
  rintro len ⟨b, rfl, rfl⟩
  exact byteLength_value_le b

end Bytes

/-! ## Over a given length -/

/-- What is written over a length is the one string of that length that is read as the number. -/
theorem fixedBytes_eq_ok_iff {n len : ℕ} {b : Bytes} :
    fixedBytes n len = .ok b ↔ b.length = len ∧ b.value = n := by
  constructor
  · exact fixedBytes_eq_ok
  · rintro ⟨rfl, rfl⟩
    have fits := b.value_lt
    rw [fixedBytes_of_lt fits]
    congr 1
    exact Bytes.eq_of_value_eq (Bytes.length_wide _ _) (Bytes.value_wide_of_lt fits)

/-- The numbers below the power of 256 are written, and no others. -/
theorem exists_fixedBytes_iff {n len : ℕ} : (∃ b, fixedBytes n len = .ok b) ↔ n < 256 ^ len := by
  constructor
  · rintro ⟨b, written⟩
    obtain ⟨rfl, rfl⟩ := fixedBytes_eq_ok written
    exact b.value_lt
  · intro fits
    exact ⟨_, fixedBytes_of_lt fits⟩

/-- A number that does not fit is refused as too large. -/
theorem fixedBytes_eq_error_iff {n len : ℕ} :
    fixedBytes n len = .error (.dataLength .numberTooLarge) ↔ 256 ^ len ≤ n := by
  constructor
  · intro refused
    by_contra below
    rw [fixedBytes_of_lt (not_le.mp below)] at refused
    cases refused
  · intro large
    have long : len < (Bytes.minimal n).length := by
      rw [Bytes.length_minimal]
      by_contra short
      exact absurd (byteLength_le_iff.mp (not_lt.mp short)) (not_lt.mpr large)
    exact if_pos long

open Bytes in
/-- **Writing against reading.**  Bytes are read as digits to base 256.  A number is written over a
length exactly if it is below the power of 256, and then as the one string of that length that is
read as the number; a string is written again as it was, if its length is kept.  The shortest
encoding of a number has as many bytes as the bits of the number fill, no other string of so few
bytes is read as the number, only zero has none, and it begins with no zero.  A string that is read
and written without a length loses its leading zeros. -/
theorem number_encodings_exact :
    (∀ b : Bytes, b.value = Nat.ofDigits 256 (b.reverse.map UInt8.toNat)) ∧
    (∀ n len : ℕ,
      ((∃ b, fixedBytes n len = .ok b) ↔ n < 256 ^ len) ∧
      (fixedBytes n len = .error (.dataLength .numberTooLarge) ↔ 256 ^ len ≤ n) ∧
      ∀ b, fixedBytes n len = .ok b ↔ b.length = len ∧ b.value = n) ∧
    (∀ b : Bytes, fixedBytes b.value b.length = .ok b) ∧
    (∀ n : ℕ,
      (minimal n).value = n ∧ (minimal n).length = byteLength n ∧
      IsLeast {len | ∃ b : Bytes, b.value = n ∧ b.length = len} (byteLength n) ∧
      (∀ b : Bytes, b.value = n ∧ b.length = byteLength n ↔ b = minimal n) ∧
      (minimal n = [] ↔ n = 0) ∧ (minimal n).head? ≠ some 0) ∧
    ∀ b : Bytes, minimal b.value = b.dropWhile (· = 0) := by
  refine ⟨value_eq_ofDigits, fun n len => ?_, fun b => fixedBytes_eq_ok_iff.mpr ⟨rfl, rfl⟩,
    fun n => ?_, minimal_value⟩
  · exact ⟨exists_fixedBytes_iff, fixedBytes_eq_error_iff, fun b => fixedBytes_eq_ok_iff⟩
  · exact ⟨value_minimal n, length_minimal n, isLeast_byteLength n, fun b => eq_minimal_iff,
      minimal_eq_nil_iff, head?_minimal n⟩

/-- The least number that needs a second byte. -/
example : Bytes.minimal 255 = [255] ∧ Bytes.minimal 256 = [1, 0] := by decide +kernel

end PublicKeyCrypto
