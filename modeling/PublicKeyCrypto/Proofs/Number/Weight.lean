import PublicKeyCrypto.Proofs.Number.Encoding
import Mathlib

/-!
# Numbers of large weight

The weight of a number is the number of ones of `3 x ⊻ x`, and it is read off two binary digits at a
time: a zero at the end does not count, and `01` at the end counts once.  So the numbers whose
digits alternate have half as many nonzero digits as they have bits.  That is more than a quarter,
for every bit length, which is what a private exponent has to have.

## Main Results

* `nafWeight_two_mul`, `nafWeight_four_mul_add_one` — the weight by the last digits
* `exists_heavy` — of every bit length there is a number whose weight is at least half of it
* `exists_heavy_below`, `exists_heavy_between` — numbers of large weight in a range
-/

namespace PublicKeyCrypto

/-! ## Ones and weights by the last digits -/

/-- The last binary digit, and the others. -/
theorem popCount_eq (n : ℕ) : popCount n = n % 2 + popCount (n / 2) := by
  by_cases zero : n = 0
  · rw [zero, Nat.zero_div, Nat.zero_mod, Nat.zero_add]
  · rw [popCount, if_neg zero]

/-- A zero at the end does not count. -/
theorem nafWeight_two_mul (x : ℕ) : nafWeight (2 * x) = nafWeight x := by
  have last : (3 * (2 * x) ^^^ 2 * x) % 2 = 0 := by
    rw [Nat.xor_mod_two_eq]
    omega
  have others : (3 * (2 * x) ^^^ 2 * x) / 2 = 3 * x ^^^ x := by
    rw [Nat.xor_div_two, show 3 * (2 * x) / 2 = 3 * x by omega, show 2 * x / 2 = x by omega]
  rw [nafWeight, popCount_eq, last, others, Nat.zero_add, nafWeight]

/-- Below a one at the end nothing differs. -/
theorem nafWeight_two_mul_add_one (x : ℕ) :
    nafWeight (2 * x + 1) = popCount ((3 * x + 1) ^^^ x) := by
  have last : (3 * (2 * x + 1) ^^^ (2 * x + 1)) % 2 = 0 := by
    rw [Nat.xor_mod_two_eq]
    omega
  have others : (3 * (2 * x + 1) ^^^ (2 * x + 1)) / 2 = (3 * x + 1) ^^^ x := by
    rw [Nat.xor_div_two, show 3 * (2 * x + 1) / 2 = 3 * x + 1 by omega,
      show (2 * x + 1) / 2 = x by omega]
  rw [nafWeight, popCount_eq, last, others, Nat.zero_add]

/-- The digits `01` at the end count once. -/
theorem nafWeight_four_mul_add_one (x : ℕ) : nafWeight (4 * x + 1) = nafWeight x + 1 := by
  have one : ((3 * (2 * x) + 1) ^^^ (2 * x)) % 2 = 1 := by
    rw [Nat.xor_mod_two_eq]
    omega
  have others : ((3 * (2 * x) + 1) ^^^ (2 * x)) / 2 = 3 * x ^^^ x := by
    rw [Nat.xor_div_two, show (3 * (2 * x) + 1) / 2 = 3 * x by omega, show 2 * x / 2 = x by omega]
  rw [show 4 * x + 1 = 2 * (2 * x) + 1 by ring, nafWeight_two_mul_add_one, popCount_eq, one, others,
    nafWeight, Nat.add_comm]

/-! ## Alternating digits -/

/-- A number has exactly `k + 1` bits if it lies between two powers of two. -/
theorem bitLength_eq_succ_iff {n k : ℕ} :
    bitLength n = k + 1 ↔ 2 ^ k ≤ n ∧ n < 2 ^ (k + 1) := by
  rw [← bitLength_le_iff, ← not_lt, ← bitLength_le_iff]
  omega

/-- Alternating digits that begin and end with a one. -/
theorem exists_alternating (k : ℕ) : ∃ x, bitLength x = 2 * k + 1 ∧ nafWeight x = k + 1 := by
  induction k with
  | zero => exact ⟨1, by decide, by decide +kernel⟩
  | succ k ih =>
      obtain ⟨x, length, weight⟩ := ih
      obtain ⟨least, small⟩ := bitLength_eq_succ_iff.mp length
      refine ⟨4 * x + 1, bitLength_eq_succ_iff.mpr ⟨?_, ?_⟩, ?_⟩
      · rw [show 2 * (k + 1) = 2 * k + 2 from rfl, pow_add]
        omega
      · rw [show 2 * (k + 1) + 1 = 2 * k + 1 + 2 from rfl, pow_add]
        omega
      · rw [nafWeight_four_mul_add_one, weight]

/-- **Numbers of large weight.**  Of every bit length there is a number whose weight is at least
half of it. -/
theorem exists_heavy (bits : ℕ) : ∃ x, bitLength x = bits ∧ bits ≤ 2 * nafWeight x := by
  obtain ⟨k, rfl | rfl⟩ := Nat.even_or_odd' bits
  · cases k with
    | zero => exact ⟨0, rfl, Nat.zero_le _⟩
    | succ k =>
        -- An even number of alternating digits ends with a zero.
        obtain ⟨x, length, weight⟩ := exists_alternating k
        obtain ⟨least, small⟩ := bitLength_eq_succ_iff.mp length
        rw [show 2 * (k + 1) = 2 * k + 1 + 1 from rfl]
        refine ⟨2 * x, bitLength_eq_succ_iff.mpr ⟨?_, ?_⟩, ?_⟩
        · rw [pow_succ]
          omega
        · rw [pow_succ]
          omega
        · rw [nafWeight_two_mul, weight]
          omega
  · obtain ⟨x, length, weight⟩ := exists_alternating k
    exact ⟨x, length, by omega⟩

/-! ## Bounds of the size -/

/-- Below every positive number there is one that is a bit shorter and has a quarter of its weight
at least. -/
theorem exists_heavy_below {bound : ℕ} (positive : 0 < bound) :
    ∃ x, bitLength x = bitLength bound - 1 ∧ x < bound ∧ bitLength bound / 4 ≤ nafWeight x := by
  obtain ⟨k, length⟩ : ∃ k, bitLength bound = k + 1 := Nat.exists_eq_succ_of_ne_zero fun zero => by
    have := bitLength_le_iff.mp zero.le
    omega
  obtain ⟨x, shorter, weight⟩ := exists_heavy k
  have small : x < 2 ^ k := bitLength_le_iff.mp shorter.le
  exact ⟨x, by omega, small.trans_le (bitLength_eq_succ_iff.mp length).1, by omega⟩

/-- The same for numbers from two on.  If the greatest one has two bits only, the weight does not
matter. -/
theorem exists_heavy_between {greatest : ℕ} (large : 2 ≤ greatest) :
    ∃ x, (2 ≤ x ∧ x ≤ greatest) ∧ bitLength greatest / 4 ≤ nafWeight x := by
  by_cases short : bitLength greatest ≤ 2
  · exact ⟨2, ⟨le_rfl, large⟩, by omega⟩
  · obtain ⟨x, shorter, below, weight⟩ := exists_heavy_below (Nat.zero_lt_of_lt large)
    have two_le : 2 ≤ x := by
      by_contra small
      have := bitLength_le_iff.mpr (show x < 2 ^ 1 by omega)
      omega
    exact ⟨x, ⟨two_le, below.le⟩, weight⟩

end PublicKeyCrypto
