import PublicKeyCrypto.Number.Bits
import PublicKeyCrypto.Random.Sampler
import Mathlib

/-!
# Numbers as byte strings

The shortest encoding of a number is the only one without leading zeros, and every other encoding
is the shortest one after zeros.  A number has an encoding of a given length exactly when it is
below the power of 256 with that exponent.

## Main Results

* `bitLength_le_iff`, `byteLength_le_iff` — the sizes of a number, by the powers above it
* `Bytes.value_append`, `Bytes.value_clearTop` — values of strings in parts and without top bits
* `Bytes.minimal_value`, `Bytes.head?_minimal` — the shortest encoding of the value of a string, and
  how it begins
* `fixedBytes_of_lt` — a number that fits is written
-/

namespace PublicKeyCrypto

/-! ## Sizes -/

theorem bitLength_eq_size (n : ℕ) : bitLength n = n.size := by
  unfold bitLength
  split
  · next zero => rw [zero, Nat.size_zero]
  · next nonzero =>
    apply le_antisymm
    · exact Nat.lt_size.mpr (Nat.log2_self_le nonzero)
    · exact Nat.size_le.mpr Nat.lt_log2_self

/-- A number has at most `k` bits exactly when it is below the power of two. -/
theorem bitLength_le_iff {n k : ℕ} : bitLength n ≤ k ↔ n < 2 ^ k := by
  rw [bitLength_eq_size]
  exact Nat.size_le

/-- A number has at most `len` bytes exactly when it is below the power of 256. -/
theorem byteLength_le_iff {n len : ℕ} : byteLength n ≤ len ↔ n < 256 ^ len := by
  rw [show (256 : ℕ) = 2 ^ 8 from rfl, ← pow_mul, ← bitLength_le_iff, byteLength]
  omega

/-- Fewer bytes than the bit length fills hold only numbers below the number. -/
theorem pow_le_of_lt_bitLength {n len : ℕ} (h : 8 * len < bitLength n) : 256 ^ len ≤ n := by
  by_contra above
  have fits : bitLength n ≤ 8 * len := by
    rw [bitLength_le_iff, pow_mul]
    exact not_le.mp above
  omega

theorem lt_pow_byteLength (n : ℕ) : n < 256 ^ byteLength n :=
  byteLength_le_iff.mp le_rfl

namespace Bytes

/-! ## Values -/

theorem value_lt (b : Bytes) : value b < 256 ^ b.length := by
  induction b using List.reverseRecOn with
  | nil => simp
  | append_singleton b x ih =>
      have byte := x.toNat_lt
      rw [value_concat, List.length_append, List.length_singleton, pow_succ]
      omega

theorem value_append (a b : Bytes) : value (a ++ b) = value a * 256 ^ b.length + value b := by
  induction b using List.reverseRecOn with
  | nil => simp
  | append_singleton b x ih =>
      rw [← List.append_assoc, value_concat, value_concat, ih, List.length_append,
        List.length_singleton, pow_succ]
      ring

theorem value_cons (x : UInt8) (rest : Bytes) :
    value (x :: rest) = x.toNat * 256 ^ rest.length + value rest := by
  have first : value [x] = x.toNat := by simpa using value_concat [] x
  rw [← List.singleton_append, value_append, first]

/-- The lowest bits of a byte. -/
theorem toNat_and_shifted {surplus : ℕ} (small : surplus < 8) (x : UInt8) :
    (x &&& (0xFF >>> surplus.toUInt8)).toNat = x.toNat % 2 ^ (8 - surplus) := by
  have ones : ∀ k < 8, (0xFF >>> k.toUInt8 : UInt8).toNat = 2 ^ (8 - k) - 1 := by decide
  rw [UInt8.toNat_and, ones surplus small, Nat.and_two_pow_sub_one_eq_mod]

@[simp] theorem length_clearTop (surplus : ℕ) (b : Bytes) :
    (b.clearTop surplus).length = b.length := by
  cases b <;> rfl

/-- Only the first byte has bits to clear. -/
theorem clearTop_append (surplus : ℕ) {a : Bytes} (nonempty : a ≠ []) (b : Bytes) :
    (a ++ b).clearTop surplus = a.clearTop surplus ++ b := by
  cases a with
  | nil => exact absurd rfl nonempty
  | cons x rest => rfl

/-- Without the top bits the value is reduced. -/
theorem value_clearTop {surplus : ℕ} (small : surplus < 8) (b : Bytes) :
    value (b.clearTop surplus) = value b % 2 ^ (8 * b.length - surplus) := by
  cases b with
  | nil => rw [clearTop, value_nil, Nat.zero_mod]
  | cons x rest =>
      have low := value_lt rest
      have bits : 2 ^ (8 * (x :: rest).length - surplus) =
          256 ^ rest.length * 2 ^ (8 - surplus) := by
        rw [show (256 : ℕ) = 2 ^ 8 from rfl, ← pow_mul, ← pow_add, List.length_cons]
        congr 1
        omega
      have above : (x.toNat * 256 ^ rest.length + value rest) / 256 ^ rest.length = x.toNat := by
        rw [Nat.mul_comm, Nat.mul_add_div (Nat.pow_pos (by decide)), Nat.div_eq_of_lt low,
          Nat.add_zero]
      rw [clearTop, value_cons, value_cons, toNat_and_shifted small, bits, Nat.mod_mul,
        Nat.mul_add_mod_of_lt low, above]
      ring

/-! ## The shortest encoding -/

/-- A last byte is written after the bytes of the number above it. -/
theorem minimal_concat {n : ℕ} {x : UInt8} (h : n * 256 + x.toNat ≠ 0) :
    minimal (n * 256 + x.toNat) = minimal n ++ [x] := by
  have byte := x.toNat_lt
  have above : (n * 256 + x.toNat) / 256 = n := by omega
  have last : (n * 256 + x.toNat) % 256 = x.toNat := by omega
  rw [minimal, if_neg h, above, last]
  simp

/-- The shortest encoding of the value of a string is the string without its leading zeros. -/
theorem minimal_value (b : Bytes) : minimal (value b) = b.dropWhile (· = 0) := by
  induction b using List.reverseRecOn with
  | nil => simp
  | append_singleton b x ih =>
      rw [value_concat, List.dropWhile_append, ← ih]
      by_cases zero : value b * 256 + x.toNat = 0
      · have lastZero : x = 0 := UInt8.toNat_inj.mp (by simpa using by omega)
        have restZero : value b = 0 := by omega
        simp [lastZero, restZero]
      · rw [minimal_concat zero]
        by_cases restZero : value b = 0
        · have lastNonzero : x ≠ 0 := by
            rintro rfl
            simp [restZero] at zero
          simp [restZero, lastNonzero]
        · have written : minimal (value b) ≠ [] := by
            intro empty
            rw [← value_minimal (value b), empty, value_nil] at restZero
            exact restZero rfl
          simp [written]

/-- The shortest encoding begins with no zero. -/
theorem head?_minimal (n : ℕ) : (minimal n).head? ≠ some 0 := by
  have same := minimal_value (minimal n)
  rw [value_minimal] at same
  intro zero
  obtain ⟨rest, written⟩ := List.head?_eq_some_iff.mp zero
  rw [written, List.dropWhile_cons_of_pos (by simp)] at same
  have longer := congrArg List.length same
  have shorter := (List.dropWhile_suffix (l := rest) (· = 0)).length_le
  rw [List.length_cons] at longer
  omega

/-- A string that begins with no zero is the shortest encoding of its value. -/
theorem minimal_value_cons {x : UInt8} (nonzero : x ≠ 0) (rest : Bytes) :
    minimal (value (x :: rest)) = x :: rest := by
  rw [minimal_value, List.dropWhile_cons_of_neg (by simpa using nonzero)]

/-- The shortest encoding is not longer than any other. -/
theorem length_minimal_value_le (b : Bytes) : (minimal (value b)).length ≤ b.length := by
  rw [minimal_value]
  exact (List.dropWhile_suffix _).length_le

/-- Every string is zeros and the shortest encoding of its value. -/
theorem zeros_append_minimal (b : Bytes) :
    zeros (b.length - (minimal (value b)).length) ++ minimal (value b) = b := by
  have leading : b.takeWhile (· = 0) = zeros (b.takeWhile (· = 0)).length :=
    List.eq_replicate_of_mem fun x hx => by simpa using List.mem_takeWhile_imp hx
  have split := List.takeWhile_append_dropWhile (p := (· = 0)) (l := b)
  have count : (b.takeWhile (· = 0)).length = b.length - (minimal (value b)).length := by
    rw [minimal_value]
    conv_rhs => rw [← split, List.length_append]
    simp
  rw [← count, ← leading, minimal_value]
  exact split

/-- Strings of one length with one value are the same. -/
theorem eq_of_value_eq {a b : Bytes} (length : a.length = b.length) (h : value a = value b) :
    a = b := by
  rw [← zeros_append_minimal a, length, h, zeros_append_minimal b]

/-! ## Encodings of a given length -/

/-- The number is written modulo the power of 256 above the string. -/
theorem value_wide (len n : ℕ) : value (wide len n) = n % 256 ^ len := by
  induction len generalizing n with
  | zero => simp [wide, Nat.mod_one]
  | succ len ih =>
      have last : (n % 256).toUInt8.toNat = n % 256 := by
        rw [UInt8.toNat_ofNat']
        omega
      rw [wide, value_concat, ih, last, pow_succ', Nat.mod_mul, mul_comm, add_comm]

/-- A number that fits is the value of its encoding. -/
theorem value_wide_of_lt {len n : ℕ} (h : n < 256 ^ len) : value (wide len n) = n := by
  rw [value_wide, Nat.mod_eq_of_lt h]

/-- The shortest encoding takes as many bytes as the bits of the number fill. -/
@[simp] theorem length_minimal (n : ℕ) : (minimal n).length = byteLength n := by
  apply le_antisymm
  · have shorter := length_minimal_value_le (wide (byteLength n) n)
    rwa [value_wide_of_lt (lt_pow_byteLength n), length_wide] at shorter
  · rw [byteLength_le_iff]
    simpa using value_lt (minimal n)

end Bytes

/-- A number that fits is written. -/
theorem fixedBytes_of_lt {n len : ℕ} (h : n < 256 ^ len) :
    fixedBytes n len = .ok (Bytes.wide len n) := by
  have short : (Bytes.minimal n).length ≤ len := by
    rw [Bytes.length_minimal]
    exact byteLength_le_iff.mpr h
  have written : fixedBytes n len =
      .ok (Bytes.zeros (len - (Bytes.minimal n).length) ++ Bytes.minimal n) :=
    if_neg (not_lt.mpr short)
  obtain ⟨length, value⟩ := fixedBytes_eq_ok written
  rw [written]
  congr 1
  apply Bytes.eq_of_value_eq
  · rw [length, Bytes.length_wide]
  · rw [value, Bytes.value_wide_of_lt h]

end PublicKeyCrypto
