import PublicKeyCrypto.Number.Modular
import Mathlib

/-!
# What modular arithmetic computes

Repeated squaring computes the power, and the extended Euclidean algorithm finds an inverse exactly
when there is one.

## Main Results

* `powMod_eq` — the power by repeated squaring
* `invMod_eq_some_iff` — the inverse is the only residue with product one
* `exists_invMod_iff` — there is an inverse exactly for numbers coprime to the modulus
-/

namespace PublicKeyCrypto

/-! ## Powers -/

theorem powMod_eq (base exponent modulus : ℕ) :
    powMod base exponent modulus = base ^ exponent % modulus := by
  fun_induction powMod base exponent modulus with
  | case1 base => simp
  | case2 base exponent nonzero root odd ih =>
      have halves : exponent = 2 * (exponent / 2) + 1 := by omega
      rw [show root = _ from ih]
      conv_rhs => rw [halves, pow_succ, pow_mul, mul_comm, pow_two]
      rw [← Nat.pow_mod, Nat.mul_mod_mod]
  | case3 base exponent nonzero root even ih =>
      have halves : exponent = 2 * (exponent / 2) := by omega
      rw [show root = _ from ih]
      conv_rhs => rw [halves, pow_mul, pow_two]
      rw [← Nat.pow_mod]

/-- The power by repeated squaring stands for the power. -/
theorem powMod_modEq (base exponent modulus : ℕ) :
    powMod base exponent modulus ≡ base ^ exponent [MOD modulus] := by
  rw [powMod_eq]
  exact Nat.mod_modEq _ _

/-- A power is one by repeated squaring if it stands for one. -/
theorem powMod_eq_one_iff {base exponent modulus : ℕ} (large : 1 < modulus) :
    powMod base exponent modulus = 1 ↔ base ^ exponent ≡ 1 [MOD modulus] := by
  rw [powMod_eq, Nat.ModEq, Nat.mod_eq_of_lt large]

theorem powMod_lt (base exponent : ℕ) {modulus : ℕ} (h : 0 < modulus) :
    powMod base exponent modulus < modulus := by
  rw [powMod_eq]
  exact Nat.mod_lt _ h

/-! ## Residues -/

/-- A residue is one if its number is. -/
theorem mod_eq_one_iff {n : ℕ} (large : 1 < n) (x : ℕ) : x % n = 1 ↔ (x : ZMod n) = 1 := by
  rw [← Nat.cast_one (R := ZMod n), ZMod.natCast_eq_natCast_iff, Nat.ModEq, Nat.mod_eq_of_lt large]

/-- The greatest residue is `-1`. -/
theorem cast_pred {n : ℕ} (positive : 0 < n) : ((n - 1 : ℕ) : ZMod n) = -1 := by
  rw [Nat.cast_sub positive, ZMod.natCast_self, Nat.cast_one, zero_sub]

/-! ## Inverses -/

/-- The algorithm ends at the greatest common divisor. -/
theorem bezout_fst (r₀ r₁ : ℕ) (s₀ s₁ : ℤ) : (bezout r₀ r₁ s₀ s₁).1 = Nat.gcd r₀ r₁ := by
  fun_induction bezout r₀ r₁ s₀ s₁ with
  | case1 r₀ s₀ s₁ => rw [Nat.gcd_zero_right]
  | case2 r₀ r₁ s₀ s₁ nonzero ih => rw [ih, Nat.gcd_comm r₁, ← Nat.gcd_rec, Nat.gcd_comm]

/-- **The invariant of the algorithm.**  Both remainders are their factors times one number `a`,
modulo any number for which they are so at the start. -/
theorem bezout_modEq {a modulus : ℤ} (r₀ r₁ : ℕ) (s₀ s₁ : ℤ)
    (h₀ : s₀ * a ≡ r₀ [ZMOD modulus]) (h₁ : s₁ * a ≡ r₁ [ZMOD modulus]) :
    (bezout r₀ r₁ s₀ s₁).2 * a ≡ (bezout r₀ r₁ s₀ s₁).1 [ZMOD modulus] := by
  fun_induction bezout r₀ r₁ s₀ s₁ with
  | case1 r₀ s₀ s₁ => exact h₀
  | case2 r₀ r₁ s₀ s₁ nonzero ih =>
      refine ih h₁ ?_
      -- The new remainder is made of the old ones as its factor is made of theirs.
      have remainder : ((r₀ % r₁ : ℕ) : ℤ) = r₀ - (r₀ / r₁ : ℕ) * r₁ := by
        have split : ((r₁ * (r₀ / r₁) + r₀ % r₁ : ℕ) : ℤ) = r₀ := by rw [Nat.div_add_mod]
        push_cast at split ⊢
        linarith
      rw [remainder, sub_mul, mul_assoc]
      exact h₀.sub (h₁.mul_left _)

/-- The algorithm as it is used for an inverse: the greatest common divisor, and a factor that
gives it modulo the modulus. -/
theorem bezout_spec (a modulus : ℕ) :
    (bezout modulus (a % modulus) 0 1).1 = Nat.gcd modulus a ∧
      (bezout modulus (a % modulus) 0 1).2 * a ≡ Nat.gcd modulus a [ZMOD modulus] := by
  have divisor : (bezout modulus (a % modulus) 0 1).1 = Nat.gcd modulus a := by
    rw [bezout_fst, Nat.gcd_comm, ← Nat.gcd_rec]
  refine ⟨divisor, ?_⟩
  rw [← divisor]
  apply bezout_modEq
  · rw [zero_mul]
    exact (Int.modEq_zero_iff_dvd.mpr dvd_rfl).symm
  · rw [one_mul, Int.natCast_mod]
    exact (Int.mod_modEq _ _).symm

/-- The residue of an integer, as a natural number, stands for the integer. -/
theorem toNat_emod_modEq (s : ℤ) {modulus : ℕ} (h : 0 < modulus) :
    (((s % modulus).toNat : ℕ) : ℤ) ≡ s [ZMOD modulus] := by
  rw [Int.toNat_of_nonneg (Int.emod_nonneg _ (by omega))]
  exact Int.mod_modEq _ _

/-- An inverse that is found is a residue, and the product with it is one. -/
theorem invMod_sound {a modulus v : ℕ} (hm : 0 < modulus) (h : invMod a modulus = some v) :
    v < modulus ∧ a * v ≡ 1 [MOD modulus] := by
  obtain ⟨divisor, factor⟩ := bezout_spec a modulus
  unfold invMod at h
  split at h
  · next s found =>
    rw [found] at divisor factor
    cases h
    refine ⟨by have := Int.emod_lt_of_pos s (Int.natCast_pos.mpr hm); omega, ?_⟩
    rw [← Int.natCast_modEq_iff, Nat.cast_mul, mul_comm]
    calc ((s % modulus).toNat : ℤ) * a
        ≡ s * a [ZMOD modulus] := (toNat_emod_modEq s hm).mul_right _
      _ ≡ Nat.gcd modulus a [ZMOD modulus] := factor
      _ = ((1 : ℕ) : ℤ) := by rw [← divisor]
  · cases h

/-- A number coprime to the modulus has an inverse. -/
theorem exists_invMod {a modulus : ℕ} (h : Nat.Coprime a modulus) :
    ∃ v, invMod a modulus = some v := by
  have divisor := (bezout_spec a modulus).1
  rw [Nat.gcd_comm, h] at divisor
  cases reached : bezout modulus (a % modulus) 0 1 with
  | mk r s =>
      rw [reached] at divisor
      cases divisor
      exact ⟨(s % modulus).toNat, by simp only [invMod, reached]⟩

/-- A positive number below a prime has an inverse modulo it. -/
theorem exists_invMod_of_prime {n a : ℕ} (prime : n.Prime) (positive : a ≠ 0) (small : a < n) :
    ∃ v, invMod a n = some v ∧ a * v ≡ 1 [MOD n] := by
  have coprime : Nat.Coprime a n := (Nat.coprime_of_lt_prime positive small prime).symm
  obtain ⟨v, found⟩ := exists_invMod coprime
  exact ⟨v, found, (invMod_sound prime.pos found).2⟩

/-- A number with an inverse is coprime to the modulus. -/
theorem coprime_of_mul_modEq_one {a b modulus : ℕ} (h : a * b ≡ 1 [MOD modulus]) :
    Nat.Coprime a modulus :=
  Nat.Coprime.coprime_mul_right (k := b) (by
    rw [Nat.coprime_iff_gcd_eq_one, h.gcd_eq, Nat.gcd_one_left])

/-- The inverse is the only residue with product one. -/
theorem invMod_eq_some_iff {a modulus v : ℕ} (hm : 0 < modulus) :
    invMod a modulus = some v ↔ v < modulus ∧ a * v ≡ 1 [MOD modulus] := by
  refine ⟨invMod_sound hm, fun ⟨small, product⟩ => ?_⟩
  have coprime := coprime_of_mul_modEq_one product
  obtain ⟨w, found⟩ := exists_invMod coprime
  obtain ⟨small', product'⟩ := invMod_sound hm found
  have same : w ≡ v [MOD modulus] :=
    Nat.ModEq.cancel_left_of_coprime coprime.symm (product'.trans product.symm)
  rw [found, same.eq_of_lt_of_lt small' small]

/-- The inverse of the negative is the negative of the inverse. -/
theorem invMod_sub {a modulus v : ℕ} (positive : 0 < a) (small : a < modulus)
    (h : invMod a modulus = some v) : invMod (modulus - a) modulus = some (modulus - v) := by
  have hm : 0 < modulus := Nat.zero_lt_of_lt small
  obtain ⟨v_lt, product⟩ := invMod_sound hm h
  have v_pos : 0 < v := by
    rw [Nat.pos_iff_ne_zero]
    rintro rfl
    rw [Nat.mul_zero, Nat.ModEq, Nat.zero_mod, Nat.mod_eq_of_lt (by omega)] at product
    exact zero_ne_one product
  refine (invMod_eq_some_iff hm).mpr ⟨Nat.sub_lt hm v_pos, ?_⟩
  rw [← ZMod.natCast_eq_natCast_iff] at product ⊢
  rw [← product]
  push_cast [Nat.cast_sub small.le, Nat.cast_sub v_lt.le]
  rw [ZMod.natCast_self]
  ring

/-- There is an inverse exactly for the numbers coprime to the modulus. -/
theorem exists_invMod_iff {a modulus : ℕ} (hm : 0 < modulus) :
    (∃ v, invMod a modulus = some v) ↔ Nat.Coprime a modulus :=
  ⟨fun ⟨_, h⟩ => coprime_of_mul_modEq_one (invMod_sound hm h).2, exists_invMod⟩

end PublicKeyCrypto
