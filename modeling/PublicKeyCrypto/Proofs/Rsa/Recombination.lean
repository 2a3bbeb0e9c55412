import PublicKeyCrypto.Proofs.Rsa.Consistent
import Mathlib

/-!
# Powers from the factors

The private operation raises modulo each factor, to an exponent that was reduced modulo the factor
less one, and puts the two powers together.  It is meant to be one power modulo the product.  For
numbers that are coprime to the modulus that is Fermat's theorem; for multiples of a factor it is
not.  Their power modulo the factor is zero, unless the reduced exponent is zero too, and then it
would be one.

So it is load-bearing that the private exponent is coprime to the factors less one: no reduced
exponent is zero, since the factors are odd (`mod_pred_ne_zero`), and then the reduction changes no
power (`pow_mod_pred_modEq`).

## Main Results

* `mod_pred_ne_zero` — an exponent that is not reduced to zero
* `crtPower_eq_pow_mod` — the private operation is one power modulo the product
-/

namespace PublicKeyCrypto.Rsa

/-- An exponent that is coprime to `p - 1` is not reduced to zero, since `p - 1` is not one. -/
theorem mod_pred_ne_zero {p d : ℕ} (odd : Odd p) (coprime : d.Coprime (p - 1)) :
    d % (p - 1) ≠ 0 := by
  intro zero
  have one : p - 1 = 1 := Nat.Coprime.eq_one_of_dvd coprime.symm (Nat.dvd_of_mod_eq_zero zero)
  obtain ⟨k, rfl⟩ := odd
  omega

/-- **One power modulo the product.**  For distinct odd primes there is an inverse of one modulo the
other, and a key that is made of them and of an exponent coprime to `(p - 1) * (q - 1)` computes the
power of every number, modulo the product; no difference is negative on the way.  Neither factor is
assumed to be the greater one, and the number may be a multiple of a factor or above the product. -/
theorem crtPower_eq_pow_mod {p q d : ℕ} (p_prime : p.Prime) (q_prime : q.Prime) (p_odd : Odd p)
    (q_odd : Odd q) (distinct : p ≠ q) (coprime : d.Coprime ((p - 1) * (q - 1))) :
    (∃ qinv, invMod q p = some qinv) ∧
    ∀ k : PrivateKey, k.p = p → k.q = q → k.dp = d % (p - 1) → k.dq = d % (q - 1) →
      invMod q p = some k.qinv → ∀ c, k.crtPower c = .ok (c ^ d % (p * q)) := by
  have factors : p.Coprime q := (Nat.coprime_primes p_prime q_prime).mpr distinct
  refine ⟨exists_invMod factors.symm, ?_⟩
  rintro k rfl rfl dp dq inverse c
  obtain ⟨m, found, small, modulo_p, modulo_q⟩ :=
    PrivateKey.crtPower_spec p_prime.pos q_prime.pos (invMod_sound p_prime.pos inverse).2 c
  have left_p : d % (k.p - 1) ≠ 0 :=
    mod_pred_ne_zero p_odd coprime.coprime_mul_right_right
  have left_q : d % (k.q - 1) ≠ 0 :=
    mod_pred_ne_zero q_odd coprime.coprime_mul_left_right
  rw [dp] at modulo_p
  rw [dq] at modulo_q
  have power : m ≡ c ^ d [MOD k.p * k.q] :=
    (Nat.modEq_and_modEq_iff_modEq_mul factors).mp
      ⟨modulo_p.trans (pow_mod_pred_modEq p_prime left_p c),
        modulo_q.trans (pow_mod_pred_modEq q_prime left_q c)⟩
  rw [found, ← Nat.mod_eq_of_lt small]
  exact congrArg Except.ok power

/-- The primes five and eleven with the exponent three. -/
def ascendingKey : PrivateKey where
  modulus := 55
  publicExponent := 27
  privateExponent := 3
  p := 5
  q := 11
  dp := 3
  dq := 3
  qinv := 1

/-- The same primes in the other order. -/
def descendingKey : PrivateKey := { ascendingKey with p := 11, q := 5, qinv := 9 }

/-- A multiple of five above the product.  With the smaller prime first, the power modulo the other
one is eight, which is above it, and the residue of eight is taken from zero with the prime
added. -/
theorem crtPower_eq_pow_mod_of_multiple :
    (Nat.Prime 5 ∧ Nat.Prime 11 ∧ Odd 5 ∧ Odd 11 ∧ 5 ≠ 11) ∧
      (Nat.Coprime 3 ((5 - 1) * (11 - 1)) ∧ Nat.Coprime 3 ((11 - 1) * (5 - 1))) ∧
      (invMod 11 5 = some 1 ∧ ascendingKey.crtPower 90 = .ok (90 ^ 3 % (5 * 11))) ∧
      (invMod 5 11 = some 9 ∧ descendingKey.crtPower 90 = .ok (90 ^ 3 % (11 * 5))) := by
  have five : Nat.Prime 5 := by norm_num
  have eleven : Nat.Prime 11 := by norm_num
  have odd : Odd 5 ∧ Odd 11 := by decide
  have coprime : Nat.Coprime 3 ((5 - 1) * (11 - 1)) := by decide
  have coprime' : Nat.Coprime 3 ((11 - 1) * (5 - 1)) := by decide
  have inverse : invMod 11 5 = some 1 := by cbv
  have inverse' : invMod 5 11 = some 9 := by cbv
  refine ⟨⟨five, eleven, odd.1, odd.2, by decide⟩, ⟨coprime, coprime'⟩, ⟨inverse, ?_⟩, inverse', ?_⟩
  · exact (crtPower_eq_pow_mod five eleven odd.1 odd.2 (by decide) coprime).2 _ rfl rfl rfl rfl
      inverse 90
  · exact (crtPower_eq_pow_mod eleven five odd.2 odd.1 (by decide) coprime').2 _ rfl rfl rfl rfl
      inverse' 90

end PublicKeyCrypto.Rsa
