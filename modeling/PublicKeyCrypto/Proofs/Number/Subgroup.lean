import PublicKeyCrypto.Proofs.Number.Modular
import Mathlib

/-!
# Powers in a subgroup of prime order

A generator is checked by one power: its power with the order as exponent is one.  If the order is
prime and the generator is not one, it is the order in the sense of group theory as well, whether or
not the modulus is prime.  Then powers with exponents below the order are different from each other,
and a power with a positive exponent is none of `0`, `1` and, if the order is odd, `-1`.

## Main Results

* `orderOf_root` — the order of a root of unity
* `root_pow` — powers with positive exponents below the order
* `root_le` — no root of odd order is `-1`
-/

namespace PublicKeyCrypto

variable {p q g : ℕ}

/-- A root of unity of prime order other than one has this order. -/
theorem orderOf_root (prime : q.Prime) (range : 1 < g ∧ g < p) (root : g ^ q ≡ 1 [MOD p]) :
    orderOf (g : ZMod p) = q := by
  have : Fact q.Prime := ⟨prime⟩
  refine orderOf_eq_prime ?_ fun one => ?_
  · have power := (ZMod.natCast_eq_natCast_iff _ _ _).mpr root
    rwa [Nat.cast_pow, Nat.cast_one] at power
  · have same : g ≡ 1 [MOD p] :=
      (ZMod.natCast_eq_natCast_iff _ _ _).mp (one.trans Nat.cast_one.symm)
    exact absurd (same.eq_of_lt_of_lt range.2 (range.1.trans range.2)) range.1.ne'

/-- The powers with exponents below the order are different. -/
theorem root_pow_inj (prime : q.Prime) (range : 1 < g ∧ g < p) (root : g ^ q ≡ 1 [MOD p]) {a b : ℕ}
    (ha : a < q) (hb : b < q) (same : g ^ a % p = g ^ b % p) : a = b := by
  have cast := (ZMod.natCast_eq_natCast_iff _ _ _).mpr (show _ ≡ _ [MOD p] from same)
  rw [Nat.cast_pow, Nat.cast_pow] at cast
  rw [← orderOf_root prime range root] at ha hb
  exact pow_injOn_Iio_orderOf ha hb cast

/-- **Powers of a root** with positive exponents below the order are roots other than one. -/
theorem root_pow (prime : q.Prime) (range : 1 < g ∧ g < p) (root : g ^ q ≡ 1 [MOD p]) {x : ℕ}
    (positive : 1 ≤ x) (small : x ≤ q - 1) :
    (1 < g ^ x % p ∧ g ^ x % p < p) ∧ (g ^ x % p) ^ q ≡ 1 [MOD p] := by
  have large := prime.two_le
  have one_lt_p := range.1.trans range.2
  have power : (g ^ x % p) ^ q ≡ 1 [MOD p] := by
    calc (g ^ x % p) ^ q
        ≡ (g ^ x) ^ q [MOD p] := (Nat.mod_modEq _ _).pow _
      _ = (g ^ q) ^ x := by rw [← pow_mul, ← pow_mul, mul_comm]
      _ ≡ 1 ^ x [MOD p] := root.pow _
      _ = 1 := one_pow _
  have ne_zero : g ^ x % p ≠ 0 := by
    intro zero
    rw [zero, zero_pow (by omega), Nat.ModEq, Nat.zero_mod, Nat.mod_eq_of_lt one_lt_p] at power
    exact zero_ne_one power
  have ne_one : g ^ x % p ≠ 1 := by
    intro one
    have : x = 0 := root_pow_inj prime range root (by omega) (by omega) (by
      rw [one, pow_zero, Nat.mod_eq_of_lt one_lt_p])
    omega
  exact ⟨⟨by omega, Nat.mod_lt _ (Nat.zero_lt_of_lt one_lt_p)⟩, power⟩

/-- A root of odd order is not `-1`. -/
theorem root_le (odd : q % 2 = 1) {y : ℕ} (range : 1 < y ∧ y < p) (root : y ^ q ≡ 1 [MOD p]) :
    y ≤ p - 2 := by
  by_contra above
  -- The power of `-1` is `-1`, and it would be one.
  have negative : (y : ZMod p) = -1 := by
    rw [show y = p - 1 by omega, cast_pred (by omega)]
  have power := (ZMod.natCast_eq_natCast_iff _ _ _).mpr root
  rw [Nat.cast_pow, negative, (Nat.odd_iff.mpr odd).neg_one_pow, ← negative,
    ZMod.natCast_eq_natCast_iff] at power
  exact absurd (power.eq_of_lt_of_lt range.2 (range.1.trans range.2)) range.1.ne'

end PublicKeyCrypto
