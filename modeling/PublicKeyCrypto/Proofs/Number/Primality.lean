import PublicKeyCrypto.Number.Primality
import PublicKeyCrypto.Proofs.Number.Encoding
import PublicKeyCrypto.Proofs.Number.Modular
import PublicKeyCrypto.Proofs.Random.Outcomes

/-!
# Sizes of random primes

The sampler of probable primes draws a number of the wanted bit length and sets its lowest bit and
its two highest ones.  So whatever the tests let through, it is an odd number in the upper quarter
of the numbers of that length; and the tests themselves break no precondition, since every range
they draw from has elements.

The two highest bits are set for the sake of products.  Three quarters of two powers of two multiply
to more than half of the product of the powers, so the length of the product is the sum of the
lengths (`bitLength_mul`).

## Main Definitions

* `InUpperQuarter` — the numbers of a bit length whose two highest bits are set

## Main Results

* `Draw.prime_always` — a random prime is odd and in the upper quarter
* `bitLength_mul` — sizes add up when numbers of upper quarters are multiplied
* `prime_of_primitive_root` — a certificate of primality
-/

namespace PublicKeyCrypto

/-! ## The upper quarter -/

/-- The number has the given bit length, and its two highest bits are set. -/
def InUpperQuarter (bits n : ℕ) : Prop := 3 * 2 ^ (bits - 2) ≤ n ∧ n < 2 ^ bits

namespace InUpperQuarter

variable {bits n : ℕ}

/-- Two bits that are set are a number of the upper quarter, whatever the bits below them. -/
theorem of_or (h : 2 ≤ bits) {c : ℕ} (small : c < 2 ^ bits) :
    InUpperQuarter bits (c ||| (1 <<< (bits - 1) ||| 1 <<< (bits - 2)) ||| 1) := by
  have below (i : ℕ) (hi : i < bits) : 2 ^ i < 2 ^ bits := Nat.pow_lt_pow_right (by decide) hi
  have top : 1 <<< (bits - 1) ||| 1 <<< (bits - 2) = 3 * 2 ^ (bits - 2) := by
    have next : 2 ^ (bits - 1) = 2 * 2 ^ (bits - 2) := by rw [← pow_succ']; congr 1; omega
    have disjoint := Nat.two_pow_add_eq_or_of_lt (i := bits - 1) (b := 2 ^ (bits - 2))
      (Nat.pow_lt_pow_right (by decide) (by omega)) 1
    rw [mul_one] at disjoint
    rw [Nat.one_shiftLeft, Nat.one_shiftLeft, ← disjoint, next]
    ring
  constructor
  · calc 3 * 2 ^ (bits - 2) = 1 <<< (bits - 1) ||| 1 <<< (bits - 2) := top.symm
      _ ≤ c ||| (1 <<< (bits - 1) ||| 1 <<< (bits - 2)) := Nat.right_le_or
      _ ≤ _ := Nat.left_le_or
  · refine Nat.or_lt_two_pow (Nat.or_lt_two_pow small (Nat.or_lt_two_pow ?_ ?_)) ?_
    · rw [Nat.one_shiftLeft]
      exact below _ (by omega)
    · rw [Nat.one_shiftLeft]
      exact below _ (by omega)
    · exact Nat.one_lt_two_pow (by omega)

theorem three_le (h : InUpperQuarter bits n) : 3 ≤ n :=
  le_trans (Nat.le_mul_of_pos_right 3 (Nat.two_pow_pos _)) h.1

end InUpperQuarter

/-- Numbers of upper quarters have a product whose length is the sum of their lengths. -/
theorem bitLength_mul {i j a b : ℕ} (hi : 2 ≤ i) (hj : 2 ≤ j) (ha : InUpperQuarter i a)
    (hb : InUpperQuarter j b) : bitLength (a * b) = i + j := by
  apply le_antisymm
  · rw [bitLength_le_iff, pow_add]
    exact Nat.mul_lt_mul'' ha.2 hb.2
  · by_contra short
    have small : a * b < 2 ^ (i + j - 1) := bitLength_le_iff.mp (by omega)
    have large : 2 ^ (i + j - 1) ≤ a * b :=
      calc 2 ^ (i + j - 1) = 8 * (2 ^ (i - 2) * 2 ^ (j - 2)) := by
            rw [show (8 : ℕ) = 2 ^ 3 from rfl, ← pow_add, ← pow_add]
            congr 1
            omega
        _ ≤ 9 * (2 ^ (i - 2) * 2 ^ (j - 2)) := Nat.mul_le_mul_right _ (by decide)
        _ = 3 * 2 ^ (i - 2) * (3 * 2 ^ (j - 2)) := by ring
        _ ≤ a * b := Nat.mul_le_mul ha.1 hb.1
    omega

/-! ## Certificates -/

/-- The test of Lucas, with powers by repeated squaring: `a` is a primitive root modulo `p`, where
every prime factor of `p - 1` is in the list. -/
theorem prime_of_primitive_root {p : ℕ} (a k : ℕ) (factors : List ℕ) (large : 1 < p)
    (primes : ∀ f ∈ factors, f.Prime) (complete : p - 1 ∣ factors.prod ^ k)
    (one : powMod a (p - 1) p = 1) (root : ∀ f ∈ factors, powMod a ((p - 1) / f) p ≠ 1) :
    p.Prime := by
  have power_eq_one (exponent : ℕ) :
      (a : ZMod p) ^ exponent = 1 ↔ powMod a exponent p = 1 := by
    rw [powMod_eq, mod_eq_one_iff large, Nat.cast_pow]
  refine lucas_primality p a ((power_eq_one _).mpr one) fun q prime divides power => ?_
  obtain ⟨f, listed, divides_f⟩ := (Prime.dvd_prod_iff prime.prime).mp
    (prime.dvd_of_dvd_pow (divides.trans complete))
  obtain rfl := (Nat.prime_dvd_prime_iff_eq prime (primes f listed)).mp divides_f
  exact root q listed ((power_eq_one _).mp power)

/-! ## The sampler -/

namespace Draw

/-- A number of a bit length. -/
theorem number_always (bits : ℕ) : (number bits).Always (· < 2 ^ bits) := by
  refine ensures_bind (ensures_bytes fun drawn length => ensures_pure ?_)
  rw [Bytes.value_clearTop (by omega), length, show
    8 * ((bits + 7) / 8) - (8 * ((bits + 7) / 8) - bits) = bits by omega]
  exact Nat.mod_lt _ (Nat.two_pow_pos _)

/-- A number below a positive bound. -/
theorem below_always {bound : ℕ} (h : 0 < bound) : (below bound).Always (· < bound) := by
  rw [below, if_neg (by omega)]
  refine ensures_firstAccepted rfl ((number_ensures _).mono fun k _ j accepted => ?_)
  split at accepted
  · next small =>
    cases accepted
    exact small
  · cases accepted

/-- A number of a range that is not empty. -/
theorem inRange_always {least greatest : ℕ} (h : least ≤ greatest) :
    (inRange least greatest).Always fun a => least ≤ a ∧ a ≤ greatest := by
  rw [inRange, if_neg (by omega)]
  refine ensures_bind ((below_always (by omega)).mono fun k small => ensures_pure ?_)
  omega

/-- The strong tests draw their bases from a range that is not empty, and fail only with a base of
this range. -/
theorem passesStrongTests_always {n : ℕ} (h : 4 ≤ n) (count : ℕ) :
    (passesStrongTests n count).Always fun verdict =>
      (∀ a, 2 ≤ a → a ≤ n - 2 → strongTest n a = true) → verdict = true := by
  induction count with
  | zero => exact ensures_pure fun _ => rfl
  | succ count ih =>
      refine ensures_bind ((inRange_always (by omega)).mono fun a range => ?_)
      split
      · exact ih
      · next failed => exact ensures_pure fun passed => absurd (passed a range.1 range.2) failed

/-- The test of a number for primality breaks no precondition, whatever the number. -/
theorem isProbablePrime_always (n count : ℕ) :
    (isProbablePrime n count).Always fun _ => True := by
  rw [isProbablePrime]
  by_cases large : 4 ≤ n
  · split
    · exact ensures_pure trivial
    split
    · exact ensures_pure trivial
    split
    · exact ensures_pure trivial
    split
    · exact ensures_pure trivial
    · exact (passesStrongTests_always large count).mono fun _ _ => trivial
  · -- Numbers below four are decided by their size.
    have short : bitLength n ≤ 2 := bitLength_le_iff.mpr (by omega)
    rw [if_pos short]
    split
    · exact ensures_pure trivial
    · exact ensures_pure trivial

/-- **Random primes.**  A random probable prime of at least three bits is odd, and its two highest
bits are set. -/
theorem prime_always {bits : ℕ} (h : 3 ≤ bits) (count : ℕ) :
    (prime bits count).Always fun c => c % 2 = 1 ∧ InUpperQuarter bits c := by
  rw [prime, if_neg (by omega)]
  refine ensures_untilDone rfl (fun _ => True) trivial fun _ _ => ?_
  refine ensures_bind ((number_always bits).mono fun drawn small => ?_)
  refine ensures_bind ((isProbablePrime_always _ count).mono fun verdict _ => ?_)
  split
  · exact ensures_pure ⟨Nat.or_mod_two_eq_one.mpr (.inr rfl),
      InUpperQuarter.of_or (by omega) small⟩
  · exact ensures_pure trivial

end Draw

end PublicKeyCrypto
