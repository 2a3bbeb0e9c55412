import PublicKeyCrypto.Proofs.Random.Sampler
import Mathlib

/-!
# Probable primes

A number is tried against the small primes first.  That decides all numbers below 256, and all
multiples of a small prime; what is left are odd numbers whose prime factors are all greater, which
are prime below the square of 257 (`Undivided.prime_of_lt`).

The others are tested with random bases.  The definition of the strong test is textbook: with
`n - 1 = d * 2 ^ s` and `d` odd, the power of the base to `d` is one, or one of its first `s`
squares is `-1`.  The loop does not look at all of them.  It stops with a failure as soon as a
square is one, since all later squares are one too, and not `-1`, the modulus being greater than two
(`squaringsReachMinusOne_iff`).

A prime passes with every base.  By Fermat's theorem the last square is one, and modulo a prime one
has the two square roots `1` and `-1` only, so that the way down from the last square ends at `-1`
or at the power itself (`eq_one_or_exists_square_eq_neg_one`).

## Main Definitions

* `IsStrongProbablePrime` — the strong test, as it is defined
* `Undivided` — numbers that the small primes do not decide
* `Draw.successive` — draws one after the other

## Main Results

* `strongTest_iff` — the loop decides the strong test
* `isStrongProbablePrime_of_prime` — primes pass it
* `probable_primes` — which numbers are accepted
-/

namespace PublicKeyCrypto

/-! ## The strong test -/

/-- The number passes the strong test for the base `a`. -/
def IsStrongProbablePrime (n a : ℕ) : Prop :=
  ∃ d s, n - 1 = d * 2 ^ s ∧ Odd d ∧
    ((a : ZMod n) ^ d = 1 ∨ ∃ i < s, (a : ZMod n) ^ (d * 2 ^ i) = -1)

/-- The odd part and the exponent are found again, so that there is one such product only. -/
theorem oddPart_mul_two_pow {d : ℕ} (odd : Odd d) (s : ℕ) : oddPart (d * 2 ^ s) = (s, d) := by
  have positive := odd.pos
  induction s with
  | zero => rw [pow_zero, mul_one, oddPart, if_neg positive.ne', if_pos (Nat.odd_iff.mp odd)]
  | succ s ih =>
      have nonzero : d * 2 ^ (s + 1) ≠ 0 := (Nat.mul_pos positive (Nat.two_pow_pos _)).ne'
      have twice : d * 2 ^ (s + 1) = 2 * (d * 2 ^ s) := by ring
      rw [oddPart, if_neg nonzero, if_neg (by omega), twice,
        Nat.mul_div_cancel_left _ Nat.two_pos, ih]

/-- A residue is the greatest one if its number is `-1`. -/
theorem mod_eq_pred_iff {n : ℕ} (positive : 0 < n) (x : ℕ) :
    x % n = n - 1 ↔ (x : ZMod n) = -1 := by
  rw [← cast_pred positive, ZMod.natCast_eq_natCast_iff, Nat.ModEq,
    Nat.mod_eq_of_lt (Nat.sub_one_lt_of_lt positive)]

/-- **The loop of squarings** finds whether one of the next squares is `-1`.  A square that is one
ends it without a loss. -/
theorem squaringsReachMinusOne_iff {n : ℕ} (large : 2 < n) (squarings x : ℕ) :
    squaringsReachMinusOne n squarings x = true ↔
      ∃ i < squarings, (x : ZMod n) ^ 2 ^ (i + 1) = -1 := by
  have := Fact.mk large
  induction squarings generalizing x with
  | zero => simp [squaringsReachMinusOne]
  | succ squarings ih =>
      have square : ((x * x : ℕ) : ZMod n) = (x : ZMod n) ^ 2 ^ (0 + 1) := by
        rw [Nat.cast_mul, ← pow_two, zero_add, pow_one]
      have later (i : ℕ) :
          ((x * x % n : ℕ) : ZMod n) ^ 2 ^ (i + 1) = (x : ZMod n) ^ 2 ^ (i + 1 + 1) := by
        rw [ZMod.natCast_mod, square, ← pow_mul, ← pow_add, Nat.add_comm (0 + 1)]
      rw [squaringsReachMinusOne, Nat.exists_lt_succ_left]
      split
      · next reached =>
        rw [mod_eq_pred_iff (by omega), square] at reached
        exact iff_of_true rfl (.inl reached)
      split
      · next one =>
        refine iff_of_false Bool.false_ne_true ?_
        rintro (reached | ⟨i, -, reached⟩)
        · rw [mod_eq_one_iff (by omega), square, reached] at one
          exact ZMod.neg_one_ne_one one
        · rw [← later, one, Nat.cast_one, one_pow] at reached
          exact ZMod.neg_one_ne_one reached.symm
      · next missed _ =>
        rw [mod_eq_pred_iff (by omega), square] at missed
        rw [or_iff_right missed]
        refine (ih (x * x % n)).trans ?_
        simp only [later]

/-- **The strong test**, for an odd number with a given odd part. -/
theorem strongTest_iff {n d s : ℕ} (large : 2 < n) (odd_n : Odd n) (split : n - 1 = d * 2 ^ s)
    (odd : Odd d) (a : ℕ) :
    strongTest n a = true ↔
      (a : ZMod n) ^ d = 1 ∨ ∃ i < s, (a : ZMod n) ^ (d * 2 ^ i) = -1 := by
  have even : (d * 2 ^ s) % 2 = 0 := by
    rw [← split]
    have := Nat.odd_iff.mp odd_n
    omega
  cases s with
  | zero =>
      rw [pow_zero, mul_one, Nat.odd_iff.mp odd] at even
      cases even
  | succ s =>
      have power (i : ℕ) : ((powMod a d n : ℕ) : ZMod n) ^ 2 ^ i = (a : ZMod n) ^ (d * 2 ^ i) := by
        rw [powMod_eq, ZMod.natCast_mod, Nat.cast_pow, pow_mul]
      have one : powMod a d n = 1 ↔ (a : ZMod n) ^ d = 1 := by
        rw [powMod_eq, mod_eq_one_iff (by omega), Nat.cast_pow]
      have negative : powMod a d n = n - 1 ↔ (a : ZMod n) ^ (d * 2 ^ 0) = -1 := by
        rw [powMod_eq, mod_eq_pred_iff (by omega), Nat.cast_pow, pow_zero, mul_one]
      rw [strongTest, split, oddPart_mul_two_pow odd]
      simp only [Bool.or_eq_true, decide_eq_true_eq, Nat.add_one_sub_one]
      rw [← split, squaringsReachMinusOne_iff large, Nat.exists_lt_succ_left, one, negative,
        or_assoc]
      simp only [power]

/-- Every positive number has an odd part. -/
theorem exists_eq_mul_two_pow {n : ℕ} (nonzero : n ≠ 0) : ∃ d s, n = d * 2 ^ s ∧ Odd d := by
  obtain ⟨s, d, odd, product⟩ := Nat.exists_eq_two_pow_mul_odd nonzero
  exact ⟨d, s, by rw [product, mul_comm], odd⟩

/-- It does not matter which odd part is taken, since there is one only. -/
theorem strongTest_eq_true_iff {n : ℕ} (large : 2 < n) (odd : Odd n) (a : ℕ) :
    strongTest n a = true ↔ IsStrongProbablePrime n a := by
  constructor
  · intro passed
    obtain ⟨d, s, split, odd_d⟩ := exists_eq_mul_two_pow (n := n - 1) (by omega)
    exact ⟨d, s, split, odd_d, (strongTest_iff large odd split odd_d a).mp passed⟩
  · rintro ⟨d, s, split, odd_d, power⟩
    exact (strongTest_iff large odd split odd_d a).mpr power

/-- A root of one whose order is a power of two is one, or one of its squares is `-1`.  The
induction goes down from the last square. -/
theorem eq_one_or_exists_square_eq_neg_one {R : Type*} [CommRing R] [IsDomain R] {x : R} {s : ℕ}
    (root : x ^ 2 ^ s = 1) : x = 1 ∨ ∃ i < s, x ^ 2 ^ i = -1 := by
  induction s with
  | zero => exact .inl (by rwa [pow_zero, pow_one] at root)
  | succ s ih =>
      rw [pow_succ, pow_mul, pow_two, mul_self_eq_one_iff] at root
      rcases root with one | negative
      · refine (ih one).imp_right ?_
        rintro ⟨i, before, square⟩
        exact ⟨i, before.trans (Nat.lt_succ_self s), square⟩
      · exact .inr ⟨s, Nat.lt_succ_self s, negative⟩

/-- **Primes pass the strong test** for every base that is not a multiple of them. -/
theorem isStrongProbablePrime_of_prime {p a : ℕ} (prime : p.Prime) (free : ¬p ∣ a) :
    IsStrongProbablePrime p a := by
  have := Fact.mk prime
  obtain ⟨d, s, split, odd⟩ := exists_eq_mul_two_pow (Nat.sub_ne_zero_of_lt prime.one_lt)
  have nonzero : (a : ZMod p) ≠ 0 := by rwa [Ne, ZMod.natCast_eq_zero_iff]
  have root : ((a : ZMod p) ^ d) ^ 2 ^ s = 1 := by
    rw [← pow_mul, ← split, ZMod.pow_card_sub_one_eq_one nonzero]
  refine ⟨d, s, split, odd, ?_⟩
  simp only [pow_mul]
  exact eq_one_or_exists_square_eq_neg_one root

/-! ## Trial division -/

/-- A number is prime if it has no prime factor but itself up to its square root. -/
theorem prime_of_small_factors {n bound : ℕ} (large : 1 < n) (below : n < bound ^ 2)
    (only : ∀ f < bound, f.Prime → f ∣ n → f = n) : n.Prime := by
  by_contra composite
  have factor : n.minFac.Prime := Nat.minFac_prime (by omega)
  have square : n.minFac ^ 2 ≤ n := Nat.minFac_sq_le_self (by omega) composite
  have small : n.minFac < bound := lt_of_pow_lt_pow_left₀ 2 (Nat.zero_le bound) (by omega)
  have same := only n.minFac small factor (Nat.minFac_dvd n)
  rw [same] at factor
  exact composite factor

/-- Numbers of one byte are prime if they have no divisor of four bits. -/
theorem prime_iff_of_lt {p : ℕ} (small : p < 256) :
    p.Prime ↔ 2 ≤ p ∧ ∀ m < 16, 2 ≤ m → m < p → ¬m ∣ p := by
  constructor
  · intro prime
    refine ⟨prime.two_le, fun m _ large less divides => ?_⟩
    rcases prime.eq_one_or_self_of_dvd m divides with one | same
    · omega
    · omega
  · rintro ⟨large, free⟩
    have square : p < 16 ^ 2 := small
    refine prime_of_small_factors large square fun f short prime divides => ?_
    by_contra other
    have less : f < p := lt_of_le_of_ne (Nat.le_of_dvd (by omega) divides) other
    exact free f short prime.two_le less divides

/-- The list is that of all odd primes of one byte. -/
theorem mem_smallOddPrimes_iff {p : ℕ} : p ∈ smallOddPrimes ↔ p < 256 ∧ p.Prime ∧ p ≠ 2 := by
  have bounded : ∀ p ∈ smallOddPrimes, p < 256 := by decide
  have byDivisors : ∀ p < 256,
      p ∈ smallOddPrimes ↔ (2 ≤ p ∧ ∀ m < 16, 2 ≤ m → m < p → ¬m ∣ p) ∧ p ≠ 2 := by
    decide +kernel
  constructor
  · intro listed
    have small := bounded p listed
    rw [prime_iff_of_lt small]
    exact ⟨small, (byDivisors p small).mp listed⟩
  · rintro ⟨small, prime⟩
    rw [prime_iff_of_lt small] at prime
    exact (byDivisors p small).mpr prime

/-- The verdicts of trial division. -/
theorem trialDivision_cases (n : ℕ) (primes : List ℕ) :
    (trialDivision n primes = some true ∧ n ∈ primes) ∨
    (trialDivision n primes = some false ∧ ∃ p ∈ primes, p ∣ n ∧ n ≠ p) ∨
    (trialDivision n primes = none ∧ ∀ p ∈ primes, ¬p ∣ n) := by
  induction primes with
  | nil => exact .inr (.inr ⟨rfl, nofun⟩)
  | cons p rest ih =>
      rw [trialDivision]
      split
      · next same => exact .inl ⟨rfl, same ▸ List.mem_cons_self⟩
      · next other =>
        split
        · next multiple =>
          exact .inr (.inl ⟨rfl, p, List.mem_cons_self, Nat.dvd_of_mod_eq_zero multiple, other⟩)
        · next free =>
          rcases ih with ⟨verdict, listed⟩ | ⟨verdict, f, listed, divides, ne⟩ | ⟨verdict, others⟩
          · exact .inl ⟨verdict, List.mem_cons_of_mem p listed⟩
          · exact .inr (.inl ⟨verdict, f, List.mem_cons_of_mem p listed, divides, ne⟩)
          · refine .inr (.inr ⟨verdict, List.forall_mem_cons.mpr ⟨?_, others⟩⟩)
            rwa [Nat.dvd_iff_mod_eq_zero]

/-- The small primes do not decide the number: it is odd, and they do not divide it. -/
structure Undivided (n : ℕ) : Prop where
  large : 256 < n
  odd : Odd n
  free : ∀ f < 256, f.Prime → ¬f ∣ n

/-- Trial division by the odd primes is enough for odd numbers, and then no small number is left. -/
theorem undivided_of_forall_not_dvd {n : ℕ} (large : 1 < n) (odd : Odd n)
    (free : ∀ p ∈ smallOddPrimes, ¬p ∣ n) : Undivided n := by
  have small_free : ∀ f < 256, f.Prime → ¬f ∣ n := by
    intro f small prime divides
    have ne : f ≠ 2 := by
      rintro rfl
      exact Nat.not_even_iff_odd.mpr odd (even_iff_two_dvd.mpr divides)
    exact free f (mem_smallOddPrimes_iff.mpr ⟨small, prime, ne⟩) divides
  refine ⟨?_, odd, small_free⟩
  by_contra small
  have below : n < 256 := by
    have := Nat.odd_iff.mp odd
    omega
  exact small_free n.minFac ((Nat.minFac_le (by omega)).trans_lt below)
    (Nat.minFac_prime (by omega)) (Nat.minFac_dvd n)

/-- The least composite number that is not decided is the square of 257. -/
theorem Undivided.prime_of_lt {n : ℕ} (h : Undivided n) (small : n < 257 ^ 2) : n.Prime := by
  have large := h.large
  refine prime_of_small_factors (by omega) small fun f less prime divides => ?_
  have not_power : f ≠ 256 := by
    rintro rfl
    revert prime
    norm_num
  exact absurd divides (h.free f (by omega) prime)

/-! ## Random bases -/

namespace Draw

section Successive

variable {α : Type} {x : Draw α} {tape : Tape} {patience start stop : ℕ}

/-- Draws one after the other, as many as the counter says. -/
def successive (x : Draw α) : (count : ℕ) → Draw (List α)
  | 0 => pure []
  | count + 1 => do
    let a ← x
    return a :: (← successive x count)

/-- One draw, and the draws after it. -/
theorem run_successive_succ_eq_ok_iff {count : ℕ} {drawn : List α} :
    (successive x (count + 1)).run tape patience start = .ok (drawn, stop) ↔
      ∃ a middle rest, x.run tape patience start = .ok (a, middle) ∧
        (successive x count).run tape patience middle = .ok (rest, stop) ∧ drawn = a :: rest := by
  rw [successive, run_bind_eq_ok]
  constructor
  · rintro ⟨a, middle, first, others⟩
    obtain ⟨rest, last, others, same⟩ := run_bind_eq_ok.mp others
    cases same
    exact ⟨a, middle, rest, first, others, rfl⟩
  · rintro ⟨a, middle, rest, first, others, rfl⟩
    exact ⟨a, middle, first, run_bind_eq_ok.mpr ⟨rest, stop, others, rfl⟩⟩

end Successive

/-- **The strong tests** of a run, by the bases that successive draws give.  A base that fails ends
the run in front of the others.  The induction is on the bases. -/
theorem run_passesStrongTests {n count : ℕ} {tape : Tape} {patience start stop : ℕ}
    {bases : List ℕ}
    (drawn : (successive (inRange 2 (n - 2)) count).run tape patience start = .ok (bases, stop)) :
    ∃ verdict stop', (passesStrongTests n count).run tape patience start = .ok (verdict, stop') ∧
      (verdict = true ↔ ∀ a ∈ bases, strongTest n a = true) := by
  induction count generalizing start bases with
  | zero =>
      cases drawn
      exact ⟨true, _, rfl, iff_of_true rfl nofun⟩
  | succ count ih =>
      obtain ⟨a, middle, rest, first, others, rfl⟩ := run_successive_succ_eq_ok_iff.mp drawn
      obtain ⟨verdict, stop', run, passed⟩ := ih others
      rw [List.forall_mem_cons]
      by_cases base : strongTest n a = true
      · refine ⟨verdict, stop', run_bind_eq_ok.mpr ⟨a, middle, first, ?_⟩, ?_⟩
        · rwa [if_pos base]
        · rw [passed, and_iff_right base]
      · refine ⟨false, middle, run_bind_eq_ok.mpr ⟨a, middle, first, ?_⟩, ?_⟩
        · rw [if_neg base]
          rfl
        · exact iff_of_false Bool.false_ne_true fun all => base all.1

/-- The outcomes of the test, by what trial division says.  Numbers below four have no range of
bases, and they are decided by their size. -/
theorem isProbablePrime_cases (n count : ℕ) :
    (n < 256 ∧ n.Prime ∧ isProbablePrime n count = pure true) ∨
    (Undivided n ∧ isProbablePrime n count = passesStrongTests n count) ∨
    (¬n.Prime ∧ ¬Undivided n ∧ isProbablePrime n count = pure false) := by
  rw [isProbablePrime]
  split
  · next small =>
    refine .inr (.inr ⟨fun prime => ?_, fun h => ?_, rfl⟩)
    · have := prime.two_le
      omega
    · have := h.large
      omega
  split
  · next large short =>
    rw [bitLength_le_iff] at short
    refine .inl ⟨by omega, ?_, rfl⟩
    obtain rfl | rfl : n = 2 ∨ n = 3 := by omega
    · exact Nat.prime_two
    · exact Nat.prime_three
  split
  · next large long even =>
    rw [bitLength_le_iff] at long
    refine .inr (.inr ⟨fun prime => ?_, fun h => ?_, rfl⟩)
    · have := prime.eq_two_or_odd
      omega
    · have := Nat.odd_iff.mp h.odd
      omega
  · next large long odd =>
    rcases trialDivision_cases n smallOddPrimes with
      ⟨verdict, listed⟩ | ⟨verdict, f, listed, divides, ne⟩ | ⟨verdict, free⟩
    · obtain ⟨small, prime, -⟩ := mem_smallOddPrimes_iff.mp listed
      exact .inl ⟨small, prime, by rw [verdict]⟩
    · obtain ⟨small, prime, -⟩ := mem_smallOddPrimes_iff.mp listed
      refine .inr (.inr
        ⟨fun prime_n => ?_, fun h => h.free f small prime divides, by rw [verdict]⟩)
      exact ne ((Nat.prime_dvd_prime_iff_eq prime prime_n).mp divides).symm
    · have undivided : Undivided n :=
        undivided_of_forall_not_dvd (by omega) (Nat.odd_iff.mpr (by omega)) free
      exact .inr (.inl ⟨undivided, by rw [verdict]⟩)

end Draw

open Draw in
/-- **Which numbers are accepted as primes.**  On every tape that gives as many bases as are asked
for, the test gives a verdict, and accepts exactly the primes below 256, and the odd numbers above
without smaller prime factors that pass the strong test for each of the bases.  So no prime is
rejected on any tape, and what is accepted below the square of 257 is prime, even without any
bases. -/
theorem probable_primes (n count : ℕ) :
    (∀ tape patience start bases middle,
      (256 < n → (successive (inRange 2 (n - 2)) count).run tape patience start =
        .ok (bases, middle)) →
      ∃ verdict stop,
        (isProbablePrime n count).run tape patience start = .ok (verdict, stop) ∧
        (verdict = true ↔ n < 256 ∧ n.Prime ∨
          (256 < n ∧ Odd n ∧ ∀ f < 256, f.Prime → ¬f ∣ n) ∧
            ∀ a ∈ bases, IsStrongProbablePrime n a)) ∧
    (n.Prime → (isProbablePrime n count).Always (· = true)) ∧
    (n < 257 ^ 2 → (isProbablePrime n count).Always fun verdict => verdict = true → n.Prime) := by
  rcases isProbablePrime_cases n count with
    ⟨small, prime, test⟩ | ⟨undivided, test⟩ | ⟨composite, divided, test⟩
  · rw [test]
    refine ⟨?_, fun _ => ensures_pure rfl, fun _ => ensures_pure fun _ => prime⟩
    intro tape patience start bases middle _
    exact ⟨true, start, rfl, iff_of_true rfl (.inl ⟨small, prime⟩)⟩
  · have large := undivided.large
    rw [test]
    refine ⟨?_, fun prime => ?_, fun small => ?_⟩
    · intro tape patience start bases middle drawn
      obtain ⟨verdict, stop, run, passed⟩ := run_passesStrongTests (drawn large)
      refine ⟨verdict, stop, run, ?_⟩
      simp only [strongTest_eq_true_iff (show 2 < n by omega) undivided.odd] at passed
      rw [passed, or_iff_right (by omega), and_iff_right ⟨large, undivided.odd, undivided.free⟩]
    · refine (passesStrongTests_always (by omega) count).mono fun verdict passed => passed ?_
      intro a positive below
      have free : ¬n ∣ a := Nat.not_dvd_of_pos_of_lt (by omega) (by omega)
      exact (strongTest_eq_true_iff (by omega) undivided.odd a).mpr
        (isStrongProbablePrime_of_prime prime free)
    · exact (passesStrongTests_always (by omega) count).mono
        fun _ _ _ => undivided.prime_of_lt small
  · rw [test]
    refine ⟨?_, fun prime => absurd prime composite, fun _ => ensures_pure nofun⟩
    intro tape patience start bases middle _
    refine ⟨false, start, rfl, iff_of_false Bool.false_ne_true ?_⟩
    rintro (⟨-, prime⟩ | ⟨⟨large, odd, free⟩, -⟩)
    · exact composite prime
    · exact divided ⟨large, odd, free⟩

/-- A tape that begins with 2070 over three bytes. -/
def tape2070 : Tape := fun i => [0, 8, 0x16].getD i 0

open Draw in
/-- The square of 257 is accepted on a tape with the base 2072, of which the square is `-1`; so the
bound is the greatest possible.  The prime 65537 below it is accepted on every tape, and one run
without bases shows that it is prime. -/
theorem probable_primes_square_of_257 :
    ((successive (inRange 2 66047) 1).run tape2070 1 0 = .ok ([2072], 3) ∧
      ∃ stop, (isProbablePrime 66049 1).run tape2070 1 0 = .ok (true, stop) ∧
        ¬Nat.Prime 66049) ∧
    (Nat.Prime 65537 ∧ (isProbablePrime 65537 5).Always (· = true)) ∧
    65537 < 257 ^ 2 ∧ (isProbablePrime 65537 0).run (fun _ => 0) 1 0 = .ok (true, 0) := by
  have candidate : (below 66046).run tape2070 1 0 = .ok (2070, 3) := by
    have size : bitLength 66046 = 17 := by decide +kernel
    have number : (number 17).run tape2070 1 0 = .ok (2070, 3) := rfl
    rw [below, if_neg (by decide), size]
    exact run_firstAccepted Nat.one_pos number (if_pos (by decide))
  have base : (inRange 2 66047).run tape2070 1 0 = .ok (2072, 3) :=
    (run_inRange_eq_ok_iff (by decide)).mpr ⟨2070, candidate, rfl⟩
  have drawn : (successive (inRange 2 66047) 1).run tape2070 1 0 = .ok ([2072], 3) :=
    run_successive_succ_eq_ok_iff.mpr ⟨2072, 3, [], base, rfl, rfl⟩
  have run : (isProbablePrime 65537 0).run (fun _ => 0) 1 0 = .ok (true, 0) := rfl
  have small : 65537 < 257 ^ 2 := by norm_num
  have prime : Nat.Prime 65537 := ((probable_primes 65537 0).2.2 small).value run rfl
  refine ⟨⟨drawn, ?_⟩, ⟨prime, (probable_primes 65537 5).2.1 prime⟩, small, run⟩
  obtain ⟨verdict, stop, accepted, passed⟩ :=
    (probable_primes 66049 1).1 _ 1 0 [2072] 3 fun _ => drawn
  have square : 66049 = 257 ^ 2 := by norm_num
  have free : ∀ f < 256, f.Prime → ¬f ∣ 66049 := by
    intro f less factor divides
    rw [square] at divides
    have same : f = 257 :=
      (Nat.prime_dvd_prime_iff_eq factor (by norm_num)).mp (factor.dvd_of_dvd_pow divides)
    omega
  have minus_one : (2072 : ZMod 66049) ^ 2 = -1 := by decide
  have strong : IsStrongProbablePrime 66049 2072 := by
    refine ⟨129, 9, by norm_num, by decide, .inr ⟨1, by norm_num, ?_⟩⟩
    rw [pow_one, mul_comm, pow_mul]
    push_cast
    rw [minus_one]
    exact Odd.neg_one_pow (by decide)
  have verdict_eq : verdict = true :=
    passed.mpr (.inr ⟨⟨by norm_num, by decide, free⟩, List.forall_mem_singleton.mpr strong⟩)
  refine ⟨stop, by rw [accepted, verdict_eq], ?_⟩
  rw [square]
  exact Nat.Prime.not_prime_pow le_rfl

end PublicKeyCrypto
