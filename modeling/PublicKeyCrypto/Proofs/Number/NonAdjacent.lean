import PublicKeyCrypto.Proofs.Number.Weight
import Mathlib

/-!
# The non-adjacent form

A number is written with the digits `0`, `1` and `-1` in many ways.  One of them has no two nonzero
digits side by side.  It is found from the last digit on: an even number ends with zero, and an odd
one with the digit that leaves a multiple of four, so that the next digit is a zero.

The weight of a number is defined without any digits, as the number of ones of `3 x ⊻ x`.  It obeys
the rules of the recoding all the same: the endings `01` and `11` count once, and the latter carries
(`nafWeight_four_mul_add_three`).  So it counts the nonzero digits of the form.

That the form has the fewest nonzero digits is then a property of the weight alone.  One more power
of two, with either sign and at any place, raises it by one at most (`signedWeight_add_two_pow_le`).

## Main Definitions

* `SignedDigits`, `SignedDigits.value`, `SignedDigits.weight` — signed binary digits
* `SignedDigits.IsNonAdjacent` — no two nonzero digits side by side, and the highest one not zero
* `nonAdjacent` — the recoding of a number

## Main Results

* `SignedDigits.IsNonAdjacent.eq_nonAdjacent` — there is only one non-adjacent form
* `signedWeight_sumOfPowers_le` — a sum of signed powers of two has at least as many as its weight
* `nafWeight_counts_digits` — what the weight of a number is
-/

namespace PublicKeyCrypto

/-! ## The ending `11` -/

/-- With the carry that an ending `11` leaves, the same places differ as without it in the next
number.  The induction is on the binary digits, and the carry goes on through ones. -/
theorem xor_carry (x : ℕ) : (3 * x + 2) ^^^ x = (3 * x + 3) ^^^ (x + 1) := by
  induction x using Nat.strong_induction_on with
  | _ x ih =>
      have last : ((3 * x + 2) ^^^ x) % 2 = ((3 * x + 3) ^^^ (x + 1)) % 2 := by
        rw [Nat.xor_mod_two_eq, Nat.xor_mod_two_eq]
        omega
      have others : ((3 * x + 2) ^^^ x) / 2 = ((3 * x + 3) ^^^ (x + 1)) / 2 := by
        rw [Nat.xor_div_two, Nat.xor_div_two]
        obtain ⟨y, rfl | rfl⟩ := Nat.even_or_odd' x
        · rw [show (3 * (2 * y) + 2) / 2 = (3 * (2 * y) + 3) / 2 by omega,
            show 2 * y / 2 = (2 * y + 1) / 2 by omega]
        · rw [show (3 * (2 * y + 1) + 2) / 2 = 3 * y + 2 by omega,
            show (2 * y + 1) / 2 = y by omega,
            show (3 * (2 * y + 1) + 3) / 2 = 3 * y + 3 by omega,
            show (2 * y + 1 + 1) / 2 = y + 1 by omega]
          exact ih y (by omega)
      rw [← Nat.div_add_mod ((3 * x + 2) ^^^ x) 2, last, others, Nat.div_add_mod]

/-- The digits `11` at the end count once, and carry. -/
theorem nafWeight_four_mul_add_three (x : ℕ) : nafWeight (4 * x + 3) = nafWeight (x + 1) + 1 := by
  have one : ((3 * (2 * x + 1) + 1) ^^^ (2 * x + 1)) % 2 = 1 := by
    rw [Nat.xor_mod_two_eq]
    omega
  have others : ((3 * (2 * x + 1) + 1) ^^^ (2 * x + 1)) / 2 = 3 * (x + 1) ^^^ (x + 1) := by
    rw [Nat.xor_div_two, show (3 * (2 * x + 1) + 1) / 2 = 3 * x + 2 by omega,
      show (2 * x + 1) / 2 = x by omega, xor_carry, Nat.mul_succ]
  rw [show 4 * x + 3 = 2 * (2 * x + 1) + 1 by ring, nafWeight_two_mul_add_one, popCount_eq, one,
    others, nafWeight, Nat.add_comm]

/-! ## Signed digits -/

/-- Binary digits with signs, the last one first. -/
abbrev SignedDigits := List SignType

namespace SignedDigits

/-- The number that is written. -/
def value : SignedDigits → ℤ
  | [] => 0
  | digit :: rest => digit + 2 * value rest

/-- The number of nonzero digits. -/
def weight (digits : SignedDigits) : ℕ := digits.countP (· ≠ 0)

/-- Of two digits side by side one is zero, and the highest digit is not. -/
structure IsNonAdjacent (digits : SignedDigits) : Prop where
  apart : digits.IsChain fun digit next => digit = 0 ∨ next = 0
  highest : digits.getLast? ≠ some 0

@[simp] theorem value_nil : value [] = 0 := rfl

@[simp] theorem value_cons (digit : SignType) (rest : SignedDigits) :
    value (digit :: rest) = digit + 2 * value rest := rfl

@[simp] theorem weight_nil : weight [] = 0 := rfl

@[simp] theorem weight_cons (digit : SignType) (rest : SignedDigits) :
    weight (digit :: rest) = weight rest + if digit = 0 then 0 else 1 := by
  simp [weight, List.countP_cons]

theorem digit_cases (digit : SignType) : digit = 0 ∨ digit = 1 ∨ digit = -1 := by
  cases digit <;> decide

namespace IsNonAdjacent

variable {digit : SignType} {rest : SignedDigits}

theorem nil : IsNonAdjacent [] := ⟨List.isChain_nil, nofun⟩

theorem cons_iff : IsNonAdjacent (digit :: rest) ↔
    IsNonAdjacent rest ∧ (∀ next ∈ rest.head?, digit = 0 ∨ next = 0) ∧
      (rest = [] → digit ≠ 0) := by
  have highest : (digit :: rest).getLast? ≠ some 0 ↔
      rest.getLast? ≠ some 0 ∧ (rest = [] → digit ≠ 0) := by
    rw [List.getLast?_cons]
    cases rest with
    | nil => simp
    | cons next others => simp [List.getLast?_cons]
  constructor
  · rintro ⟨apart, last⟩
    rw [List.isChain_cons] at apart
    rw [highest] at last
    exact ⟨⟨apart.2, last.1⟩, apart.1, last.2⟩
  · rintro ⟨⟨apart, last⟩, next, single⟩
    exact ⟨List.isChain_cons.mpr ⟨next, apart⟩, highest.mpr ⟨last, single⟩⟩

/-- Behind a nonzero digit an even number is written. -/
theorem even_rest (h : IsNonAdjacent (digit :: rest)) (nonzero : digit ≠ 0) :
    2 ∣ value rest := by
  cases rest with
  | nil => exact dvd_zero 2
  | cons next others =>
      have zero : next = 0 := ((cons_iff.mp h).2.1 next rfl).resolve_left nonzero
      rw [value_cons, zero, SignType.coe_zero, zero_add]
      exact dvd_mul_right 2 _

end IsNonAdjacent

end SignedDigits

/-! ## The recoding -/

/-- The non-adjacent form.  The last digit of an odd number is that which leaves a multiple of
four. -/
def nonAdjacent (x : ℕ) : SignedDigits :=
  if x = 0 then []
  else if x % 2 = 0 then 0 :: nonAdjacent (x / 2)
  else if x % 4 = 1 then 1 :: nonAdjacent (x / 2)
  else -1 :: nonAdjacent (x / 2 + 1)
termination_by x

open SignedDigits

theorem value_nonAdjacent (x : ℕ) : value (nonAdjacent x) = x := by
  fun_induction nonAdjacent x with
  | case1 => rfl
  | case2 x nonzero even ih =>
      rw [value_cons, ih, SignType.coe_zero]
      omega
  | case3 x nonzero odd one ih =>
      rw [value_cons, ih, SignType.coe_one]
      omega
  | case4 x nonzero odd three ih =>
      rw [value_cons, ih, SignType.coe_neg_one]
      omega

/-- An even number ends with zero. -/
theorem head?_nonAdjacent {x : ℕ} (even : x % 2 = 0) :
    ∀ digit ∈ (nonAdjacent x).head?, digit = 0 := by
  rw [nonAdjacent]
  split
  · nofun
  · rintro digit ⟨⟩
    rfl

theorem nonAdjacent_ne_nil {x : ℕ} (nonzero : x ≠ 0) : nonAdjacent x ≠ [] := by
  intro nil
  have value := value_nonAdjacent x
  rw [nil, value_nil] at value
  omega

/-- What is written behind an odd digit starts with zero, since the digit left a multiple of
four. -/
theorem isNonAdjacent_nonAdjacent (x : ℕ) : IsNonAdjacent (nonAdjacent x) := by
  fun_induction nonAdjacent x with
  | case1 => exact IsNonAdjacent.nil
  | case2 x nonzero even ih =>
      refine IsNonAdjacent.cons_iff.mpr ⟨ih, fun _ _ => .inl rfl, fun nil => ?_⟩
      exact absurd nil (nonAdjacent_ne_nil (by omega))
  | case3 x nonzero odd one ih =>
      exact IsNonAdjacent.cons_iff.mpr
        ⟨ih, fun next first => .inr (head?_nonAdjacent (by omega) next first), fun _ => by decide⟩
  | case4 x nonzero odd three ih =>
      exact IsNonAdjacent.cons_iff.mpr
        ⟨ih, fun next first => .inr (head?_nonAdjacent (by omega) next first), fun _ => by decide⟩

/-- Only the empty string has no nonzero digits. -/
theorem SignedDigits.IsNonAdjacent.eq_nil {digits : SignedDigits} (h : IsNonAdjacent digits)
    (zero : value digits = 0) : digits = [] := by
  induction digits with
  | nil => rfl
  | cons digit rest ih =>
      obtain ⟨tail, -, single⟩ := IsNonAdjacent.cons_iff.mp h
      rw [value_cons] at zero
      rcases digit_cases digit with rfl | rfl | rfl
      · rw [SignType.coe_zero] at zero
        exact absurd rfl (single (ih tail (by omega)))
      · rw [SignType.coe_one] at zero
        omega
      · rw [SignType.coe_neg_one] at zero
        omega

/-- The last digit of a positive number is found from its residue modulo four, since the digits
behind a nonzero one write an even number. -/
theorem SignedDigits.IsNonAdjacent.exists_cons {digits : SignedDigits} {x : ℕ}
    (h : IsNonAdjacent digits) (written : value digits = x) (nonzero : x ≠ 0) :
    ∃ rest, IsNonAdjacent rest ∧
      digits = (if x % 2 = 0 then 0 else if x % 4 = 1 then 1 else -1) :: rest := by
  cases digits with
  | nil =>
      rw [value_nil] at written
      omega
  | cons digit rest =>
      refine ⟨rest, (IsNonAdjacent.cons_iff.mp h).1, ?_⟩
      congr 1
      rw [value_cons] at written
      rcases digit_cases digit with rfl | rfl | rfl
      · rw [SignType.coe_zero] at written
        rw [if_pos (by omega)]
      · have even := h.even_rest (by decide)
        rw [SignType.coe_one] at written
        rw [if_neg (by omega), if_pos (by omega)]
      · have even := h.even_rest (by decide)
        rw [SignType.coe_neg_one] at written
        rw [if_neg (by omega), if_neg (by omega)]

/-- **There is one non-adjacent form** of a number. -/
theorem SignedDigits.IsNonAdjacent.eq_nonAdjacent {digits : SignedDigits} {x : ℕ}
    (h : IsNonAdjacent digits) (written : value digits = x) : digits = nonAdjacent x := by
  fun_induction nonAdjacent x generalizing digits with
  | case1 => exact h.eq_nil written
  | case2 x nonzero even ih =>
      obtain ⟨rest, tail, rfl⟩ := h.exists_cons written nonzero
      rw [if_pos even] at written ⊢
      rw [value_cons, SignType.coe_zero] at written
      rw [ih tail (by omega)]
  | case3 x nonzero odd one ih =>
      obtain ⟨rest, tail, rfl⟩ := h.exists_cons written nonzero
      rw [if_neg odd, if_pos one] at written ⊢
      rw [value_cons, SignType.coe_one] at written
      rw [ih tail (by omega)]
  | case4 x nonzero odd three ih =>
      obtain ⟨rest, tail, rfl⟩ := h.exists_cons written nonzero
      rw [if_neg odd, if_neg three] at written ⊢
      rw [value_cons, SignType.coe_neg_one] at written
      rw [ih tail (by omega)]

/-- **The weight counts digits**: the nonzero ones of the non-adjacent form. -/
theorem nafWeight_eq_weight (x : ℕ) : nafWeight x = weight (nonAdjacent x) := by
  fun_induction nonAdjacent x with
  | case1 => decide +kernel
  | case2 x nonzero even ih =>
      obtain ⟨y, rfl⟩ : ∃ y, x = 2 * y := ⟨x / 2, by omega⟩
      rw [weight_cons, ← ih, if_pos rfl, nafWeight_two_mul, Nat.mul_div_cancel_left _ Nat.two_pos,
        Nat.add_zero]
  | case3 x nonzero odd one ih =>
      obtain ⟨y, rfl⟩ : ∃ y, x = 4 * y + 1 := ⟨x / 4, by omega⟩
      rw [weight_cons, ← ih, if_neg (by decide), nafWeight_four_mul_add_one,
        show (4 * y + 1) / 2 = 2 * y by omega, nafWeight_two_mul]
  | case4 x nonzero odd three ih =>
      obtain ⟨y, rfl⟩ : ∃ y, x = 4 * y + 3 := ⟨x / 4, by omega⟩
      rw [weight_cons, ← ih, if_neg (by decide), nafWeight_four_mul_add_three,
        show (4 * y + 3) / 2 + 1 = 2 * (y + 1) by omega, nafWeight_two_mul]

/-! ## Sums of signed powers of two -/

/-- The weight of an integer is that of its absolute value. -/
def signedWeight (n : ℤ) : ℕ := nafWeight n.natAbs

@[simp] theorem signedWeight_natCast (x : ℕ) : signedWeight x = nafWeight x := rfl

theorem signedWeight_neg (n : ℤ) : signedWeight (-n) = signedWeight n := by
  rw [signedWeight, Int.natAbs_neg, signedWeight]

theorem signedWeight_two_mul (n : ℤ) : signedWeight (2 * n) = signedWeight n := by
  rw [signedWeight, Int.natAbs_mul, show Int.natAbs 2 = 2 from rfl, nafWeight_two_mul, signedWeight]

theorem signedWeight_four_mul_add_one (n : ℤ) :
    signedWeight (4 * n + 1) = signedWeight n + 1 := by
  obtain ⟨x, rfl | rfl⟩ := n.eq_nat_or_neg
  · rw [signedWeight, show (4 * (x : ℤ) + 1).natAbs = 4 * x + 1 by omega,
      nafWeight_four_mul_add_one, signedWeight_natCast]
  · rw [signedWeight_neg]
    cases x with
    | zero => decide +kernel
    | succ x =>
        -- The absolute value ends with `11`.
        rw [signedWeight, show (4 * -((x + 1 : ℕ) : ℤ) + 1).natAbs = 4 * x + 3 by omega,
          nafWeight_four_mul_add_three, signedWeight_natCast]

theorem signedWeight_four_mul_sub_one (n : ℤ) :
    signedWeight (4 * n - 1) = signedWeight n + 1 := by
  rw [← signedWeight_neg, show -(4 * n - 1) = 4 * -n + 1 by ring, signedWeight_four_mul_add_one,
    signedWeight_neg]

/-- An integer is even, or it is next to a multiple of four. -/
theorem ending_cases (n : ℤ) : (∃ k, n = 2 * k) ∨ (∃ k, n = 4 * k + 1) ∨ ∃ k, n = 4 * k - 1 := by
  rcases (by omega : n % 2 = 0 ∨ n % 4 = 1 ∨ n % 4 = 3) with even | one | three
  · exact .inl ⟨n / 2, by omega⟩
  · exact .inr (.inl ⟨n / 4, by omega⟩)
  · exact .inr (.inr ⟨n / 4 + 1, by omega⟩)

/-- A one at the end counts once at most.  It counts less where the next digit is not zero, and then
the carry is a one at the end of a shorter number. -/
theorem signedWeight_two_mul_add_one_le (n : ℤ) :
    signedWeight (2 * n + 1) ≤ signedWeight n + 1 := by
  induction size : n.natAbs using Nat.strong_induction_on generalizing n with
  | _ _ ih =>
      subst size
      rcases ending_cases n with ⟨k, rfl⟩ | ⟨k, rfl⟩ | ⟨k, rfl⟩
      · rw [show 2 * (2 * k) + 1 = 4 * k + 1 by ring, signedWeight_four_mul_add_one,
          signedWeight_two_mul]
      · have shorter := ih k.natAbs (by omega) k rfl
        rw [show 2 * (4 * k + 1) + 1 = 4 * (2 * k + 1) - 1 by ring, signedWeight_four_mul_sub_one,
          signedWeight_four_mul_add_one]
        omega
      · rw [show 2 * (4 * k - 1) + 1 = 4 * (2 * k) - 1 by ring, signedWeight_four_mul_sub_one,
          signedWeight_four_mul_sub_one, signedWeight_two_mul]
        omega

theorem signedWeight_add_one_le (n : ℤ) : signedWeight (n + 1) ≤ signedWeight n + 1 := by
  rcases ending_cases n with ⟨k, rfl⟩ | ⟨k, rfl⟩ | ⟨k, rfl⟩
  · rw [signedWeight_two_mul]
    exact signedWeight_two_mul_add_one_le k
  · have carried := signedWeight_two_mul_add_one_le k
    rw [show 4 * k + 1 + 1 = 2 * (2 * k + 1) by ring, signedWeight_two_mul,
      signedWeight_four_mul_add_one]
    omega
  · rw [show 4 * k - 1 + 1 = 2 * (2 * k) by ring, signedWeight_two_mul, signedWeight_two_mul,
      signedWeight_four_mul_sub_one]
    omega

/-- **One power of two** raises the weight by one at most.  The induction is on the place of the
power, two places at a time, since the weight is read off two digits at a time. -/
theorem signedWeight_add_two_pow_le (place : ℕ) (n : ℤ) :
    signedWeight (n + 2 ^ place) ≤ signedWeight n + 1 := by
  induction place using Nat.twoStepInduction generalizing n with
  | zero => exact signedWeight_add_one_le n
  | one =>
      rcases ending_cases n with ⟨k, rfl⟩ | ⟨k, rfl⟩ | ⟨k, rfl⟩
      · rw [show 2 * k + 2 ^ (0 + 1) = 2 * (k + 1) by ring, signedWeight_two_mul,
          signedWeight_two_mul]
        exact signedWeight_add_one_le k
      · have next := signedWeight_add_one_le k
        rw [show 4 * k + 1 + 2 ^ (0 + 1) = 4 * (k + 1) - 1 by ring, signedWeight_four_mul_sub_one,
          signedWeight_four_mul_add_one]
        omega
      · rw [show 4 * k - 1 + 2 ^ (0 + 1) = 4 * k + 1 by ring, signedWeight_four_mul_add_one,
          signedWeight_four_mul_sub_one]
        omega
  | more place lower next =>
      rcases ending_cases n with ⟨k, rfl⟩ | ⟨k, rfl⟩ | ⟨k, rfl⟩
      · rw [show 2 * k + 2 ^ (place + 2) = 2 * (k + 2 ^ (place + 1)) by ring, signedWeight_two_mul,
          signedWeight_two_mul]
        exact next k
      · rw [show 4 * k + 1 + 2 ^ (place + 2) = 4 * (k + 2 ^ place) + 1 by ring,
          signedWeight_four_mul_add_one, signedWeight_four_mul_add_one]
        exact Nat.succ_le_succ (lower k)
      · rw [show 4 * k - 1 + 2 ^ (place + 2) = 4 * (k + 2 ^ place) - 1 by ring,
          signedWeight_four_mul_sub_one, signedWeight_four_mul_sub_one]
        exact Nat.succ_le_succ (lower k)

/-- The sum of powers of two at the given places, each with a sign; a place may occur again. -/
def sumOfPowers (powers : List (ℤˣ × ℕ)) : ℤ :=
  (powers.map fun power => (power.1 : ℤ) * 2 ^ power.2).sum

/-- The powers are moved up by one place. -/
def raised (powers : List (ℤˣ × ℕ)) : List (ℤˣ × ℕ) :=
  powers.map fun power => (power.1, power.2 + 1)

@[simp] theorem length_raised (powers : List (ℤˣ × ℕ)) :
    (raised powers).length = powers.length := List.length_map _

/-- Moved up by one place, the powers have the double as their sum. -/
theorem sumOfPowers_raised (powers : List (ℤˣ × ℕ)) :
    sumOfPowers (raised powers) = 2 * sumOfPowers powers := by
  rw [sumOfPowers, sumOfPowers, raised, ← List.sum_map_mul_left, List.map_map]
  congr 2
  funext power
  rw [Function.comp_apply, pow_succ]
  ring

/-- The weight of a sum is not more than the number of its powers. -/
theorem signedWeight_sumOfPowers_le (powers : List (ℤˣ × ℕ)) :
    signedWeight (sumOfPowers powers) ≤ powers.length := by
  induction powers with
  | nil => decide +kernel
  | cons power rest ih =>
      obtain ⟨sign, place⟩ := power
      have total : sumOfPowers ((sign, place) :: rest) = sign * 2 ^ place + sumOfPowers rest := rfl
      rw [total, List.length_cons]
      rcases Int.units_eq_one_or sign with rfl | rfl
      · have step := signedWeight_add_two_pow_le place (sumOfPowers rest)
        rw [Units.val_one, one_mul, add_comm]
        omega
      · have step := signedWeight_add_two_pow_le place (-sumOfPowers rest)
        rw [signedWeight_neg] at step
        rw [Units.val_neg, Units.val_one, neg_one_mul, ← signedWeight_neg, neg_add, neg_neg,
          add_comm]
        omega

/-- Signed digits are the powers at the places where they are not zero. -/
theorem SignedDigits.exists_sumOfPowers (digits : SignedDigits) :
    ∃ powers, sumOfPowers powers = value digits ∧ powers.length = weight digits := by
  induction digits with
  | nil => exact ⟨[], rfl, rfl⟩
  | cons digit rest ih =>
      obtain ⟨powers, sum, length⟩ := ih
      have doubled : sumOfPowers (raised powers) = 2 * value rest := by rw [sumOfPowers_raised, sum]
      rcases digit_cases digit with rfl | rfl | rfl
      · exact ⟨raised powers, by simp [doubled], by simp [length]⟩
      · refine ⟨(1, 0) :: raised powers, ?_, by simp [length]⟩
        rw [value_cons, ← doubled]
        rfl
      · refine ⟨(-1, 0) :: raised powers, ?_, by simp [length]⟩
        rw [value_cons, ← doubled]
        rfl

/-- **What the weight counts.**  Every number has one non-adjacent form, and its weight is the
number of nonzero digits of that form.  No digits with signs that write the number have fewer
nonzero ones, and no fewer powers of two with signs have it as their sum, even if a power may occur
again. -/
theorem nafWeight_counts_digits (x : ℕ) :
    (∀ digits : SignedDigits,
      digits.IsNonAdjacent ∧ digits.value = x ↔ digits = nonAdjacent x) ∧
    nafWeight x = (nonAdjacent x).weight ∧
    IsLeast {w | ∃ digits : SignedDigits, digits.value = x ∧ digits.weight = w} (nafWeight x) ∧
    IsLeast {w | ∃ powers, sumOfPowers powers = x ∧ powers.length = w} (nafWeight x) := by
  have least {w : ℕ} :
      (∃ powers, sumOfPowers powers = x ∧ powers.length = w) → nafWeight x ≤ w := by
    rintro ⟨powers, sum, rfl⟩
    rw [← signedWeight_natCast, ← sum]
    exact signedWeight_sumOfPowers_le powers
  refine ⟨fun digits => ⟨fun h => h.1.eq_nonAdjacent h.2, ?_⟩, nafWeight_eq_weight x,
    ⟨⟨nonAdjacent x, value_nonAdjacent x, (nafWeight_eq_weight x).symm⟩, ?_⟩, ⟨?_, fun w => least⟩⟩
  · rintro rfl
    exact ⟨isNonAdjacent_nonAdjacent x, value_nonAdjacent x⟩
  · rintro w ⟨digits, written, rfl⟩
    obtain ⟨powers, sum, length⟩ := digits.exists_sumOfPowers
    exact least ⟨powers, sum.trans written, length⟩
  · obtain ⟨powers, sum, length⟩ := (nonAdjacent x).exists_sumOfPowers
    exact ⟨powers, sum.trans (value_nonAdjacent x), length.trans (nafWeight_eq_weight x).symm⟩

/-- Seven is eight less one. -/
example : nonAdjacent 7 = [-1, 0, 0, 1] := by cbv

end PublicKeyCrypto
