import PublicKeyCrypto.Random.PrivateValue
import PublicKeyCrypto.Proofs.Number.Weight
import PublicKeyCrypto.Proofs.Random.Sampler
import Mathlib

/-!
# Which private exponents are drawn

A private exponent has to meet two bounds, one on its size and one on its weight.  Candidates have the
right size, and they are drawn until the weight is right as well, so everything that is given meets
both bounds.  Whether anything is given is another question: it takes one number that meets both, and
the bounds come closest to each other in the smallest groups.  A number of alternating digits, one bit
shorter than the greatest of the range, always does (`exists_heavy_below`).

Both answers are kept together in `Draw.Attains`, which says of a draw exactly which values it gives,
that there are any, and that one candidate is enough for each of them.

## Main Definitions

* `Draw.Attains` — the values that are given, each of them at once on some tape
* `Draw.IsPrivateValue` — the size and the weight of a private exponent

## Main Results

* `Draw.attains_heavy` — candidates of large weight
* `Draw.attains_privateValue` — private exponents
-/

namespace PublicKeyCrypto

/-! ## The highest bit -/

section Highest

variable {length k : ℕ}

/-- A number whose highest bit is set has exactly the length. -/
theorem bitLength_or_highest (positive : length ≠ 0) (small : k < 2 ^ length) :
    bitLength (k ||| 1 <<< (length - 1)) = length := by
  obtain ⟨l, rfl⟩ := Nat.exists_eq_succ_of_ne_zero positive
  rw [Nat.succ_sub_one, Nat.one_shiftLeft]
  refine bitLength_eq_succ_iff.mpr ⟨Nat.right_le_or, Nat.or_lt_two_pow small ?_⟩
  exact Nat.pow_lt_pow_right (by decide) l.lt_succ_self

/-- The highest bit of a number of exactly the length is set. -/
theorem or_highest (positive : length ≠ 0) (exact_length : bitLength k = length) :
    k ||| 1 <<< (length - 1) = k := by
  obtain ⟨l, rfl⟩ := Nat.exists_eq_succ_of_ne_zero positive
  obtain ⟨least, small⟩ := bitLength_eq_succ_iff.mp exact_length
  rw [pow_succ] at small
  have digits := Nat.two_pow_add_eq_or_of_lt (show k - 2 ^ l < 2 ^ l by omega) 1
  rw [mul_one, Nat.add_sub_of_le least] at digits
  rw [Nat.succ_sub_one, Nat.one_shiftLeft, digits, Nat.or_right_comm, Nat.or_self]

end Highest

namespace Draw

/-! ## Values that are attained -/

section Attains

variable {α β : Type} {x : Draw α} {Q : α → Prop} {len : ℕ}

/-- The draw breaks no precondition and gives only values with the property.  There are such values,
and for each of them there is a tape from which it is given with a single round of every retry loop,
after one candidate of `len` bytes. -/
structure Attains (x : Draw α) (Q : α → Prop) (len : ℕ) : Prop where
  always : x.Always Q
  nonempty : ∃ a, Q a
  at_once : ∀ a, Q a → ∃ tape, x.run tape 1 0 = .ok (a, len)

/-- A property may be said in other words. -/
theorem Attains.congr (attains : x.Attains Q len) {R : α → Prop} (same : ∀ a, Q a ↔ R a) :
    x.Attains R len := by
  obtain rfl : Q = R := funext fun a => propext (same a)
  exact attains

/-- What is made of the values that are attained is attained. -/
theorem Attains.map (attains : x.Attains Q len) (f : α → β) :
    (do return f (← x) : Draw β).Attains (fun b => ∃ a, Q a ∧ b = f a) len where
  always := ensures_bind (attains.always.mono fun a property => ensures_pure ⟨a, property, rfl⟩)
  nonempty := by
    obtain ⟨a, property⟩ := attains.nonempty
    exact ⟨f a, a, property, rfl⟩
  at_once := by
    rintro _ ⟨a, property, rfl⟩
    obtain ⟨tape, run⟩ := attains.at_once a property
    refine ⟨tape, ?_⟩
    rw [run_bind, run]
    rfl

/-- Candidates are refused while their weight is small.  What is left to show is that not all of them
are. -/
theorem attains_heavy {candidate : Draw ℕ} {Q : ℕ → Prop} {bits len : ℕ}
    (attains : candidate.Attains Q len) (possible : ∃ x, Q x ∧ bits / 4 ≤ nafWeight x) :
    (heavy bits candidate).Attains (fun x => Q x ∧ bits / 4 ≤ nafWeight x) len where
  always := by
    refine ensures_firstAccepted rfl (attains.always.mono fun a property x accepted => ?_)
    rw [Option.ite_none_right_eq_some] at accepted
    obtain ⟨weight, same⟩ := accepted
    cases same
    exact ⟨property, weight⟩
  nonempty := possible
  at_once := by
    rintro x ⟨property, weight⟩
    obtain ⟨tape, drawn⟩ := attains.at_once x property
    exact ⟨tape, run_firstAccepted Nat.one_pos drawn (if_pos weight)⟩

theorem attains_inRange {least greatest : ℕ} (ordered : least ≤ greatest) :
    (inRange least greatest).Attains (fun x => least ≤ x ∧ x ≤ greatest)
      (byteLength (greatest - least + 1)) where
  always := inRange_always ordered
  nonempty := ⟨least, le_rfl, ordered⟩
  at_once := by
    intro x between
    obtain ⟨tape, drawn⟩ := exists_tape_inRange between
    exact ⟨tape, drawn 1 Nat.one_pos⟩

theorem attains_positiveBelow {bound : ℕ} (large : 2 ≤ bound) :
    (positiveBelow bound).Attains (fun x => 0 < x ∧ x < bound) (byteLength bound) where
  always := positiveBelow_always large
  nonempty := ⟨1, Nat.one_pos, large⟩
  at_once := by
    intro x suitable
    have samples := samplesRange_positiveBelow large
    obtain ⟨tape, drawn⟩ := samples.exists_tape (fun _ inside => inside.2) suitable
    exact ⟨tape, drawn 1 Nat.one_pos⟩

/-- A number whose highest bit is set after it was drawn. -/
theorem attains_highest {length : ℕ} (positive : length ≠ 0) :
    (do return (← number length) ||| 1 <<< (length - 1) : Draw ℕ).Attains
      (fun x => bitLength x = length) ((length + 7) / 8) where
  always := ensures_bind ((number_always length).mono fun _ small =>
    ensures_pure (bitLength_or_highest positive small))
  nonempty := by
    obtain ⟨x, exact_length, -⟩ := exists_heavy length
    exact ⟨x, exact_length⟩
  at_once := by
    intro x exact_length
    obtain ⟨tape, drawn⟩ := exists_tape_number (bitLength_le_iff.mp exact_length.le)
    refine ⟨tape, ?_⟩
    rw [run_bind, run_number, drawn, Nat.zero_add]
    dsimp only
    rw [or_highest positive exact_length, run_pure]

end Attains

/-! ## Private exponents -/

section PrivateValue

variable {p length : ℕ} {order : Option ℕ}

/-- The length that the weight of a private exponent is measured by: its own if that is fixed, and
otherwise the length of the greatest exponent. -/
def privateBits (p : ℕ) (order : Option ℕ) (length : ℕ) : ℕ :=
  if length = 0 then bitLength (order.getD p - 2) else length

/-- The bytes of one candidate. -/
def privateBytes (p : ℕ) (order : Option ℕ) (length : ℕ) : ℕ :=
  if length = 0 then byteLength (order.getD p - 3) else (length + 7) / 8

/-- The size and the weight of a private exponent. -/
structure IsPrivateValue (p : ℕ) (order : Option ℕ) (length x : ℕ) : Prop where
  /-- A length that is fixed is exact. -/
  fixed : length ≠ 0 → bitLength x = length
  /-- If the length is open, the order or else the modulus bounds the exponent. -/
  between : length = 0 → 2 ≤ x ∧ x ≤ order.getD p - 2
  heavy : privateBits p order length / 4 ≤ nafWeight x

theorem isPrivateValue_zero {x : ℕ} : IsPrivateValue p order 0 x ↔
    (2 ≤ x ∧ x ≤ order.getD p - 2) ∧ bitLength (order.getD p - 2) / 4 ≤ nafWeight x :=
  ⟨fun h => ⟨h.between rfl, h.heavy⟩, fun h => ⟨fun wrong => absurd rfl wrong, fun _ => h.1, h.2⟩⟩

theorem isPrivateValue_of_ne_zero {x : ℕ} (positive : length ≠ 0) :
    IsPrivateValue p order length x ↔ bitLength x = length ∧ length / 4 ≤ nafWeight x := by
  have bits : privateBits p order length = length := if_neg positive
  constructor
  · intro h
    have weight := h.heavy
    rw [bits] at weight
    exact ⟨h.fixed positive, weight⟩
  · rintro ⟨exact_length, weight⟩
    exact ⟨fun _ => exact_length, fun zero => absurd zero positive, by rwa [bits]⟩

/-- **Private exponents.**  The numbers of the right size and weight are drawn, and no others; and
there are such numbers, however small the group.  The order, or else the modulus, must leave room for
the exponents from two to the order less two. -/
theorem attains_privateValue (large : 4 ≤ order.getD p) :
    (privateValue p order length).Attains (IsPrivateValue p order length)
      (privateBytes p order length) := by
  by_cases fixed : length = 0
  · subst fixed
    rw [privateValue, if_neg (not_not.mpr rfl), difference_of_le (by omega), privateBytes, if_pos rfl,
      show order.getD p - 3 = order.getD p - 2 - 2 + 1 by omega]
    have attains := attains_heavy (attains_inRange (by omega))
      (exists_heavy_between (show 2 ≤ order.getD p - 2 by omega))
    exact attains.congr fun _ => isPrivateValue_zero.symm
  · rw [privateValue, if_pos fixed, privateBytes, if_neg fixed]
    obtain ⟨x, exact_length, weight⟩ := exists_heavy length
    have possible : ∃ x, bitLength x = length ∧ length / 4 ≤ nafWeight x :=
      ⟨x, exact_length, by omega⟩
    have attains := attains_heavy (attains_highest fixed) possible
    exact attains.congr fun _ => (isPrivateValue_of_ne_zero fixed).symm

end PrivateValue

end Draw

end PublicKeyCrypto
