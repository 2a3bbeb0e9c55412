import PublicKeyCrypto.Cipher.Block
import PublicKeyCrypto.Proofs.Number.Encoding
import Mathlib

/-!
# Masks are truth values

Every comparison without branches gives the mask of the plain predicate, for words of any width, and
masks combine as truth values do.  So a check that is written with masks can be rewritten into
one about bytes and lengths, and nothing after that rewriting speaks of words.

The two comparisons rest on the top bit.  A word and its negation are both without it only for
zero; and the difference of two words borrows exactly when the top bits of the operands and of the
difference say so.

## Main Definitions

* `Mask.Tells` — a mask that says whether a proposition holds

## Main Results

* `Mask.Tells.not`, `Mask.Tells.and`, `Mask.Tells.or` — masks combine as propositions do
* `Mask.isZero_eq`, `Mask.equal_eq`, `Mask.less_eq` — the comparisons of words
* `Mask.sameBytes_eq`, `Mask.equalSizes_eq`, `Mask.equalByte_eq` — those of strings, sizes and bytes
* `Mask.select_ofBool`, `Mask.selectByte_ofBool` — selection by the mask of a truth value
-/

namespace PublicKeyCrypto.Mask

/-! ## Masks of truth values -/

@[simp] theorem ofBool_true : ofBool true = yes := rfl

@[simp] theorem ofBool_false : ofBool false = no := rfl

/-- A mask of a truth value is not the mask for "false" exactly when the value is true. -/
@[simp] theorem ofBool_eq_no {b : Bool} : ofBool b = no ↔ b = false := by
  cases b <;> decide

theorem not_ofBool (b : Bool) : ~~~ofBool b = ofBool !b := by
  cases b <;> decide

theorem and_ofBool (a b : Bool) : ofBool a &&& ofBool b = ofBool (a && b) := by
  cases a <;> cases b <;> decide

theorem or_ofBool (a b : Bool) : ofBool a ||| ofBool b = ofBool (a || b) := by
  cases a <;> cases b <;> decide

/-- The mask says whether the proposition holds: all ones if it does, and zero if it does not. -/
structure Tells (m : Mask) (p : Prop) : Prop where
  all_ones : p → m = 0xFFFFFFFF#32
  zero : ¬p → m = 0#32

section Tells

variable {m n : Mask} {p q : Prop}

theorem tells_iff : m.Tells p ↔ ∃ b, m = ofBool b ∧ (b = true ↔ p) := by
  constructor
  · intro h
    by_cases holds : p
    · exact ⟨true, h.all_ones holds, by simp [holds]⟩
    · exact ⟨false, h.zero holds, by simp [holds]⟩
  · rintro ⟨b, rfl, same⟩
    cases b with
    | true => exact ⟨fun _ => rfl, fun fails => absurd (same.mp rfl) fails⟩
    | false => exact ⟨fun holds => absurd (same.mpr holds) Bool.noConfusion, fun _ => rfl⟩

/-- A comparison says whether its predicate holds. -/
theorem Tells.of_eq [Decidable p] (h : m = ofBool (decide p)) : m.Tells p :=
  tells_iff.mpr ⟨_, h, decide_eq_true_iff⟩

theorem Tells.congr (h : m.Tells p) (same : p ↔ q) : m.Tells q :=
  ⟨fun holds => h.all_ones (same.mpr holds), fun fails => h.zero (same.not.mpr fails)⟩

/-- What a mask says is read off by comparing it with the mask for "false". -/
theorem Tells.iff_ne_no (h : m.Tells p) : p ↔ m ≠ no := by
  obtain ⟨b, rfl, same⟩ := tells_iff.mp h
  rw [← same, Ne, ofBool_eq_no, Bool.not_eq_false]

protected theorem Tells.not (h : m.Tells p) : (~~~m).Tells ¬p := by
  obtain ⟨b, rfl, same⟩ := tells_iff.mp h
  exact tells_iff.mpr ⟨!b, not_ofBool b, by simp [← same]⟩

protected theorem Tells.and (hm : m.Tells p) (hn : n.Tells q) : (m &&& n).Tells (p ∧ q) := by
  obtain ⟨a, rfl, left⟩ := tells_iff.mp hm
  obtain ⟨b, rfl, right⟩ := tells_iff.mp hn
  exact tells_iff.mpr ⟨a && b, and_ofBool a b, by rw [Bool.and_eq_true, left, right]⟩

protected theorem Tells.or (hm : m.Tells p) (hn : n.Tells q) : (m ||| n).Tells (p ∨ q) := by
  obtain ⟨a, rfl, left⟩ := tells_iff.mp hm
  obtain ⟨b, rfl, right⟩ := tells_iff.mp hn
  exact tells_iff.mpr ⟨a || b, or_ofBool a b, by rw [Bool.or_eq_true, left, right]⟩

end Tells

variable {w : ℕ}

/-- Selection by the mask of a truth value. -/
@[simp] theorem select_ofBool (c : Bool) (a b : BitVec w) :
    select (ofBool c) a b = if c then a else b := by
  cases c with
  | false =>
      have zero : -((ofBool false &&& 1#32).setWidth w) = 0#w := by
        rw [show ofBool false &&& 1#32 = 0#32 by decide, BitVec.setWidth_zero, BitVec.neg_zero]
      rw [select, zero]
      simp
  | true =>
      have ones : -((ofBool true &&& 1#32).setWidth w) = BitVec.allOnes w := by
        have one : (1#32).setWidth w = 1#w := BitVec.eq_of_toNat_eq (by simp)
        rw [show ofBool true &&& 1#32 = 1#32 by decide, one, BitVec.neg_one_eq_allOnes]
      rw [select, ones]
      simp [BitVec.xor_comm a b]

/-- Selection of bytes: the lowest byte of a mask is all ones or zero too. -/
theorem selectByte_ofBool (c : Bool) (a b : UInt8) :
    selectByte (ofBool c) a b = if c then a else b := by
  cases c with
  | false =>
      have zero : (⟨(ofBool false).setWidth 8⟩ : UInt8) = 0 := by decide
      rw [selectByte, zero]
      simp
  | true =>
      have ones : (⟨(ofBool true).setWidth 8⟩ : UInt8) = -1 := by decide
      rw [selectByte, ones]
      simp [UInt8.xor_comm a b]

/-! ## The top bit -/

theorem top_eq (x : BitVec w) : top x = (BitVec.ofBool x.msb).setWidth 32 := by
  apply BitVec.eq_of_toNat_eq
  rw [top, BitVec.toNat_setWidth, BitVec.toNat_ushiftRight, BitVec.toNat_setWidth,
    BitVec.toNat_ofBool, BitVec.msb_eq_decide, Nat.shiftRight_eq_div_pow]
  congr 1
  by_cases h : 2 ^ (w - 1) ≤ x.toNat
  · have small : x.toNat < 2 ^ (w - 1) * 2 := by
      have bound := x.isLt
      cases w with
      | zero => omega
      | succ w => rwa [Nat.add_sub_cancel, ← pow_succ]
    have one : x.toNat / 2 ^ (w - 1) = 1 := Nat.div_eq_of_lt_le (by omega) (by omega)
    rw [decide_eq_true h, one]
    rfl
  · rw [decide_eq_false h, Nat.div_eq_of_lt (not_le.mp h)]
    rfl

/-- Negating the top bit as a word spreads it over the word. -/
theorem zero_sub_top (x : BitVec w) : 0#32 - top x = ofBool x.msb := by
  rw [top_eq]
  cases x.msb <;> decide

theorem top_sub_one (x : BitVec w) : top x - 1#32 = ofBool !x.msb := by
  rw [top_eq]
  cases x.msb <;> decide

/-! ## Comparisons of words -/

/-- A word or its negation has the top bit set, unless the word is zero. -/
theorem isZero_eq (x : BitVec w) : isZero x = ofBool (decide (x = 0#w)) := by
  rw [isZero, top_sub_one, BitVec.msb_or, BitVec.msb_neg]
  congr 1
  by_cases zero : x = 0#w
  · simp [zero]
  · by_cases least : x = BitVec.intMin w
    · -- Only here the negation is without the top bit too; the word itself has it.
      have top : x.msb = true := by
        rw [least, BitVec.msb_intMin, decide_eq_true_eq]
        by_contra empty
        obtain rfl : w = 0 := by omega
        exact zero (Subsingleton.elim _ _)
      simp [zero, top]
    · cases x.msb <;> simp [zero, least]

/-- Words that are laid over each other give zero only if all of them are zero. -/
theorem foldr_or_eq_zero_iff {α : Type} (piece : α → BitVec 32) (places : List α) :
    places.foldr (fun i rest => piece i ||| rest) 0#32 = 0#32 ↔ ∀ i ∈ places, piece i = 0#32 := by
  induction places with
  | nil => simp
  | cons i places ih => rw [List.foldr_cons, BitVec.or_eq_zero_iff, ih, List.forall_mem_cons]

/-- Folding loses no bit, since every bit of the word lies in one of the pieces. -/
theorem folded_eq_zero_iff {x : BitVec w} : folded x = 0#32 ↔ x = 0#w := by
  rw [folded, foldr_or_eq_zero_iff]
  constructor
  · intro pieces
    apply BitVec.eq_of_getLsbD_eq
    intro i inside
    have piece := congrArg (BitVec.getLsbD · (i % 32))
      (pieces (i / 32) (List.mem_range.mpr (by omega)))
    have low : i % 32 < 32 := Nat.mod_lt _ (by decide)
    simpa [low, Nat.div_add_mod] using piece
  · rintro rfl i -
    simp

/-- A word of 64 bits has two pieces, its lower half and its upper half. -/
example (x : BitVec 64) :
    folded x = (x >>> 0).setWidth 32 ||| ((x >>> 32).setWidth 32 ||| 0#32) := rfl

theorem equal_eq (a b : BitVec w) : equal a b = ofBool (decide (a = b)) := by
  rw [equal, isZero_eq]
  simp only [folded_eq_zero_iff, BitVec.xor_eq_zero_iff]

/-- The top bit of the combination is the borrow of the difference. -/
theorem msb_borrow (a b : BitVec w) :
    ((a - b) ^^^ ((a ^^^ b) &&& (b ^^^ (a - b)))).msb = decide (a.toNat < b.toNat) := by
  rw [BitVec.msb_xor, BitVec.msb_and, BitVec.msb_xor, BitVec.msb_xor]
  simp only [BitVec.msb_eq_decide]
  have ha := a.isLt
  have hb := b.isLt
  cases w with
  | zero =>
      obtain rfl : a = b := Subsingleton.elim a b
      simp
  | succ w =>
      rw [pow_succ] at ha hb
      rw [Nat.add_sub_cancel]
      by_cases less : a.toNat < b.toNat
      · have difference : (a - b).toNat = 2 ^ w * 2 - (b.toNat - a.toNat) := by
          rw [BitVec.toNat_sub_of_lt (BitVec.lt_def.mpr less), pow_succ]
        rw [difference]
        by_cases h₁ : 2 ^ w ≤ a.toNat <;> by_cases h₂ : 2 ^ w ≤ b.toNat <;>
          by_cases h₃ : 2 ^ w ≤ 2 ^ w * 2 - (b.toNat - a.toNat) <;>
          simp [less, h₁, h₂, h₃] <;> omega
      · have difference : (a - b).toNat = a.toNat - b.toNat :=
          BitVec.toNat_sub_of_le (BitVec.le_def.mpr (not_lt.mp less))
        rw [difference]
        by_cases h₁ : 2 ^ w ≤ a.toNat <;> by_cases h₂ : 2 ^ w ≤ b.toNat <;>
          by_cases h₃ : 2 ^ w ≤ a.toNat - b.toNat <;>
          simp [less, h₁, h₂, h₃] <;> omega

/-- Comparison by the borrow of the difference. -/
theorem less_eq (a b : BitVec w) : less a b = ofBool (decide (a.toNat < b.toNat)) := by
  rw [less, zero_sub_top, msb_borrow]

/-! ## Comparisons of bytes, sizes and strings -/

theorem equalByte_eq (a b : UInt8) : equalByte a b = ofBool (decide (a = b)) := by
  rw [equalByte, equal_eq]
  simp only [UInt8.toBitVec_inj]

/-- Sizes are compared as words that are wide enough for both. -/
theorem equalSizes_eq (a b : ℕ) : equalSizes a b = ofBool (decide (a = b)) := by
  have bound : max a b < 2 ^ bitLength (max a b) := bitLength_le_iff.mp le_rfl
  have ha : a < 2 ^ bitLength (max a b) := lt_of_le_of_lt (le_max_left a b) bound
  have hb : b < 2 ^ bitLength (max a b) := lt_of_le_of_lt (le_max_right a b) bound
  rw [equalSizes, equal_eq]
  congr 2
  rw [← BitVec.toNat_inj, BitVec.toNat_ofNat, BitVec.toNat_ofNat, Nat.mod_eq_of_lt ha,
    Nat.mod_eq_of_lt hb]

/-- No position differs exactly when the strings of one length are equal. -/
theorem differences_eq_zero_iff {a b : List UInt8} (length : a.length = b.length) :
    differences a b = 0#32 ↔ a = b := by
  induction a generalizing b with
  | nil =>
      cases b with
      | nil => simp [differences]
      | cons y b => simp at length
  | cons x a ih =>
      cases b with
      | nil => simp at length
      | cons y b =>
          have rest := ih (Nat.succ.inj length)
          have first : (x ^^^ y).toBitVec.setWidth 32 = 0#32 ↔ x = y := by
            -- Widening a byte keeps its value, so the byte itself is zero.
            have byte : (x ^^^ y).toBitVec.setWidth 32 = 0#32 ↔ (x ^^^ y).toBitVec = 0#8 := by
              have small := (x ^^^ y).toBitVec.isLt
              rw [← BitVec.toNat_inj, ← BitVec.toNat_inj, BitVec.toNat_setWidth,
                Nat.mod_eq_of_lt (by omega)]
              rfl
            rw [byte, UInt8.toBitVec_xor, BitVec.xor_eq_zero_iff, UInt8.toBitVec_inj]
          rw [differences, BitVec.or_eq_zero_iff, first, rest, List.cons.injEq]

/-- Strings are compared by their lengths and their differences. -/
theorem sameBytes_eq (a b : List UInt8) : sameBytes a b = ofBool (decide (a = b)) := by
  rw [sameBytes]
  by_cases length : a.length = b.length
  · rw [if_neg (not_not.mpr length), isZero_eq]
    simp only [differences_eq_zero_iff length]
  · rw [if_pos length, decide_eq_false (fun same => length (congrArg List.length same))]
    rfl

end PublicKeyCrypto.Mask
