import PublicKeyCrypto.Proofs.Cipher.Indistinguishable
import Mathlib

/-!
# What the masks of a scan say

A padding decoder runs over the bytes of a block and keeps two masks: whether the byte that ends the
padding has been found, and whether all rules have been kept.  Every round combines them with the
masks of comparisons, and the last masks decide.  A word that is neither all ones nor zero would be
"true" to one reader and "false" to another: the selection of a position looks at the lowest bit of
a mask, the selection of a byte at its lowest byte, and the verdict at all of it.

No such word comes up.  Of the bytes that a scan has seen, some are skipped and the first other one
ends the padding; the rules are about the bytes up to that one (`Bytes.UpToFirst`).  That is all
that the masks say, before a round and after it (`Scan.Tells.step`), so that it holds after any
number of rounds and of what is computed from the masks at the end.

## Main Definitions

* `Bytes.UpToFirst` — a rule about the skipped bytes of a string and the first other one
* `Pkcs1.Scan.Tells`, `Oaep.Scan.Tells` — the invariants of the two scans
* `Pkcs1.scanStart`, `Pkcs1.scanAfter`, `Oaep.scanStart`, `Oaep.scanAfter` — the scans of a block
  before the first round and after some rounds

## Main Results

* `Pkcs1.Scan.Tells.step`, `Oaep.Scan.Tells.step` — what one round preserves
* `Pkcs1.scanAfter_tells`, `Oaep.scanAfter_tells` — what holds after any number of rounds
* `Pkcs1.inspect_tells`, `Oaep.verdict_tells` — the last masks say whether the block is accepted
* `masks_are_truth_values` — all comparisons, selections and scans
-/

namespace PublicKeyCrypto

namespace Bytes

/-- The rule holds of every byte with only skipped bytes before it: of the skipped bytes at the
beginning, and of the first other one. -/
def UpToFirst (skipped rule : UInt8 → Prop) (b : Bytes) : Prop :=
  ∀ before x, before ++ [x] <+: b → (∀ y ∈ before, skipped y) → rule x

variable {skipped rule : UInt8 → Prop}

theorem upToFirst_nil : UpToFirst skipped rule [] := by
  intro before x inside
  simp at inside

/-- The rule is about one more byte if all bytes before it are skipped. -/
theorem upToFirst_concat {b : Bytes} {x : UInt8} :
    UpToFirst skipped rule (b ++ [x]) ↔
      UpToFirst skipped rule b ∧ ((∀ y ∈ b, skipped y) → rule x) := by
  constructor
  · intro all
    refine ⟨fun before y inside => all before y (inside.trans (List.prefix_append b [x])), ?_⟩
    exact all b x List.prefix_rfl
  · rintro ⟨earlier, last⟩ before y inside skips
    rcases List.prefix_concat_iff.mp inside with whole | inside
    · obtain ⟨rfl, same⟩ := List.append_inj' whole rfl
      obtain rfl : y = x := by simpa using same
      exact last skips
    · exact earlier before y inside skips

end Bytes

/-- What is handed out if a part of a block can be read is no error. -/
theorem handedOut_ne_error (part : Except Fault Bytes) (e : Error) :
    (do return .ok (← part) : Except Fault (Except Error Bytes)) ≠ .ok (.error e) := by
  cases part <;> exact fun same => nomatch same

namespace Pkcs1

/-! ## Padding of PKCS #1 -/

section Scan

variable {w : ℕ} {type : UInt8} {start : Prop} {seen : Bytes} {s : Scan w}

/-- The masks say whether a zero byte has been seen, and whether everything was good at the start
and, in a block of type 1, all bytes before the first zero byte are ones. -/
structure Scan.Tells (s : Scan w) (type : UInt8) (start : Prop) (seen : Bytes) : Prop where
  found : s.found.Tells (0x00 ∈ seen)
  good : s.good.Tells
    (start ∧ (type = 0x01 → seen.UpToFirst (· ≠ 0x00) fun b => b = 0x00 ∨ b = 0xFF))

/-- One round. -/
theorem Scan.Tells.step (h : s.Tells type start seen) (b : UInt8) (position : ℕ) :
    (s.step type b position).Tells type start (seen ++ [b]) := by
  have zero : (Mask.equalByte b 0x00).Tells (b = 0x00) := .of_eq (Mask.equalByte_eq b 0x00)
  have ones : (Mask.equalByte b 0xFF).Tells (b = 0xFF) := .of_eq (Mask.equalByte_eq b 0xFF)
  have nonzero : (∀ y ∈ seen, y ≠ 0x00) ↔ 0x00 ∉ seen := List.forall_mem_ne'
  refine ⟨(h.found.or zero).congr (by simp [eq_comm]), ?_⟩
  rw [Scan.step]
  dsimp only
  split
  · next one =>
    -- A byte behind a zero byte is excused by the mask that was found before, not by its value.
    refine (h.good.and ((h.found.or zero).or ones)).congr ?_
    rw [Bytes.upToFirst_concat, nonzero, imp_iff_right one, imp_iff_right one, and_assoc, or_assoc,
      or_iff_not_imp_left]
  · next other => exact h.good.congr (by simp [other])

/-- Any number of rounds. -/
theorem Scan.Tells.steps (h : s.Tells type start seen) (position : ℕ) (more : Bytes) :
    (Scan.steps type s position more).Tells type start (seen ++ more) := by
  induction more generalizing s seen position with
  | nil => rwa [List.append_nil]
  | cons b more ih =>
      rw [Scan.steps, List.append_cons]
      exact ih (h.step b position) (position + 1)

end Scan

variable (l : Pkcs1) (outputSize : ℕ) (type : UInt8) (rest : Bytes)

/-- The scan of a block before the first round. -/
def scanStart : Scan (bitLength (rest.length + 1 + headerLength)) where
  found := Mask.no
  separator := 0
  good := (if l.strictLength then Mask.equalSizes (rest.length + 1) outputSize else Mask.yes) &&&
    Mask.equalByte type l.readType

/-- The scan of a block after some rounds. -/
def scanAfter (rounds : ℕ) : Scan (bitLength (rest.length + 1 + headerLength)) :=
  Scan.steps l.readType (l.scanStart outputSize type rest) 1 (rest.take rounds)

/-- The mask of the rule about the length. -/
theorem lengthGood_tells (length : ℕ) :
    (if l.strictLength then Mask.equalSizes length outputSize else Mask.yes).Tells
      (l.strictLength = true → length = outputSize) := by
  refine Mask.tells_iff.mpr ⟨_, l.lengthGood_eq outputSize length, ?_⟩
  cases l.strictLength <;> simp

theorem scanStart_tells :
    (l.scanStart outputSize type rest).Tells l.readType
      ((l.strictLength = true → rest.length + 1 = outputSize) ∧ type = l.readType) [] := by
  refine ⟨⟨fun seen => absurd seen List.not_mem_nil, fun _ => rfl⟩, ?_⟩
  refine ((l.lengthGood_tells outputSize (rest.length + 1)).and
    (.of_eq (Mask.equalByte_eq type l.readType))).congr ?_
  exact (and_iff_left fun _ => Bytes.upToFirst_nil).symm

theorem scanAfter_tells (rounds : ℕ) :
    (l.scanAfter outputSize type rest rounds).Tells l.readType
      ((l.strictLength = true → rest.length + 1 = outputSize) ∧ type = l.readType)
      (rest.take rounds) :=
  (l.scanStart_tells outputSize type rest).steps 1 (rest.take rounds)

/-- The verdict on a block is made of the last masks. -/
theorem inspect_eq_scanAfter :
    (l.inspect outputSize type rest).1 =
      let last := l.scanAfter outputSize type rest rest.length
      last.good &&& (last.found &&&
        ~~~Mask.less last.separator (BitVec.ofNat _ (headerLength - 1))) := by
  simp only [inspect, scanAfter, scanStart, List.take_length]

/-- A block is accepted unless the verdict is the mask for "false". -/
theorem exists_unpad_iff :
    (∃ payload, l.unpad outputSize (type :: rest) = .ok (.ok payload)) ↔
      (l.inspect outputSize type rest).1 ≠ Mask.no := by
  constructor
  · rintro ⟨payload, accepted⟩ refused
    rw [unpad] at accepted
    dsimp only at accepted
    rw [if_pos refused] at accepted
    cases accepted
  · intro passed
    rcases l.unpad_cases outputSize (type :: rest) with accepted | refused
    · exact accepted
    · rw [unpad] at refused
      dsimp only at refused
      rw [if_neg passed] at refused
      exact absurd refused (handedOut_ne_error _ _)

/-- The verdict says whether the block is accepted. -/
theorem inspect_tells :
    (l.inspect outputSize type rest).1.Tells
      (∃ payload, l.unpad outputSize (type :: rest) = .ok (.ok payload)) := by
  have last := l.scanAfter_tells outputSize type rest rest.length
  have verdict := last.good.and (last.found.and (Mask.Tells.of_eq (Mask.less_eq
    (l.scanAfter outputSize type rest rest.length).separator
    (BitVec.ofNat _ (headerLength - 1)))).not)
  rw [← inspect_eq_scanAfter] at verdict
  exact verdict.congr (verdict.iff_ne_no.trans (l.exists_unpad_iff outputSize type rest).symm)

end Pkcs1

namespace Oaep

/-! ## Data blocks of OAEP -/

section Scan

variable {w : ℕ} {start : Prop} {seen : Bytes} {s : Scan w}

/-- The masks say whether a nonzero byte has been seen, and whether everything was good at the start
and the first nonzero byte is 1. -/
structure Scan.Tells (s : Scan w) (start : Prop) (seen : Bytes) : Prop where
  found : s.found.Tells (∃ b ∈ seen, b ≠ 0x00)
  good : s.good.Tells (start ∧ seen.UpToFirst (· = 0x00) fun b => b = 0x00 ∨ b = 0x01)

/-- One round. -/
theorem Scan.Tells.step (h : s.Tells start seen) (b : UInt8) (position : ℕ) :
    (s.step b position).Tells start (seen ++ [b]) := by
  have nonzero : (~~~Mask.equalByte b 0x00).Tells (b ≠ 0x00) :=
    (Mask.Tells.of_eq (Mask.equalByte_eq b 0x00)).not
  have one : (Mask.equalByte b 0x01).Tells (b = 0x01) := .of_eq (Mask.equalByte_eq b 0x01)
  have zeros : (¬∃ y ∈ seen, y ≠ 0x00) ↔ ∀ y ∈ seen, y = 0x00 := by simp
  refine ⟨(h.found.or nonzero).congr (by simp [or_and_right, exists_or]), ?_⟩
  refine (h.good.and ((nonzero.and h.found.not).not.or one)).congr ?_
  rw [Bytes.upToFirst_concat, zeros, and_assoc, not_and_or, not_not, or_assoc,
    or_left_comm, ← imp_iff_not_or]

/-- Any number of rounds. -/
theorem Scan.Tells.steps (h : s.Tells start seen) (position : ℕ) (more : Bytes) :
    (Scan.steps s position more).Tells start (seen ++ more) := by
  induction more generalizing s seen position with
  | nil => rwa [List.append_nil]
  | cons b more ih =>
      rw [Scan.steps, List.append_cons]
      exact ih (h.step b position) (position + 1)

end Scan

variable (l : Oaep) (fits : Bool) (data : Bytes)

/-- The scan of a data block before the first round. -/
def scanStart : Scan (bitLength data.length) where
  found := Mask.no
  start := 0
  good := Mask.ofBool fits &&& Mask.sameBytes (data.take l.content.size) l.labelDigest

/-- The scan of a data block after some rounds. -/
def scanAfter (rounds : ℕ) : Scan (bitLength data.length) :=
  Scan.steps (l.scanStart fits data) l.content.size ((data.drop l.content.size).take rounds)

theorem scanStart_tells :
    (l.scanStart fits data).Tells (fits = true ∧ data.take l.content.size = l.labelDigest) [] := by
  refine ⟨⟨fun ⟨_, seen, _⟩ => absurd seen List.not_mem_nil, fun _ => rfl⟩, ?_⟩
  refine ((Mask.tells_iff.mpr ⟨fits, rfl, Iff.rfl⟩).and
    (.of_eq (Mask.sameBytes_eq (data.take l.content.size) l.labelDigest))).congr ?_
  exact (and_iff_left Bytes.upToFirst_nil).symm

theorem scanAfter_tells (rounds : ℕ) :
    (l.scanAfter fits data rounds).Tells
      (fits = true ∧ data.take l.content.size = l.labelDigest)
      ((data.drop l.content.size).take rounds) :=
  (l.scanStart_tells fits data).steps l.content.size ((data.drop l.content.size).take rounds)

/-- A data block with room for the digest is read as the last masks say. -/
theorem readData_eq_scanAfter (room : l.content.size ≤ data.length) :
    l.readData (Mask.ofBool fits) data =
      let last := l.scanAfter fits data data.length
      if last.good &&& last.found = Mask.no then .ok (.error .invalidCipherText)
      else do return .ok (← data.slice (last.start.toNat + 1) data.length) := by
  obtain ⟨digest, rest⟩ := l.slice_digest (List.length_take_of_le room) (data.drop l.content.size)
  rw [List.take_append_drop] at digest rest
  have all : (data.drop l.content.size).take data.length = data.drop l.content.size :=
    List.take_of_length_le (by rw [List.length_drop]; omega)
  rw [readData, digest, rest]
  simp only [bind, Except.bind, scanAfter, scanStart, all]
  rfl

/-- A data block is accepted unless the last masks say "false" together. -/
theorem exists_readData_iff :
    (∃ message, l.readData (Mask.ofBool fits) data = .ok (.ok message)) ↔
      (l.scanAfter fits data data.length).good &&& (l.scanAfter fits data data.length).found ≠
        Mask.no := by
  by_cases room : l.content.size ≤ data.length
  · have read := l.readData_eq_scanAfter fits data room
    dsimp only at read
    constructor
    · rintro ⟨message, accepted⟩ refused
      rw [read, if_pos refused] at accepted
      cases accepted
    · intro passed
      rcases l.readData_cases fits room with accepted | refused
      · exact accepted
      · rw [read, if_neg passed] at refused
        exact absurd refused (handedOut_ne_error _ _)
  · -- There is no digest to be read, and what there is cannot be equal to the digest of the label.
    constructor
    · rintro ⟨message, accepted⟩
      rw [readData, Bytes.slice, if_neg fun bounds => room bounds.2] at accepted
      cases accepted
    · intro passed
      have last := l.scanAfter_tells fits data data.length
      obtain ⟨⟨⟨-, digest⟩, -⟩, -⟩ := (last.good.and last.found).iff_ne_no.mpr passed
      have length := congrArg List.length digest
      rw [List.length_take, length_labelDigest] at length
      omega

/-- The last masks say together whether the data block is accepted. -/
theorem verdict_tells :
    ((l.scanAfter fits data data.length).good &&& (l.scanAfter fits data data.length).found).Tells
      (∃ message, l.readData (Mask.ofBool fits) data = .ok (.ok message)) := by
  have last := l.scanAfter_tells fits data data.length
  have verdict := last.good.and last.found
  exact verdict.congr (verdict.iff_ne_no.trans (l.exists_readData_iff fits data).symm)

end Oaep

/-! ## All masks -/

/-- **Masks are truth values.**  Every comparison, of words of any width, of bytes, of sizes and of
strings, gives all ones if its predicate holds and zero if it does not, and a selection gives the
first of two words or bytes for all ones and the second for zero.  So do the masks of both padding
decoders say what the scan has seen and which rules have been kept, after any number of rounds, and
the last ones say whether the block is accepted; and so does the mask of the decoder that expects a
length, which only checks the bytes before a separator that is not searched for. -/
theorem masks_are_truth_values :
    (∀ (w : ℕ) (x : BitVec w), (Mask.isZero x).Tells (x = 0#w)) ∧
    (∀ a b : UInt8, (Mask.equalByte a b).Tells (a = b)) ∧
    (∀ (w : ℕ) (a b : BitVec w), (Mask.equal a b).Tells (a = b)) ∧
    (∀ a b : ℕ, (Mask.equalSizes a b).Tells (a = b)) ∧
    (∀ (w : ℕ) (a b : BitVec w), (Mask.less a b).Tells (a.toNat < b.toNat)) ∧
    (∀ a b : Bytes, (Mask.sameBytes a b).Tells (a = b)) ∧
    (∀ (w : ℕ) (a b : BitVec w),
      Mask.select 0xFFFFFFFF#32 a b = a ∧ Mask.select 0#32 a b = b) ∧
    (∀ a b : UInt8, Mask.selectByte 0xFFFFFFFF#32 a b = a ∧ Mask.selectByte 0#32 a b = b) ∧
    (∀ (l : Pkcs1) (outputSize : ℕ) (type : UInt8) (rest : Bytes),
      (∀ rounds, (l.scanAfter outputSize type rest rounds).Tells l.readType
        ((l.strictLength = true → rest.length + 1 = outputSize) ∧ type = l.readType)
        (rest.take rounds)) ∧
      (l.inspect outputSize type rest).1.Tells
        (∃ payload, l.unpad outputSize (type :: rest) = .ok (.ok payload))) ∧
    (∀ (l : Oaep) (fits : Bool) (data : Bytes),
      (∀ rounds, (l.scanAfter fits data rounds).Tells
        (fits = true ∧ data.take l.content.size = l.labelDigest)
        ((data.drop l.content.size).take rounds)) ∧
      ((l.scanAfter fits data data.length).good &&&
          (l.scanAfter fits data data.length).found).Tells
        (∃ message, l.readData (Mask.ofBool fits) data = .ok (.ok message))) ∧
    ∀ (l : Pkcs1) (outputSize length : ℕ) (type : UInt8) (filler : Bytes) (rounds : ℕ),
      (Mask.equalByte type 0x02 &&&
          (if l.strictLength then Mask.equalSizes length outputSize else Mask.yes) &&&
          Pkcs1.noneZero (filler.take rounds)).Tells
        ((type = 0x02 ∧ (l.strictLength = true → length = outputSize)) ∧
          ∀ b ∈ filler.take rounds, b ≠ 0x00) := by
  refine ⟨fun w x => .of_eq (Mask.isZero_eq x), fun a b => .of_eq (Mask.equalByte_eq a b),
    fun w a b => .of_eq (Mask.equal_eq a b), fun a b => .of_eq (Mask.equalSizes_eq a b),
    fun w a b => .of_eq (Mask.less_eq a b), fun a b => .of_eq (Mask.sameBytes_eq a b),
    fun w a b => ⟨Mask.select_ofBool true a b, Mask.select_ofBool false a b⟩,
    fun a b => ⟨Mask.selectByte_ofBool true a b, Mask.selectByte_ofBool false a b⟩, ?_, ?_, ?_⟩
  · intro l outputSize type rest
    exact ⟨l.scanAfter_tells outputSize type rest, l.inspect_tells outputSize type rest⟩
  · intro l fits data
    exact ⟨l.scanAfter_tells fits data, l.verdict_tells fits data⟩
  · intro l outputSize length type filler rounds
    have nonzero : (Pkcs1.noneZero (filler.take rounds)).Tells
        (∀ b ∈ filler.take rounds, b ≠ 0x00) :=
      Mask.tells_iff.mpr ⟨_, Pkcs1.noneZero_eq _, by simp⟩
    exact ((Mask.Tells.of_eq (Mask.equalByte_eq type 0x02)).and
      (l.lengthGood_tells outputSize length)).and nonzero

end PublicKeyCrypto
