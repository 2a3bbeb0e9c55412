import PublicKeyCrypto.Cipher.Pkcs1
import PublicKeyCrypto.Proofs.Mask
import PublicKeyCrypto.Proofs.Random.Outcomes
import Mathlib

/-!
# The blocks of PKCS #1

A block is *formed* when it is the type byte, padding that fits the type, a zero byte and the
payload.  The scan without branches finds out exactly that: it accepts the formed blocks, of the
right length where lengths are strict, and gives the payload of the only zero byte that can be the
separator, namely the first.

A scan goes through three stages — before the first zero byte, at it, and behind it — and there is
one lemma for each.  The first two say what has been collected; the last says that nothing
changes any more.

## Main Definitions

* `Pkcs1.Formed` — a block with its padding and its payload

## Main Results

* `Pkcs1.unpad_eq_ok_iff` — the blocks that are accepted, with their payloads
* `Pkcs1.unpad_cases` — every other block is refused with one error, and none is a fault
* `Pkcs1.encode_always` — what is written is a formed block of full length
-/

namespace PublicKeyCrypto.Pkcs1

/-- A block of a type, with its padding and its payload. -/
structure Formed (type : UInt8) (filler payload block : Bytes) : Prop where
  block_eq : block = type :: (filler ++ 0x00 :: payload)
  long : 8 ≤ filler.length
  nonzero : ∀ b ∈ filler, b ≠ 0x00
  ones : type = 0x01 → ∀ b ∈ filler, b = 0xFF

/-! ## The stages of a scan -/

section Scan

variable {w : ℕ} {type : UInt8}

/-- One step, on truth values. -/
theorem step_ofBool (found good : Bool) (separator : BitVec w) (b : UInt8) (position : ℕ) :
    Scan.step type ⟨Mask.ofBool found, separator, Mask.ofBool good⟩ b position =
      ⟨Mask.ofBool (found || decide (b = 0x00)),
        if (decide (b = 0x00) && !found) = true then BitVec.ofNat w position else separator,
        Mask.ofBool (good && (decide (type ≠ 0x01) || found || decide (b = 0x00) ||
          decide (b = 0xFF)))⟩ := by
  simp only [Scan.step, Mask.equalByte_eq, Mask.not_ofBool, Mask.and_ofBool, Mask.or_ofBool,
    Mask.select_ofBool]
  by_cases one : type = 0x01 <;> simp [one]

/-- Before the first zero byte only the rule about the padding is checked. -/
theorem steps_nonzero {filler : Bytes} (nonzero : ∀ b ∈ filler, b ≠ 0x00) (good : Bool)
    (separator : BitVec w) (position : ℕ) (rest : Bytes) :
    Scan.steps type ⟨Mask.ofBool false, separator, Mask.ofBool good⟩ position (filler ++ rest) =
      Scan.steps type ⟨Mask.ofBool false, separator,
        Mask.ofBool (good && (decide (type ≠ 0x01) || filler.all (decide <| · = 0xFF)))⟩
        (position + filler.length) rest := by
  induction filler generalizing good position with
  | nil => simp
  | cons b filler ih =>
      have hb : decide (b = 0x00) = false := decide_eq_false (nonzero b List.mem_cons_self)
      have hrest : ∀ c ∈ filler, c ≠ 0x00 := fun c hc => nonzero c (List.mem_cons_of_mem b hc)
      have collected : (good && (decide (type ≠ 0x01) || decide (b = 0xFF)) &&
          (decide (type ≠ 0x01) || filler.all (decide <| · = 0xFF))) =
          (good && (decide (type ≠ 0x01) || (b :: filler).all (decide <| · = 0xFF))) := by
        rw [List.all_cons]
        cases good <;> cases decide (type ≠ 0x01) <;> simp
      rw [List.cons_append, Scan.steps, step_ofBool, hb]
      simp only [Bool.or_false, Bool.false_and, Bool.false_eq_true, if_false]
      rw [ih hrest, collected, List.length_cons, Nat.add_assoc, Nat.add_comm 1]

/-- Behind the first zero byte nothing changes. -/
theorem steps_found (good : Bool) (separator : BitVec w) (position : ℕ) (rest : Bytes) :
    Scan.steps type ⟨Mask.ofBool true, separator, Mask.ofBool good⟩ position rest =
      ⟨Mask.ofBool true, separator, Mask.ofBool good⟩ := by
  induction rest generalizing position with
  | nil => rfl
  | cons b rest ih =>
      rw [Scan.steps, step_ofBool]
      simp only [Bool.true_or, Bool.or_true, Bool.not_true, Bool.and_false, Bool.and_true,
        Bool.false_eq_true, if_false]
      exact ih (position + 1)

/-- A scan over a string with a zero byte, from its start to its end. -/
theorem steps_split {filler : Bytes} (nonzero : ∀ b ∈ filler, b ≠ 0x00) (good : Bool)
    (separator : BitVec w) (position : ℕ) (payload : Bytes) :
    Scan.steps type ⟨Mask.ofBool false, separator, Mask.ofBool good⟩ position
        (filler ++ 0x00 :: payload) =
      ⟨Mask.ofBool true, BitVec.ofNat w (position + filler.length),
        Mask.ofBool (good && (decide (type ≠ 0x01) || filler.all (decide <| · = 0xFF)))⟩ := by
  rw [steps_nonzero nonzero, Scan.steps, step_ofBool]
  simp only [decide_true, Bool.or_true, Bool.and_true, Bool.not_false, if_true, Bool.true_or]
  exact steps_found _ _ _ _

end Scan

/-- A string has no zero byte, or it splits at the first one. -/
theorem nonzero_or_split (rest : Bytes) :
    (∀ b ∈ rest, b ≠ 0x00) ∨
      ∃ filler payload, rest = filler ++ 0x00 :: payload ∧ ∀ b ∈ filler, b ≠ 0x00 := by
  induction rest with
  | nil => exact .inl (fun b hb => absurd hb List.not_mem_nil)
  | cons b rest ih =>
      by_cases zero : b = 0x00
      · subst zero
        exact .inr ⟨[], rest, rfl, fun c hc => absurd hc List.not_mem_nil⟩
      · rcases ih with nonzero | ⟨filler, payload, rfl, nonzero⟩
        · exact .inl (List.forall_mem_cons.mpr ⟨zero, nonzero⟩)
        · exact .inr ⟨b :: filler, payload, rfl, List.forall_mem_cons.mpr ⟨zero, nonzero⟩⟩

/-! ## The inspection of a block -/

variable (l : Pkcs1) (outputSize : ℕ)

/-- The rules of a block whose first zero byte is known, as a truth value. -/
def accepts (type : UInt8) (filler : Bytes) (length : ℕ) : Bool :=
  (!l.strictLength || decide (length = outputSize)) && decide (type = l.readType) &&
    (decide (l.readType ≠ 0x01) || filler.all (decide <| · = 0xFF)) && decide (8 ≤ filler.length)

/-- The mask of the rule about the length. -/
theorem lengthGood_eq (length : ℕ) :
    (if l.strictLength = true then Mask.equalSizes length outputSize else Mask.yes) =
      Mask.ofBool (!l.strictLength || decide (length = outputSize)) := by
  rw [Mask.equalSizes_eq]
  cases l.strictLength <;> simp

/-- The inspection of a block with a zero byte: the rules, and the position of that byte. -/
theorem inspect_split {type : UInt8} {filler : Bytes} (nonzero : ∀ b ∈ filler, b ≠ 0x00)
    (payload : Bytes) :
    l.inspect outputSize type (filler ++ 0x00 :: payload) =
      (Mask.ofBool (l.accepts outputSize type filler
        (type :: (filler ++ 0x00 :: payload)).length), filler.length + 1) := by
  set len := (filler ++ 0x00 :: payload).length + 1 with hlen
  -- Positions and the header fit into the words of the scan, so that nothing wraps around.
  have wide : len + headerLength < 2 ^ bitLength (len + headerLength) :=
    bitLength_le_iff.mp le_rfl
  have shorter : filler.length + 1 < len := by
    rw [hlen, List.length_append, List.length_cons]
    omega
  have position : (BitVec.ofNat (bitLength (len + headerLength)) (1 + filler.length)).toNat =
      filler.length + 1 := by
    rw [BitVec.toNat_ofNat, Nat.mod_eq_of_lt (by omega), Nat.add_comm]
  have header : (BitVec.ofNat (bitLength (len + headerLength)) (headerLength - 1)).toNat =
      headerLength - 1 := by
    rw [BitVec.toNat_ofNat, Nat.mod_eq_of_lt (by omega)]
  have late : (!decide (filler.length + 1 < headerLength - 1)) = decide (8 ≤ filler.length) := by
    rw [← decide_not, decide_eq_decide, headerLength]
    omega
  rw [inspect, ← hlen, lengthGood_eq, Mask.equalByte_eq, Mask.and_ofBool, ← Mask.ofBool_false,
    steps_split nonzero, Mask.less_eq, position, header, Mask.not_ofBool, Mask.and_ofBool,
    Mask.and_ofBool, late, Bool.true_and]
  rfl

/-- A block without a zero byte is not accepted. -/
theorem inspect_nonzero {type : UInt8} {rest : Bytes} (nonzero : ∀ b ∈ rest, b ≠ 0x00) :
    (l.inspect outputSize type rest).1 = Mask.no := by
  have scanned (w : ℕ) (good : Bool) :
      Scan.steps l.readType ⟨Mask.ofBool false, (0 : BitVec w), Mask.ofBool good⟩ 1 rest =
        ⟨Mask.ofBool false, 0, Mask.ofBool
          (good && (decide (l.readType ≠ 0x01) || rest.all (decide <| · = 0xFF)))⟩ := by
    rw [← List.append_nil rest, steps_nonzero nonzero]
    rw [List.append_nil]
    rfl
  rw [inspect, lengthGood_eq, Mask.equalByte_eq, Mask.and_ofBool, ← Mask.ofBool_false, scanned,
    Mask.less_eq, Mask.not_ofBool, Mask.and_ofBool, Mask.and_ofBool, Bool.false_and,
    Bool.and_false]

/-! ## The payload of a block -/

/-- A block with a zero byte is accepted by the rules alone, and its payload is what follows that
byte. -/
theorem unpad_split {type : UInt8} {filler : Bytes} (nonzero : ∀ b ∈ filler, b ≠ 0x00)
    (payload : Bytes) :
    l.unpad outputSize (type :: (filler ++ 0x00 :: payload)) =
      if l.accepts outputSize type filler (type :: (filler ++ 0x00 :: payload)).length = true
      then .ok (.ok payload) else .ok (.error .invalidCipherText) := by
  have tail : Bytes.slice (type :: (filler ++ 0x00 :: payload)) (filler.length + 1 + 1)
      (type :: (filler ++ 0x00 :: payload)).length = .ok payload := by
    rw [Bytes.slice_eq_ok_iff]
    refine ⟨by simp, le_rfl, ?_⟩
    rw [List.take_length, List.drop_succ_cons, ← List.drop_drop, List.drop_left]
    rfl
  rw [unpad, inspect_split l outputSize nonzero]
  dsimp only
  by_cases rules :
      l.accepts outputSize type filler (type :: (filler ++ 0x00 :: payload)).length = true
  · rw [if_pos rules, rules, if_neg (by decide), tail]
    rfl
  · rw [if_neg rules, if_pos (Mask.ofBool_eq_no.mpr (eq_false_of_ne_true rules))]

/-- The rules hold of formed blocks, and of no others. -/
theorem accepts_iff {type : UInt8} {filler payload : Bytes}
    (nonzero : ∀ b ∈ filler, b ≠ 0x00) :
    l.accepts outputSize type filler (type :: (filler ++ 0x00 :: payload)).length = true ↔
      Formed l.readType filler payload (type :: (filler ++ 0x00 :: payload)) ∧
        (l.strictLength = true →
          (type :: (filler ++ 0x00 :: payload)).length = outputSize) := by
  simp only [accepts, Bool.and_eq_true, Bool.or_eq_true, Bool.not_eq_true', decide_eq_true_eq,
    List.all_eq_true]
  constructor
  · rintro ⟨⟨⟨length, rfl⟩, ones⟩, long⟩
    refine ⟨⟨rfl, long, nonzero, fun one => ones.resolve_left (not_not.mpr one)⟩, ?_⟩
    intro strict
    rw [strict] at length
    exact length.resolve_left Bool.noConfusion
  · rintro ⟨⟨same, long, -, ones⟩, length⟩
    refine ⟨⟨⟨?_, (List.cons.inj same).1⟩, ?_⟩, long⟩
    · cases strict : l.strictLength with
      | false => exact .inl rfl
      | true => exact .inr (length strict)
    · exact (em (l.readType = 0x01)).elim (fun one => .inr (ones one)) .inl

/-- **The blocks that are accepted.**  Exactly the formed blocks of the type that is read, of full
length if lengths are strict, and the payload is that of the block. -/
theorem unpad_eq_ok_iff {block payload : Bytes} :
    l.unpad outputSize block = .ok (.ok payload) ↔
      (∃ filler, Formed l.readType filler payload block) ∧
        (l.strictLength = true → block.length = outputSize) := by
  constructor
  · intro h
    cases block with
    | nil => exact absurd h (by simp [unpad])
    | cons type rest =>
        rcases nonzero_or_split rest with nonzero | ⟨filler, payload', rfl, nonzero⟩
        · have refused : (l.inspect outputSize type rest).1 = Mask.no :=
            inspect_nonzero l outputSize nonzero
          rw [unpad] at h
          dsimp only at h
          rw [if_pos refused] at h
          exact absurd h (by simp)
        · rw [unpad_split l outputSize nonzero] at h
          split at h
          · next rules =>
            cases h
            obtain ⟨formed, length⟩ := (accepts_iff l outputSize nonzero).mp rules
            exact ⟨⟨filler, formed⟩, length⟩
          · exact absurd h (by simp)
  · rintro ⟨⟨filler, formed⟩, length⟩
    obtain rfl := formed.block_eq
    rw [unpad_split l outputSize formed.nonzero,
      if_pos ((accepts_iff l outputSize formed.nonzero).mpr ⟨formed, length⟩)]

/-- No block is a fault: it is accepted, or refused with the one error. -/
theorem unpad_cases (block : Bytes) :
    (∃ payload, l.unpad outputSize block = .ok (.ok payload)) ∨
      l.unpad outputSize block = .ok (.error .invalidCipherText) := by
  cases block with
  | nil => exact .inr rfl
  | cons type rest =>
      rcases nonzero_or_split rest with nonzero | ⟨filler, payload, rfl, nonzero⟩
      · refine .inr ?_
        rw [unpad]
        dsimp only
        rw [if_pos (inspect_nonzero l outputSize nonzero)]
      · rw [unpad_split l outputSize nonzero]
        split
        · exact .inl ⟨payload, rfl⟩
        · exact .inr rfl

/-- Every block is read. -/
theorem exists_unpad (block : Bytes) : ∃ answer, l.unpad outputSize block = .ok answer := by
  rcases l.unpad_cases outputSize block with ⟨payload, accepted⟩ | refused
  · exact ⟨_, accepted⟩
  · exact ⟨_, refused⟩

/-! ## The two decoders -/

/-- A decoder that expects no length may refuse a block. -/
theorem process_of_ordinary (decrypting : l.direction = .decrypt)
    (ordinary : l.expectedLength = none) {below : CipherView} {input : Bytes} :
    l.process below input = l.decode below input := by
  rw [process, decrypting]
  dsimp only
  rw [ordinary]

/-- A decoder that expects a length refuses no block. -/
theorem process_of_expected (decrypting : l.direction = .decrypt) {length : ℕ}
    (expects : l.expectedLength = some length) {below : CipherView} {input : Bytes} :
    l.process below input = l.decodeOrRandom below length input := by
  rw [process, decrypting]
  dsimp only
  rw [expects]

/-! ## Writing a block -/

/-- A byte is drawn again until it is not zero. -/
theorem redraw_always :
    Draw.Always (Draw.untilDone (fun _ => do
        let drawn ← Draw.bytes 1
        return match drawn with
          | [c] => if c ≠ 0 then .done c else .again ()
          | _ => .again ()) ()) fun c : UInt8 => c ≠ 0x00 := by
  refine Draw.ensures_untilDone rfl (fun _ => True) trivial fun _ _ => ?_
  refine Draw.ensures_bind (Draw.ensures_bytes fun drawn length => Draw.ensures_pure ?_)
  obtain ⟨c, rfl⟩ := List.length_eq_one_iff.mp length
  by_cases zero : c = 0x00 <;> simp [zero]

/-- Drawing zeros again keeps the length and leaves no zero. -/
theorem withoutZeros_always (b : Bytes) :
    (withoutZeros b).Always fun out => out.length = b.length ∧ ∀ x ∈ out, x ≠ 0x00 := by
  induction b with
  | nil => exact Draw.ensures_pure ⟨rfl, fun x hx => absurd hx List.not_mem_nil⟩
  | cons b rest ih =>
      have others (first : UInt8) (nonzero : first ≠ 0x00) :
          Draw.Always (do return first :: (← withoutZeros rest)) fun out =>
            out.length = (b :: rest).length ∧ ∀ x ∈ out, x ≠ 0x00 := by
        refine Draw.ensures_bind (ih.mono ?_)
        rintro out ⟨length, nonzeros⟩
        refine Draw.ensures_pure ⟨by rw [List.length_cons, List.length_cons, length], ?_⟩
        exact List.forall_mem_cons.mpr ⟨nonzero, nonzeros⟩
      rw [withoutZeros]
      split
      · next nonzero => exact Draw.ensures_bind (Draw.ensures_pure (others b nonzero))
      · exact Draw.ensures_bind (redraw_always.mono others)

/-- Padding has the length that is asked for and suits the type that is written. -/
theorem padding_always (count : ℕ) :
    (l.padding count).Always fun filler =>
      filler.length = count ∧ (∀ b ∈ filler, b ≠ 0x00) ∧
        (l.writtenType = 0x01 → ∀ b ∈ filler, b = 0xFF) := by
  rw [padding]
  split
  · refine Draw.ensures_pure ⟨List.length_replicate, ?_, ?_⟩
    · intro b hb
      rw [List.eq_of_mem_replicate hb]
      decide
    · intro _ b hb
      exact List.eq_of_mem_replicate hb
  · next random =>
    refine Draw.ensures_bind (Draw.ensures_bytes fun drawn length => ?_)
    refine (withoutZeros_always drawn).mono ?_
    rintro filler ⟨same, nonzero⟩
    refine ⟨same.trans length, nonzero, fun one => ?_⟩
    rw [writtenType, if_neg random] at one
    exact absurd one (by decide)

/-- What is written is a formed block that fills the cipher's input. -/
theorem encode_always {below : CipherView} {payload : Bytes}
    {Q : Except Error Bytes → Prop} (fits : payload.length + headerLength ≤ below.inputSize)
    (h : ∀ filler block, Formed l.writtenType filler payload block →
      block.length = below.inputSize → (below.process block).run.Always Q) :
    (l.encode below payload).run.Always Q := by
  -- The header is longer than what either subtraction takes off.
  have separator := difference_of_le (show payload.length + 1 ≤ below.inputSize by
    rw [headerLength] at fits
    omega)
  have count := difference_of_le (show 1 ≤ below.inputSize - (payload.length + 1) by
    rw [headerLength] at fits
    omega)
  rw [encode]
  dsimp only
  rw [if_neg (not_lt.mpr fits), separator]
  refine Call.ensures_bind (Draw.ensures_pure ?_)
  dsimp only
  refine Call.ensures_bind ?_
  rw [count]
  refine Draw.ensures_pure ?_
  dsimp only
  refine Call.ensures_lift_bind ((l.padding_always _).mono ?_)
  rintro filler ⟨length, nonzero, ones⟩
  rw [headerLength] at fits
  refine h filler _ ⟨rfl, by omega, nonzero, ones⟩ ?_
  simp only [List.length_cons, List.length_append]
  omega

/-- A payload that does not fit is refused. -/
theorem run_encode_of_lt {below : CipherView} {payload : Bytes}
    (long : below.inputSize < payload.length + headerLength) :
    (l.encode below payload).run = pure (.error (.invalidArgument .paddedInputTooLarge)) := by
  rw [encode]
  dsimp only
  rw [if_pos long]
  rfl

end PublicKeyCrypto.Pkcs1
