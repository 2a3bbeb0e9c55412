import PublicKeyCrypto.Proofs.Cipher.Oaep
import PublicKeyCrypto.Proofs.Cipher.Pkcs1
import PublicKeyCrypto.Proofs.Cipher.RoundTrip
import PublicKeyCrypto.Proofs.Pss.Session
import Mathlib

/-!
# The blocks that decoders accept

A decoder knows nothing of where a block comes from.  Whatever cipher is under it and whatever that
cipher gives back, the decoder accepts the blocks of a grammar, with the payload that the grammar
gives them, and refuses every other block with one error.

The grammars say nothing of scans, masks of words or positions:

* **PKCS #1** (`Pkcs1.Grammatical`).  A type byte, at least eight bytes of padding, a zero byte and
  the payload.  The padding is free of zeros or all ones, according to the type, so that the zero
  byte is the first one and the payload is unique.
* **OAEP** (`Oaep.Encloses`).  The cipher drops zeros in front, which are put back.  Then the block
  is cut in two and each part loses its mask; the mask is the string of the standard.

The decoder is the cipher followed by a reading of the block that reads nothing from the tape
(`Call.run_after`), so that a statement about blocks becomes one about runs.

## Main Definitions

* `Pkcs1.Grammatical`, `Oaep.Encloses` — the grammars
* `Oaep.unmasked` — the data block under both masks

## Main Results

* `padding_decoder_exact` — what PKCS #1 accepts, over any cipher
* `oaep_decoder_exact` — what OAEP accepts, over any cipher
-/

namespace PublicKeyCrypto

/-! ## Runs of decoders -/

namespace Call

variable {α : Type}

/-- What follows an answer without reading the tape ends at the same place.  A refusal passes. -/
theorem run_after (x : Call α) (f : α → Except Fault (Except Error Bytes)) (tape : Tape)
    (patience start : ℕ) :
    (do
      let a ← x
      ofExcept (← checked (f a)) : Call Bytes).run.run tape patience start =
      match x.run.run tape patience start with
      | .ok (.ok a, stop) =>
          match f a with
          | .ok answer => .ok (answer, stop)
          | .error broken => .error (.fault broken)
      | .ok (.error refusal, stop) => .ok (.error refusal, stop)
      | .error halt => .error halt := by
  rw [ExceptT.run_bind, Draw.run_bind]
  rcases x.run.run tape patience start with halt | ⟨refusal | a, stop⟩
  · rfl
  · rfl
  · dsimp only
    cases f a with
    | error broken => rfl
    | ok answer => rfl

/-- A reading that accepts by a grammar, or else refuses with one error, makes a decoder that does
the same. -/
theorem run_after_exact {x : Call α} {f : α → Except Fault (Except Error Bytes)} {tape : Tape}
    {patience start stop : ℕ} {a : α} {accepts : Bytes → Prop} {refusal : Error}
    (returned : x.run.run tape patience start = .ok (.ok a, stop))
    (accepted : ∀ payload, f a = .ok (.ok payload) ↔ accepts payload)
    (cases : (∃ payload, f a = .ok (.ok payload)) ∨ f a = .ok (.error refusal)) :
    let answer := (do
      let a ← x
      ofExcept (← checked (f a)) : Call Bytes).run.run tape patience start
    (∀ payload, answer = .ok (.ok payload, stop) ↔ accepts payload) ∧
      ((∀ payload, ¬accepts payload) → answer = .ok (.error refusal, stop)) := by
  intro answer
  have run := run_after x f tape patience start
  rw [returned] at run
  dsimp only at run
  rcases cases with ⟨payload, given⟩ | refused
  · rw [given] at run
    refine ⟨fun payload' => ?_, fun none => absurd ((accepted payload).mp given) (none payload)⟩
    rw [show answer = _ from run, ← accepted payload', given]
    simp
  · rw [refused] at run
    refine ⟨fun payload' => ?_, fun _ => run⟩
    rw [show answer = _ from run, ← accepted payload', refused]
    simp

end Call

/-! ## PKCS #1 -/

namespace Pkcs1

/-- The blocks that are read with a private or a public key: the type, the padding, a zero byte and
the payload. -/
def Grammatical (isPrivate : Bool) (payload block : Bytes) : Prop :=
  ∃ filler : Bytes,
    block = (if isPrivate then 0x02 else 0x01) :: (filler ++ 0x00 :: payload) ∧
      8 ≤ filler.length ∧ ∀ b ∈ filler, if isPrivate then b ≠ 0x00 else b = 0xFF

variable {l : Pkcs1} {payload payload' block : Bytes}

/-- The grammar describes the formed blocks of the type that is read. -/
theorem grammatical_iff_formed :
    Grammatical l.withPrivateKey payload block ↔
      ∃ filler, Formed l.readType filler payload block := by
  refine exists_congr fun filler => ?_
  rw [readType]
  cases l.withPrivateKey with
  | true =>
      constructor
      · rintro ⟨same, long, nonzero⟩
        exact ⟨same, long, nonzero, fun one => absurd one (by decide)⟩
      · rintro ⟨same, long, nonzero, -⟩
        exact ⟨same, long, nonzero⟩
  | false =>
      constructor
      · rintro ⟨same, long, ones⟩
        refine ⟨same, long, fun b hb => ?_, fun _ => ones⟩
        rw [show b = 0xFF from ones b hb]
        decide
      · rintro ⟨same, long, -, ones⟩
        exact ⟨same, long, ones rfl⟩

/-- **The payload is unique**: a decoder that is not strict finds it. -/
theorem Grammatical.payload_eq {isPrivate : Bool} (h : Grammatical isPrivate payload block)
    (h' : Grammatical isPrivate payload' block) : payload = payload' := by
  let reader : Pkcs1 := { strictLength := false, withPrivateKey := isPrivate }
  have found (p : Bytes) (hp : Grammatical isPrivate p block) :
      reader.unpad 0 block = .ok (.ok p) :=
    (reader.unpad_eq_ok_iff 0).mpr
      ⟨(grammatical_iff_formed (l := reader)).mp hp, fun strict => absurd strict Bool.false_ne_true⟩
  exact Except.ok.inj (Except.ok.inj ((found payload h).symm.trans (found payload' h')))

end Pkcs1

/-- **PKCS #1 accepts its grammar.**  Whatever block the cipher gives, a decoder that expects no
length returns a payload exactly if the block is one of the grammar for the role of the key, with
that payload, and has the full output size of the cipher if lengths are strict.  There is one such
payload at most, and every other block is refused with the one error. -/
theorem padding_decoder_exact (l : Pkcs1) (decrypting : l.direction = .decrypt)
    (ordinary : l.expectedLength = none) (below : CipherView) {input block : Bytes} {tape : Tape}
    {patience start stop : ℕ}
    (returned : (below.process input).run.run tape patience start = .ok (.ok block, stop)) :
    let answer := (l.process below input).run.run tape patience start
    let accepts (payload : Bytes) := Pkcs1.Grammatical l.withPrivateKey payload block ∧
      (l.strictLength = true → block.length = below.outputSize)
    (∀ payload, answer = .ok (.ok payload, stop) ↔ accepts payload) ∧
      (∀ payload payload', accepts payload → accepts payload' → payload = payload') ∧
      ((∀ payload, ¬accepts payload) → answer = .ok (.error .invalidCipherText, stop)) := by
  intro answer accepts
  have accepted (payload : Bytes) :
      l.unpad below.outputSize block = .ok (.ok payload) ↔ accepts payload := by
    rw [l.unpad_eq_ok_iff, ← Pkcs1.grammatical_iff_formed]
  obtain ⟨given, refused⟩ :=
    Call.run_after_exact returned accepted (l.unpad_cases below.outputSize block)
  rw [← Pkcs1.decode, ← l.process_of_ordinary decrypting ordinary] at given refused
  refine ⟨given, ?_, refused⟩
  intro payload payload' h h'
  exact h.1.payload_eq h'.1

/-- A block with the least padding and its payload, as the private key finds it. -/
theorem padding_decoder_exact_for_eight_bytes :
    let l : Pkcs1 := { withPrivateKey := true }
    let view := CipherView.ofCipher (Rsa.Cipher.keyed .decrypt (.ofPrivate oneByteKey))
    let encrypted (block : Bytes) : Bytes :=
      Bytes.minimal (block.value ^ oneByteKey.publicExponent % oneByteKey.modulus)
    let padded (count : ℕ) (payload : Bytes) : Bytes :=
      0x02 :: (List.replicate count 0x05 ++ 0x00 :: payload)
    let run (call : Call Bytes) := call.run.run (fun _ => 1) 1 0
    l.direction = .decrypt ∧ l.expectedLength = none ∧
      run (view.process (encrypted (padded 8 [0x41]))) = .ok (.ok (padded 8 [0x41]), 12) ∧
      run (l.process view (encrypted (padded 8 [0x41]))) = .ok (.ok [0x41], 12) ∧
      run (view.process (encrypted (padded 7 [0x41, 0x42]))) =
        .ok (.ok (padded 7 [0x41, 0x42]), 12) ∧
      (∀ payload, ¬Pkcs1.Grammatical true payload (padded 7 [0x41, 0x42])) := by
  intro l view encrypted padded run
  have long : run (view.process (encrypted (padded 8 [0x41]))) =
      .ok (.ok (padded 8 [0x41]), 12) := by decide +kernel
  have short : run (view.process (encrypted (padded 7 [0x41, 0x42]))) =
      .ok (.ok (padded 7 [0x41, 0x42]), 12) := by decide +kernel
  have refused : run (l.process view (encrypted (padded 7 [0x41, 0x42]))) =
      .ok (.error .invalidCipherText, 12) := by decide +kernel
  have grammatical : Pkcs1.Grammatical true [0x41] (padded 8 [0x41]) := by
    refine ⟨List.replicate 8 0x05, rfl, le_rfl, fun b hb => ?_⟩
    rw [List.eq_of_mem_replicate hb]
    decide
  refine ⟨rfl, rfl, long, ?_, short, fun payload h => ?_⟩
  · exact ((padding_decoder_exact l rfl rfl view long).1 [0x41]).mpr ⟨grammatical, fun _ => rfl⟩
  · have given := ((padding_decoder_exact l rfl rfl view short).1 payload).mpr ⟨h, fun _ => rfl⟩
    cases refused.symm.trans given

/-! ## OAEP -/

namespace Oaep

variable (l : Oaep)

/-- The data block under both masks: the seed is found under the mask of the masked data, and the
data under the mask of the seed. -/
def unmasked (maskedSeed maskedData : Bytes) : Bytes :=
  let seed := List.zipWith (· ^^^ ·) maskedSeed (l.maskHash.mgf1 maskedData maskedSeed.length)
  List.zipWith (· ^^^ ·) maskedData (l.maskHash.mgf1 seed maskedData.length)

/-- What the cipher gave holds a message: it is not too long, and with zeros in front up to the
length of a block it is a masked seed and a masked data block for the label and the message. -/
def Encloses (len : ℕ) (message decrypted : Bytes) : Prop :=
  decrypted.length ≤ len ∧ ∃ (maskedSeed maskedData : Bytes) (count : ℕ),
    Bytes.zeros (len - decrypted.length) ++ decrypted = maskedSeed ++ maskedData ∧
      maskedSeed.length = l.content.size ∧
      l.unmasked maskedSeed maskedData =
        l.content.digest l.label ++ (Bytes.zeros count ++ 0x01 :: message)

variable {l}

/-- Unmasking in place gives the data block under both masks. -/
theorem dataBlock_append {maskedSeed : Bytes} (length : maskedSeed.length = l.content.size)
    (maskedData : Bytes) :
    l.dataBlock (maskedSeed ++ maskedData) = l.unmasked maskedSeed maskedData := by
  rw [dataBlock, List.take_left' length, List.drop_left' length, Hash.mask_eq_zipWith,
    Hash.mask_eq_zipWith, unmasked]

/-- The grammar describes the blocks that are read. -/
theorem encloses_iff_formed {len : ℕ} (room : l.overhead ≤ len) {message decrypted : Bytes} :
    l.Encloses len message decrypted ↔
      decrypted.length ≤ len ∧ l.Formed message (l.dataBlock (fullBlock len decrypted)) := by
  refine and_congr_right fun fits => ?_
  rw [fullBlock, if_pos fits]
  constructor
  · rintro ⟨maskedSeed, maskedData, count, cut, length, data⟩
    rw [cut, dataBlock_append length]
    exact ⟨count, data⟩
  · rintro ⟨count, data⟩
    have total : (Bytes.zeros (len - decrypted.length) ++ decrypted).length =
        l.content.size + (len - l.content.size) := by
      rw [overhead] at room
      rw [List.length_append, Bytes.length_zeros]
      omega
    obtain ⟨maskedSeed, maskedData, cut, length, -⟩ := Bytes.exists_join total
    rw [cut, dataBlock_append length] at data
    exact ⟨maskedSeed, maskedData, count, cut, length, data⟩

end Oaep

/-- **OAEP accepts its grammar.**  Over a cipher with room for a seed, a label digest and one byte,
a decoder returns a message exactly if what the cipher gave encloses it.  Everything else is refused
with the one error. -/
theorem oaep_decoder_exact (l : Oaep) (decrypting : l.direction = .decrypt) (below : CipherView)
    (room : 2 * l.content.size + 1 ≤ below.outputSize) {input decrypted : Bytes} {tape : Tape}
    {patience start stop : ℕ}
    (returned : (below.process input).run.run tape patience start = .ok (.ok decrypted, stop)) :
    let answer := (l.process below input).run.run tape patience start
    (∀ message, answer = .ok (.ok message, stop) ↔
        l.Encloses below.outputSize message decrypted) ∧
      ((∀ message, ¬l.Encloses below.outputSize message decrypted) →
        answer = .ok (.error .invalidCipherText, stop)) := by
  intro answer
  have size : below.blockSize l.direction = below.outputSize := by
    rw [decrypting]
    rfl
  have decodes : l.process below input = l.decode below input := by
    rw [Oaep.process, decrypting]
  have accepted (message : Bytes) :
      l.unpad (below.blockSize l.direction) decrypted = .ok (.ok message) ↔
        l.Encloses below.outputSize message decrypted := by
    rw [size, l.unpad_eq_ok_iff room, Oaep.encloses_iff_formed room]
  have exact := Call.run_after_exact returned accepted (l.unpad_cases _ decrypted)
  rw [← Oaep.decode, ← decodes] at exact
  exact exact

/-- A block of eleven bytes whose masked seed is zero, so that the cipher drops it. -/
theorem oaep_decoder_exact_without_first_byte :
    let l : Oaep := { content := Pss.byteSum, maskHash := Pss.byteSum }
    let view := CipherView.ofCipher (Rsa.Cipher.keyed .decrypt (.ofPrivate oneByteKey))
    let decrypted : Bytes := [0xED, 0xEE, 0xEF, 0xF0, 0xF1, 0xF2, 0xF3, 0xF5, 0xB4, 0xB4]
    let encrypted : Bytes :=
      Bytes.minimal (decrypted.value ^ oneByteKey.publicExponent % oneByteKey.modulus)
    let run (call : Call Bytes) := call.run.run (fun _ => 1) 1 0
    l.direction = .decrypt ∧ 2 * l.content.size + 1 ≤ view.outputSize ∧ view.outputSize = 11 ∧
      run (view.process encrypted) = .ok (.ok decrypted, 12) ∧
      run (l.process view encrypted) = .ok (.ok [0x41, 0x42], 12) := by
  intro l view decrypted encrypted run
  have size : view.outputSize = 11 := by decide +kernel
  have room : 2 * l.content.size + 1 ≤ view.outputSize := by
    rw [size]
    decide
  have returned : run (view.process encrypted) = .ok (.ok decrypted, 12) := by decide +kernel
  have encloses : l.Encloses view.outputSize [0x41, 0x42] decrypted := by
    rw [size]
    exact ⟨by decide, [0x00], decrypted, 6, rfl, rfl, by decide +kernel⟩
  exact ⟨rfl, room, size, returned,
    ((oaep_decoder_exact l rfl view room returned).1 [0x41, 0x42]).mpr encloses⟩

end PublicKeyCrypto
