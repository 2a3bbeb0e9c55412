import PublicKeyCrypto.Cipher.Oaep
import PublicKeyCrypto.Proofs.Derivation.Mgf1
import PublicKeyCrypto.Proofs.Mask
import PublicKeyCrypto.Proofs.Random.Outcomes
import Mathlib

/-!
# The blocks of OAEP

Without its masks a block is a seed and a data block, and the data block of a message is the label
digest, zeros, a byte 1 and the message.  Masking is undone by masking in the reverse order, with
the same two masks; so encoding and decoding meet in the data block, and only the reading of data
blocks has to be studied.

As for PKCS #1, the scan without branches has three stages, with one lemma for each.

## Main Definitions

* `Oaep.dataBlock` — the data block of a block, without its mask
* `Oaep.Formed` — the data blocks of a message

## Main Results

* `Oaep.unpad_eq_ok_iff` — the blocks that are accepted, with their messages
* `Oaep.unpad_cases` — every other block is refused with one error, and none is a fault
* `Oaep.encode_always` — what is written is a block of full length for the message
-/

namespace PublicKeyCrypto.Oaep

/-! ## The stages of a scan -/

section Scan

variable {w : ℕ}

/-- One step, on truth values. -/
theorem step_ofBool (found good : Bool) (start : BitVec w) (b : UInt8) (position : ℕ) :
    Scan.step ⟨Mask.ofBool found, start, Mask.ofBool good⟩ b position =
      ⟨Mask.ofBool (found || decide (b ≠ 0x00)),
        if (decide (b ≠ 0x00) && !found) = true then BitVec.ofNat w position else start,
        Mask.ofBool (good && (!(decide (b ≠ 0x00) && !found) || decide (b = 0x01)))⟩ := by
  simp only [Scan.step, Mask.equalByte_eq, Mask.not_ofBool, Mask.and_ofBool, Mask.or_ofBool,
    Mask.select_ofBool, decide_not]

/-- Zeros before the first nonzero byte change nothing. -/
theorem steps_zeros (count : ℕ) (good : Bool) (start : BitVec w) (position : ℕ) (rest : Bytes) :
    Scan.steps ⟨Mask.ofBool false, start, Mask.ofBool good⟩ position
        (Bytes.zeros count ++ rest) =
      Scan.steps ⟨Mask.ofBool false, start, Mask.ofBool good⟩ (position + count) rest := by
  induction count generalizing position with
  | zero => rfl
  | succ count ih =>
      have next := ih (position + 1)
      rw [Nat.add_assoc, Nat.add_comm 1] at next
      rw [← next, Bytes.zeros, List.replicate_succ, List.cons_append, Scan.steps, step_ofBool]
      simp [Bytes.zeros]

/-- Behind the first nonzero byte nothing changes. -/
theorem steps_found (good : Bool) (start : BitVec w) (position : ℕ) (rest : Bytes) :
    Scan.steps ⟨Mask.ofBool true, start, Mask.ofBool good⟩ position rest =
      ⟨Mask.ofBool true, start, Mask.ofBool good⟩ := by
  induction rest generalizing position with
  | nil => rfl
  | cons b rest ih =>
      rw [Scan.steps, step_ofBool]
      simp only [Bool.true_or, Bool.not_true, Bool.and_false, Bool.not_false, Bool.and_true,
        Bool.false_eq_true, if_false]
      exact ih (position + 1)

/-- A scan over a string with a nonzero byte, from its start to its end. -/
theorem steps_split {b : UInt8} (nonzero : b ≠ 0x00) (count : ℕ) (good : Bool) (start : BitVec w)
    (position : ℕ) (message : Bytes) :
    Scan.steps ⟨Mask.ofBool false, start, Mask.ofBool good⟩ position
        (Bytes.zeros count ++ b :: message) =
      ⟨Mask.ofBool true, BitVec.ofNat w (position + count),
        Mask.ofBool (good && decide (b = 0x01))⟩ := by
  rw [steps_zeros, Scan.steps, step_ofBool, decide_eq_true nonzero]
  simp only [Bool.or_true, Bool.not_false, Bool.and_true, Bool.not_true, Bool.false_or, if_true]
  exact steps_found _ _ _ _

end Scan

/-- A string is all zeros, or it splits at the first nonzero byte. -/
theorem zeros_or_split (rest : Bytes) :
    (∃ count, rest = Bytes.zeros count) ∨
      ∃ count b message, rest = Bytes.zeros count ++ b :: message ∧ b ≠ 0x00 := by
  induction rest with
  | nil => exact .inl ⟨0, rfl⟩
  | cons b rest ih =>
      by_cases zero : b = 0x00
      · subst zero
        rcases ih with ⟨count, rfl⟩ | ⟨count, b, message, rfl, nonzero⟩
        · exact .inl ⟨count + 1, rfl⟩
        · exact .inr ⟨count + 1, b, message, rfl, nonzero⟩
      · exact .inr ⟨0, b, rest, rfl, zero⟩

/-! ## The message of a data block -/

variable (l : Oaep)

/-- The data blocks of a message. -/
def Formed (message data : Bytes) : Prop :=
  ∃ count, data = l.labelDigest ++ (Bytes.zeros count ++ 0x01 :: message)

@[simp] theorem length_labelDigest : l.labelDigest.length = l.content.size :=
  l.content.length_digest l.label

/-- The parts of a data block that is read. -/
theorem slice_digest {digest : Bytes} (length : digest.length = l.content.size) (rest : Bytes) :
    Bytes.slice (digest ++ rest) 0 l.content.size = .ok digest ∧
      Bytes.slice (digest ++ rest) l.content.size (digest ++ rest).length = .ok rest := by
  refine ⟨Bytes.slice_eq_ok_iff.mpr ⟨Nat.zero_le _, ?_, ?_⟩,
    Bytes.slice_eq_ok_iff.mpr ⟨?_, le_rfl, ?_⟩⟩
  · rw [List.length_append, length]
    omega
  · rw [← length, List.take_left, List.drop_zero]
  · rw [List.length_append, length]
    omega
  · rw [List.take_length, ← length, List.drop_left]

/-- A data block with a nonzero byte behind the digest is accepted by the rules alone, and its
message is what follows that byte. -/
theorem readData_split {digest : Bytes} (length : digest.length = l.content.size) {b : UInt8}
    (nonzero : b ≠ 0x00) (good : Bool) (count : ℕ) (message : Bytes) :
    l.readData (Mask.ofBool good) (digest ++ (Bytes.zeros count ++ b :: message)) =
      if good = true ∧ digest = l.labelDigest ∧ b = 0x01
      then .ok (.ok message) else .ok (.error .invalidCipherText) := by
  set data := digest ++ (Bytes.zeros count ++ b :: message) with hdata
  have total : data.length = l.content.size + count + 1 + message.length := by
    rw [hdata]
    simp only [List.length_append, List.length_cons, Bytes.length_zeros, length]
    omega
  have position :
      (BitVec.ofNat (bitLength data.length) (l.content.size + count)).toNat =
        l.content.size + count := by
    have wide : data.length < 2 ^ bitLength data.length := bitLength_le_iff.mp le_rfl
    rw [BitVec.toNat_ofNat, Nat.mod_eq_of_lt (by omega)]
  have tail : Bytes.slice data (l.content.size + count + 1) data.length = .ok message := by
    refine Bytes.slice_eq_ok_iff.mpr ⟨by omega, le_rfl, ?_⟩
    have parts : data = (digest ++ Bytes.zeros count ++ [b]) ++ message := by
      rw [hdata]
      simp
    have before : (digest ++ Bytes.zeros count ++ [b]).length = l.content.size + count + 1 := by
      simp only [List.length_append, List.length_singleton, Bytes.length_zeros, length]
    rw [List.take_length, ← before, parts, List.drop_left]
  obtain ⟨first, second⟩ := l.slice_digest length (Bytes.zeros count ++ b :: message)
  rw [← hdata] at first second
  rw [readData, first, second]
  simp only [bind, Except.bind]
  rw [Mask.sameBytes_eq, Mask.and_ofBool, ← Mask.ofBool_false, steps_split nonzero,
    Mask.and_ofBool, position, tail]
  by_cases rules : good = true ∧ digest = l.labelDigest ∧ b = 0x01
  · obtain ⟨rfl, rfl, rfl⟩ := rules
    simp
    rfl
  · rw [if_neg rules, if_pos]
    · rfl
    · refine Mask.ofBool_eq_no.mpr (Bool.eq_false_iff.mpr ?_)
      intro all
      simp only [Bool.and_eq_true, decide_eq_true_eq, and_true] at all
      exact rules ⟨all.1.1, all.1.2, all.2⟩

/-- A data block with nothing but zeros behind the digest is refused. -/
theorem readData_zeros {digest : Bytes} (length : digest.length = l.content.size) (good : Bool)
    (count : ℕ) :
    l.readData (Mask.ofBool good) (digest ++ Bytes.zeros count) =
      .ok (.error .invalidCipherText) := by
  obtain ⟨first, second⟩ := l.slice_digest length (Bytes.zeros count)
  rw [readData, first, second]
  simp only [bind, Except.bind]
  rw [Mask.sameBytes_eq, Mask.and_ofBool, ← Mask.ofBool_false, ← List.append_nil (Bytes.zeros count),
    steps_zeros, Scan.steps, Mask.and_ofBool, Bool.and_false, if_pos rfl]
  rfl

/-- A data block is its digest part, zeros, and possibly a nonzero byte with a message. -/
theorem data_cases {data : Bytes} (inside : l.content.size ≤ data.length) :
    ∃ digest : Bytes, digest.length = l.content.size ∧
      ((∃ count, data = digest ++ Bytes.zeros count) ∨
        ∃ count b message, data = digest ++ (Bytes.zeros count ++ b :: message) ∧ b ≠ 0x00) := by
  refine ⟨data.take l.content.size, List.length_take_of_le inside, ?_⟩
  rcases zeros_or_split (data.drop l.content.size) with
    ⟨count, rest⟩ | ⟨count, b, message, rest, nonzero⟩
  · exact .inl ⟨count, by rw [← rest, List.take_append_drop]⟩
  · exact .inr ⟨count, b, message, by rw [← rest, List.take_append_drop], nonzero⟩

/-- **The data blocks that are accepted.**  Exactly those of a message, and that message is
given. -/
theorem readData_eq_ok_iff {data message : Bytes} {good : Bool}
    (inside : l.content.size ≤ data.length) :
    l.readData (Mask.ofBool good) data = .ok (.ok message) ↔
      good = true ∧ l.Formed message data := by
  constructor
  · intro h
    obtain ⟨digest, length, ⟨count, rfl⟩ | ⟨count, b, message', rfl, nonzero⟩⟩ :=
      l.data_cases inside
    · rw [l.readData_zeros length] at h
      exact absurd h (by simp)
    · rw [l.readData_split length nonzero] at h
      split at h
      · next rules =>
        obtain ⟨rfl, rfl, rfl⟩ := rules
        cases h
        exact ⟨rfl, count, rfl⟩
      · exact absurd h (by simp)
  · rintro ⟨rfl, count, rfl⟩
    rw [l.readData_split l.length_labelDigest (by decide), if_pos ⟨rfl, rfl, rfl⟩]

/-- A data block is accepted, or refused with the one error. -/
theorem readData_cases {data : Bytes} (good : Bool) (inside : l.content.size ≤ data.length) :
    (∃ message, l.readData (Mask.ofBool good) data = .ok (.ok message)) ∨
      l.readData (Mask.ofBool good) data = .ok (.error .invalidCipherText) := by
  obtain ⟨digest, length, ⟨count, rfl⟩ | ⟨count, b, message, rfl, nonzero⟩⟩ :=
    l.data_cases inside
  · exact .inr (l.readData_zeros length good count)
  · rw [l.readData_split length nonzero]
    split
    · exact .inl ⟨message, rfl⟩
    · exact .inr rfl

/-! ## The message of a block -/

/-- The data block of a block, without its mask. -/
def dataBlock (block : Bytes) : Bytes :=
  l.maskHash.mask
    (l.maskHash.mask (block.drop l.content.size) (block.take l.content.size))
    (block.drop l.content.size)

theorem length_dataBlock (block : Bytes) :
    (l.dataBlock block).length = block.length - l.content.size := by
  rw [dataBlock, Hash.length_mask, List.length_drop]

/-- Taking the masks off gives the data part of the frame. -/
theorem dataBlock_maskFrame (frame : Bytes) {seed : Bytes} (length : seed.length = l.content.size) :
    l.dataBlock (l.maskFrame frame seed) = frame.drop l.content.size := by
  have cut : (l.maskHash.mask (l.maskHash.mask seed (frame.drop l.content.size)) seed).length =
      l.content.size := by
    rw [Hash.length_mask, length]
  rw [dataBlock, maskFrame, List.take_left' cut, List.drop_left' cut, Hash.mask_mask,
    Hash.mask_mask]

/-- Data written over a part of a block of the same length. -/
theorem write_append (a c : Bytes) {old data : Bytes} (length : old.length = data.length) :
    Bytes.write (a ++ (old ++ c)) a.length data = .ok (a ++ (data ++ c)) := by
  rw [Bytes.write, if_pos]
  · rw [List.take_left, ← length, ← List.drop_drop, List.drop_left, List.drop_left,
      List.append_assoc]
  · simp only [List.length_append]
    omega

/-- Data written behind the first zeros of a block. -/
theorem write_zeros (a : ℕ) (c data : Bytes) :
    Bytes.write (Bytes.zeros (a + data.length) ++ c) a data =
      .ok (Bytes.zeros a ++ (data ++ c)) := by
  have written := write_append (Bytes.zeros a) c (Bytes.length_zeros data.length)
  rw [Bytes.length_zeros, ← List.append_assoc] at written
  rwa [show Bytes.zeros a ++ Bytes.zeros data.length = Bytes.zeros (a + data.length) from
    List.replicate_append_replicate] at written

/-- A decrypted block brought to its full length, or cut to it. -/
def fullBlock (len : ℕ) (decrypted : Bytes) : Bytes :=
  if decrypted.length ≤ len then Bytes.zeros (len - decrypted.length) ++ decrypted
  else decrypted.take len

theorem length_fullBlock (len : ℕ) (decrypted : Bytes) :
    (fullBlock len decrypted).length = len := by
  unfold fullBlock
  split
  · rw [List.length_append, Bytes.length_zeros]
    omega
  · rw [List.length_take]
    omega

/-- Unpadding reads the data block of the full block; a block that was cut is not good. -/
theorem unpad_eq {len : ℕ} (room : l.overhead ≤ len) (decrypted : Bytes) :
    l.unpad len decrypted =
      l.readData (Mask.ofBool (decide (decrypted.length ≤ len)))
        (l.dataBlock (fullBlock len decrypted)) := by
  have length := length_fullBlock len decrypted
  have seedInside : l.content.size ≤ len := by
    rw [overhead] at room
    omega
  have seed : Bytes.slice (fullBlock len decrypted) 0 l.content.size =
      .ok ((fullBlock len decrypted).take l.content.size) :=
    Bytes.slice_eq_ok_iff.mpr ⟨Nat.zero_le _, by omega, by rw [List.drop_zero]⟩
  have masked : Bytes.slice (fullBlock len decrypted) l.content.size len =
      .ok ((fullBlock len decrypted).drop l.content.size) :=
    Bytes.slice_eq_ok_iff.mpr ⟨seedInside, by omega, by rw [List.take_of_length_le (by omega)]⟩
  rw [unpad, if_neg (not_lt.mpr room)]
  -- The block is written behind zeros if it fits, and cut if it does not.
  by_cases fits : decrypted.length ≤ len
  · have written : Bytes.write (Bytes.zeros len) (len - decrypted.length) decrypted =
        .ok (fullBlock len decrypted) := by
      have written := write_zeros (len - decrypted.length) [] decrypted
      rw [Nat.sub_add_cancel fits, List.append_nil, List.append_nil] at written
      rw [written, fullBlock, if_pos fits]
    rw [if_pos fits, difference_of_le fits]
    simp only [bind, Except.bind]
    rw [written]
    dsimp only
    rw [seed]
    dsimp only
    rw [masked]
    rfl
  · have cut : Bytes.slice decrypted 0 len = .ok (fullBlock len decrypted) := by
      rw [fullBlock, if_neg fits]
      exact Bytes.slice_eq_ok_iff.mpr ⟨Nat.zero_le _, by omega, by rw [List.drop_zero]⟩
    rw [if_neg fits, cut]
    simp only [bind, Except.bind]
    rw [seed]
    dsimp only
    rw [masked]
    rfl

/-- **The blocks that are accepted.**  A block that is not too long, whose data block without the
mask is one of a message. -/
theorem unpad_eq_ok_iff {len : ℕ} (room : l.overhead ≤ len) {decrypted message : Bytes} :
    l.unpad len decrypted = .ok (.ok message) ↔
      decrypted.length ≤ len ∧ l.Formed message (l.dataBlock (fullBlock len decrypted)) := by
  rw [l.unpad_eq room, l.readData_eq_ok_iff, decide_eq_true_iff]
  rw [length_dataBlock, length_fullBlock]
  rw [overhead] at room
  omega

/-- No block is a fault: it is accepted, or refused with the one error. -/
theorem unpad_cases (len : ℕ) (decrypted : Bytes) :
    (∃ message, l.unpad len decrypted = .ok (.ok message)) ∨
      l.unpad len decrypted = .ok (.error .invalidCipherText) := by
  by_cases room : l.overhead ≤ len
  · rw [l.unpad_eq room]
    refine l.readData_cases _ ?_
    rw [length_dataBlock, length_fullBlock]
    rw [overhead] at room
    omega
  · exact .inr (by rw [unpad, if_pos (not_le.mp room)])

/-! ## Writing a block -/

/-- The frame of a message that fits: room for the seed, and the data block. -/
theorem frame_eq {len : ℕ} {message : Bytes} (fits : message.length + l.overhead ≤ len) :
    l.frame len message = .ok (Bytes.zeros l.content.size ++ (l.labelDigest ++
      (Bytes.zeros (len - (message.length + l.overhead)) ++ 0x01 :: message))) := by
  rw [overhead] at fits ⊢
  have first : Bytes.write (Bytes.zeros len) (len - message.length) message =
      .ok (Bytes.zeros (len - message.length) ++ message) := by
    have written := write_zeros (len - message.length) [] message
    rwa [Nat.sub_add_cancel (by omega), List.append_nil, List.append_nil] at written
  have second : Bytes.write (Bytes.zeros (len - message.length) ++ message)
      (len - (message.length + 1)) [0x01] =
      .ok (Bytes.zeros (len - (message.length + 1)) ++ 0x01 :: message) := by
    have written := write_zeros (len - (message.length + 1)) message [0x01]
    rwa [List.length_singleton,
      show len - (message.length + 1) + 1 = len - message.length by omega] at written
  have third : Bytes.write (Bytes.zeros (len - (message.length + 1)) ++ 0x01 :: message)
      l.content.size l.labelDigest =
      .ok (Bytes.zeros l.content.size ++ (l.labelDigest ++
        (Bytes.zeros (len - (message.length + (2 * l.content.size + 1))) ++
          0x01 :: message))) := by
    have written := write_zeros l.content.size
      (Bytes.zeros (len - (message.length + (2 * l.content.size + 1))) ++ 0x01 :: message)
      l.labelDigest
    rw [length_labelDigest, ← List.append_assoc] at written
    rwa [show Bytes.zeros (l.content.size + l.content.size) ++
        Bytes.zeros (len - (message.length + (2 * l.content.size + 1))) =
        Bytes.zeros (len - (message.length + 1)) by
      rw [Bytes.zeros, Bytes.zeros, List.replicate_append_replicate, Bytes.zeros]
      congr 1
      omega] at written
  rw [frame, difference_of_le (show message.length ≤ len by omega),
    difference_of_le (show message.length + 1 ≤ len by omega)]
  simp only [bind, Except.bind]
  rw [first]
  dsimp only
  rw [second]
  exact third

/-- What is written is a block that fills the cipher's input, and whose data block without the
mask is one of the message. -/
theorem encode_always (encrypting : l.direction = .encrypt) {below : CipherView}
    {message : Bytes} {Q : Except Error Bytes → Prop}
    (fits : message.length + l.overhead ≤ below.inputSize)
    (h : ∀ block, block.length = below.inputSize → l.Formed message (l.dataBlock block) →
      (below.process block).run.Always Q) :
    (l.encode below message).run.Always Q := by
  have size : below.blockSize l.direction = below.inputSize := by
    rw [encrypting]
    rfl
  have short : ¬ message.length > l.inputSize below.inputSize := by
    rw [inputSize, encrypting]
    dsimp only
    omega
  rw [encode, if_neg short, size, l.frame_eq fits]
  set frame := Bytes.zeros l.content.size ++ (l.labelDigest ++
    (Bytes.zeros (below.inputSize - (message.length + l.overhead)) ++ 0x01 :: message)) with hframe
  have full : frame.length = below.inputSize := by
    rw [hframe]
    simp only [List.length_append, List.length_cons, Bytes.length_zeros, length_labelDigest]
    rw [overhead] at fits ⊢
    omega
  have data : frame.drop l.content.size = l.labelDigest ++
      (Bytes.zeros (below.inputSize - (message.length + l.overhead)) ++ 0x01 :: message) :=
    List.drop_left' (Bytes.length_zeros _)
  refine Call.ensures_bind (Draw.ensures_pure ?_)
  dsimp only
  refine Call.ensures_lift_bind (Draw.ensures_bytes fun seed length => ?_)
  refine h _ ?_ ⟨_, (l.dataBlock_maskFrame frame length).trans data⟩
  rw [maskFrame]
  simp only [List.length_append, Hash.length_mask, List.length_drop, length]
  rw [overhead] at fits
  omega

/-- A message that does not fit is refused. -/
theorem run_encode_of_lt {below : CipherView} {message : Bytes}
    (long : l.inputSize below.inputSize < message.length) :
    (l.encode below message).run = pure (.error (.dataLength .oaepInput)) := by
  rw [encode, if_pos long]
  rfl

end PublicKeyCrypto.Oaep
