import PublicKeyCrypto.Proofs.Derivation.Mgf1
import PublicKeyCrypto.Proofs.Number.Encoding
import PublicKeyCrypto.Pss
import Mathlib

/-!
# Encoded messages

The encoded message has as many bits as the modulus less one.  Written over whole bytes it begins
with up to seven bits that do not belong to it.  They are cleared after masking, and cleared again
after unmasking, so what they were in between does not matter; but the byte that ends the zeros of
the data may stand in the same byte as they do, and it must survive.  It does, because at least one
bit of the first byte is kept.

The check is done on a block of full length, which a shorter input is brought to with zeros.

All of this needs room for the digest and the salt (`Roomy`), and a key is taken only after a test
for it.  But the test is made with words of the machine, and the sum of the sizes may wrap around;
so it shows that there is room only if it does not (`Fits.roomy`).  Without room nothing is encoded
and no block passes the check: every position that depends on the length of the salt is outside its
block.

## Main Definitions

* `Roomy` — whether the encoded message has room for the digest and the salt
* `Fits` — whether the sum of the sizes fits into a word
* `surplus` — the number of top bits that are cleared
* `saltBlock`, `encoded` — the data block of a salt, and the encoded message

## Main Results

* `encode_eq`, `isConsistent_eq` — both operations in closed form
* `exists_isConsistent_eq` — the check breaks no precondition, whatever it is given
* `value_encoded_lt` — the encoded message as a number
* `isConsistent_encoded` — an encoded message passes the check, with or without its leading zeros
* `exists_encode_eq_error`, `isConsistent_ne_true` — both operations without room
-/

namespace PublicKeyCrypto.Pss

variable {E : Type} (s : Pss E)

/-! ## Sizes -/

/-- A difference that has wrapped around is not below the smaller number. -/
theorem le_wrappedDifference {a b : ℕ} (h : a < b) (word : b ≤ 2 ^ 64) :
    a ≤ wrappedDifference a b := by
  rw [wrappedDifference, if_neg (not_le.mpr h), BitVec.toNat_sub, BitVec.toNat_ofNat,
    BitVec.toNat_ofNat]
  omega

/-- There is room for the digest, the salt, the byte in front of the salt and the trailer. -/
def Roomy : Prop := 8 * s.content.size + 8 * s.saltLength.toNat + 9 ≤ s.emBits

/-- The bits that are needed are counted without wrapping around. -/
def Fits : Prop := 8 * s.content.size + 8 * s.saltLength.toNat + 9 < 2 ^ 64

/-- The number of top bits that do not belong to the encoded message. -/
def surplus : ℕ := 8 * s.emLength - s.emBits

/-- Length of the zeros in front of the salt. -/
def zerosLength : ℕ := s.emLength - (s.content.size + s.saltLength.toNat + 2)

theorem surplus_lt : s.surplus < 8 := by
  unfold surplus emLength
  omega

theorem emBits_eq : s.emBits = 8 * s.emLength - s.surplus := by
  unfold surplus emLength
  omega

/-- The sum of words is the sum of numbers, up to a multiple of the number of words. -/
theorem toNat_leastBits :
    s.leastBits.toNat = (8 * s.content.size + 8 * s.saltLength.toNat + 9) % 2 ^ 64 := by
  simp [leastBits]

/-- Whatever is left of the sum is odd, so that some bits are always asked for. -/
theorem leastBits_pos : 0 < s.leastBits.toNat := by
  rw [toNat_leastBits]
  omega

/-- Room in bits is room in bytes. -/
theorem roomy_iff : s.Roomy ↔ s.content.size + s.saltLength.toNat + 2 ≤ s.emLength := by
  unfold Roomy emLength
  omega

variable {s} in
/-- A sum that does not wrap around is tested as a number. -/
theorem Fits.roomy (fits : s.Fits) (large : s.leastBits.toNat ≤ s.emBits) : s.Roomy := by
  rw [toNat_leastBits, Nat.mod_eq_of_lt fits] at large
  exact large

variable {s} in
/-- The parts of an encoded message fill its length. -/
theorem Roomy.emLength_eq (roomy : s.Roomy) :
    s.emLength = s.zerosLength + s.saltLength.toNat + 1 + s.content.size + 1 := by
  unfold Roomy at roomy
  unfold zerosLength emLength
  omega

theorem topMask_eq : s.topMask = .ok (0xFF >>> s.surplus.toUInt8) := by
  have inside : s.emBits ≤ 8 * s.emLength := by
    unfold emLength
    omega
  rw [topMask, difference_of_le inside]
  exact if_pos s.surplus_lt

theorem maskFirst_eq {b : Bytes} (nonempty : b ≠ []) (k : ℕ) :
    maskFirst (0xFF >>> k.toUInt8) b = .ok (b.clearTop k) := by
  cases b with
  | nil => exact absurd rfl nonempty
  | cons x rest => rfl

theorem length_of_maskFirst_eq_ok {bits : UInt8} {b out : Bytes} (h : maskFirst bits b = .ok out) :
    out.length = b.length := by
  cases b with
  | nil => cases h
  | cons x rest =>
      cases h
      rfl

/-! ## Encoding -/

/-- The data block of a salt. -/
def saltBlock (salt : Bytes) : Bytes := Bytes.zeros s.zerosLength ++ 0x01 :: salt

/-- The encoded message for a message digest and a salt. -/
def encoded (messageDigest salt : Bytes) : Bytes :=
  (s.maskHash.mask (s.saltedDigest messageDigest salt) (s.saltBlock salt)).clearTop s.surplus ++
    (s.saltedDigest messageDigest salt ++ [s.trailer])

@[simp] theorem length_saltedDigest (messageDigest salt : Bytes) :
    (s.saltedDigest messageDigest salt).length = s.content.size :=
  s.content.length_digest _

variable {s} {messageDigest salt : Bytes}

theorem length_saltBlock (length : salt.length = s.saltLength.toNat) :
    (s.saltBlock salt).length = s.zerosLength + s.saltLength.toNat + 1 := by
  rw [saltBlock, List.length_append, Bytes.length_zeros, List.length_cons, length]
  rfl

theorem length_encoded (roomy : s.Roomy) (length : salt.length = s.saltLength.toNat) :
    (s.encoded messageDigest salt).length = s.emLength := by
  rw [encoded, List.length_append, Bytes.length_clearTop, Hash.length_mask, length_saltBlock length,
    List.length_append, length_saltedDigest, List.length_singleton, roomy.emLength_eq]
  omega

/-- The data block is not empty, so it takes in the first byte. -/
theorem mask_saltBlock_ne_nil (digest : Bytes) (length : salt.length = s.saltLength.toNat) :
    s.maskHash.mask digest (s.saltBlock salt) ≠ [] := by
  rw [← List.length_pos_iff, Hash.length_mask, length_saltBlock length]
  omega

/-- A message digest is encoded without breaking a precondition. -/
theorem encode_eq (roomy : s.Roomy) (length : salt.length = s.saltLength.toNat) :
    s.encode messageDigest salt = .ok (s.encoded messageDigest salt) := by
  have sizes := roomy.emLength_eq
  have dataLength : s.emLength - (s.content.size + 1) =
      s.zerosLength + s.saltLength.toNat + 1 := by
    omega
  have zeros : s.zerosLength + s.saltLength.toNat + 1 - (salt.length + 1) = s.zerosLength := by
    omega
  unfold encode
  dsimp only
  rw [difference_of_le (by omega), dataLength]
  simp only [bind, Except.bind]
  rw [difference_of_le (by omega), zeros]
  dsimp only
  rw [topMask_eq, ← saltBlock]
  dsimp only
  rw [maskFirst_eq (mask_saltBlock_ne_nil _ length)]
  simp [encoded, pure, Except.pure]

/-- Without room nothing is encoded: the zeros in front of the salt would begin before the data. -/
theorem exists_encode_eq_error (cramped : ¬s.Roomy) (length : salt.length = s.saltLength.toNat) :
    ∃ broken, s.encode messageDigest salt = .error broken := by
  cases encoding : s.encode messageDigest salt with
  | error broken => exact ⟨broken, rfl⟩
  | ok encoded =>
      obtain ⟨dataLength, inside, encoding⟩ := exists_of_bind_eq_ok encoding
      obtain ⟨zeros, enough, -⟩ := exists_of_bind_eq_ok encoding
      have total := difference_eq_ok inside
      have parts := difference_eq_ok enough
      exact absurd (s.roomy_iff.mpr (by omega)) cramped

/-- The encoded message is below the power of two of its bits. -/
theorem value_encoded_lt (roomy : s.Roomy) (length : salt.length = s.saltLength.toNat) :
    (s.encoded messageDigest salt).value < 2 ^ s.emBits := by
  have total : (s.encoded messageDigest salt).length = s.emLength := length_encoded roomy length
  have cleared : s.encoded messageDigest salt =
      (s.maskHash.mask (s.saltedDigest messageDigest salt) (s.saltBlock salt) ++
        (s.saltedDigest messageDigest salt ++ [s.trailer])).clearTop s.surplus :=
    (Bytes.clearTop_append s.surplus (mask_saltBlock_ne_nil _ length) _).symm
  have full := congrArg List.length cleared
  rw [total, Bytes.length_clearTop] at full
  rw [cleared, Bytes.value_clearTop s.surplus_lt, ← full, ← s.emBits_eq]
  exact Nat.mod_lt _ (Nat.two_pow_pos _)

/-! ## Checking -/

/-- **The check.**  A block of full length is a masked data block, a digest and a last byte; the
data block without its mask is the zeros, a byte and the salt.  All parts are where they are read,
and the block is accepted if each of them is right. -/
theorem isConsistent_eq (roomy : s.Roomy) {input rest digest pad : Bytes}
    {first last separator : UInt8} (short : input.length ≤ s.emLength)
    (block : Bytes.zeros (s.emLength - input.length) ++ input =
      first :: rest ++ (digest ++ [last]))
    (hdigest : digest.length = s.content.size)
    (data : (s.maskHash.mask digest (first :: rest)).clearTop s.surplus = pad ++ separator :: salt)
    (hpad : pad.length = s.zerosLength) (hsalt : salt.length = s.saltLength.toNat) :
    s.isConsistent messageDigest input =
      .ok (decide (first &&& ~~~(0xFF >>> s.surplus.toUInt8) = 0 ∧ last = s.trailer ∧
        pad = Bytes.zeros s.zerosLength ∧ separator = 0x01 ∧
        s.saltedDigest messageDigest salt = digest)) := by
  have sizes := roomy.emLength_eq
  have masked : (first :: rest).length = s.zerosLength + s.saltLength.toNat + 1 := by
    have lengths := congrArg List.length data
    simp only [Bytes.length_clearTop, Hash.length_mask, List.length_append, List.length_cons]
      at lengths ⊢
    omega
  have nonempty : s.maskHash.mask digest (first :: rest) ≠ [] := by
    rw [← List.length_pos_iff, Hash.length_mask, masked]
    omega
  have lastPlace : s.emLength - 1 = (first :: rest ++ digest).length := by
    rw [List.length_append, masked, hdigest]
    omega
  have dataLength : s.emLength - (s.content.size + 1) = (first :: rest).length := by
    rw [masked]
    omega
  have zeros : (first :: rest).length - (s.saltLength.toNat + 1) = pad.length := by
    rw [masked, hpad]
    omega
  -- The positions are those of the parts.
  have atFirst : Bytes.byteAt (first :: rest ++ (digest ++ [last])) 0 = .ok first :=
    Bytes.byteAt_join [] first (rest ++ (digest ++ [last])) rfl
  have atLast : Bytes.byteAt (first :: rest ++ (digest ++ [last])) (s.emLength - 1) = .ok last := by
    rw [← List.append_assoc]
    exact Bytes.byteAt_join _ last [] lastPlace
  have maskedPart : Bytes.slice (first :: rest ++ (digest ++ [last])) 0 (first :: rest).length =
      .ok (first :: rest) := Bytes.slice_join [] _ _ rfl (Nat.zero_add _).symm
  have digestPart : Bytes.slice (first :: rest ++ (digest ++ [last])) (first :: rest).length
      ((first :: rest).length + s.content.size) = .ok digest :=
    Bytes.slice_join _ digest [last] rfl (by rw [hdigest])
  have padPart : Bytes.slice (pad ++ separator :: salt) 0 pad.length = .ok pad :=
    Bytes.slice_join [] pad _ rfl (Nat.zero_add _).symm
  have atSeparator : Bytes.byteAt (pad ++ separator :: salt) pad.length = .ok separator :=
    Bytes.byteAt_join pad separator salt rfl
  have saltPart : Bytes.slice (pad ++ separator :: salt) (pad.length + 1)
      (pad ++ separator :: salt).length = .ok salt := by
    have joined : pad ++ separator :: salt = (pad ++ [separator]) ++ (salt ++ []) := by simp
    rw [joined]
    exact Bytes.slice_join _ salt [] (by simp) (by simp; omega)
  have padTest : (pad.any fun x => decide (x ≠ 0)) = true ↔ pad ≠ Bytes.zeros s.zerosLength := by
    rw [Bytes.zeros, ne_eq, List.eq_replicate_iff]
    simp [hpad]
  unfold isConsistent
  dsimp only
  rw [if_neg (not_lt.mpr short), block, topMask_eq, difference_of_le (by omega : 1 ≤ s.emLength),
    difference_of_le (by omega : s.content.size + 1 ≤ s.emLength), dataLength]
  simp only [bind, Except.bind, pure, Except.pure, atFirst, atLast, maskedPart, digestPart]
  rw [maskFirst_eq nonempty, data, wrappedDifference_of_le (by omega), zeros]
  simp only [padPart, atSeparator, saltPart, padTest]
  split_ifs <;> simp_all

/-- Every block of full length has the parts that the check reads. -/
theorem exists_parts (roomy : s.Roomy) {block : Bytes} (full : block.length = s.emLength) :
    ∃ (first last separator : UInt8) (rest digest pad salt : Bytes),
      block = first :: rest ++ (digest ++ [last]) ∧ digest.length = s.content.size ∧
        (s.maskHash.mask digest (first :: rest)).clearTop s.surplus = pad ++ separator :: salt ∧
        pad.length = s.zerosLength ∧ salt.length = s.saltLength.toNat := by
  have sizes := roomy.emLength_eq
  have total : block.length = s.zerosLength + s.saltLength.toNat + 1 + (s.content.size + 1) := by
    omega
  obtain ⟨masked, others, rfl, maskedLength, hothers⟩ := Bytes.exists_join total
  obtain ⟨digest, ends, rfl, hdigest, hends⟩ := Bytes.exists_join hothers
  obtain ⟨last, rfl⟩ := List.length_eq_one_iff.mp hends
  obtain ⟨first, rest, rfl⟩ := List.exists_cons_of_length_eq_add_one maskedLength
  have dataLength : ((s.maskHash.mask digest (first :: rest)).clearTop s.surplus).length =
      s.zerosLength + (s.saltLength.toNat + 1) := by
    rw [Bytes.length_clearTop, Hash.length_mask, maskedLength, Nat.add_assoc]
  obtain ⟨pad, separated, data, hpad, hseparated⟩ := Bytes.exists_join dataLength
  obtain ⟨separator, salt, rfl⟩ := List.exists_cons_of_length_eq_add_one hseparated
  exact ⟨first, last, separator, rest, digest, pad, salt, rfl, hdigest, data, hpad,
    Nat.succ.inj hseparated⟩

/-- Zeros in front bring an input that is not too long to its full length. -/
theorem length_zeros_append {input : Bytes} (short : input.length ≤ s.emLength) :
    (Bytes.zeros (s.emLength - input.length) ++ input).length = s.emLength := by
  rw [List.length_append, Bytes.length_zeros]
  omega

/-- The check breaks no precondition, whatever it is given. -/
theorem exists_isConsistent_eq (roomy : s.Roomy) (messageDigest input : Bytes) :
    ∃ valid, s.isConsistent messageDigest input = .ok valid := by
  by_cases short : input.length ≤ s.emLength
  · obtain ⟨first, last, separator, rest, digest, pad, salt, block, hdigest, data, hpad, hsalt⟩ :=
      exists_parts roomy (length_zeros_append short)
    exact ⟨_, isConsistent_eq roomy short block hdigest data hpad hsalt⟩
  · exact ⟨false, by rw [isConsistent, if_pos (not_le.mp short)]; rfl⟩

/-- Without room no block passes the check: the byte in front of the salt is looked for outside the
data, wherever the difference of the sizes has wrapped around to. -/
theorem isConsistent_ne_true (cramped : ¬s.Roomy) (messageDigest input : Bytes) :
    s.isConsistent messageDigest input ≠ .ok true := by
  intro passed
  unfold isConsistent at passed
  dsimp only at passed
  split at passed
  · cases passed
  obtain ⟨bits, -, passed⟩ := exists_of_bind_eq_ok passed
  obtain ⟨first, -, passed⟩ := exists_of_bind_eq_ok passed
  split at passed
  · cases passed
  obtain ⟨lastPlace, -, passed⟩ := exists_of_bind_eq_ok passed
  obtain ⟨last, -, passed⟩ := exists_of_bind_eq_ok passed
  split at passed
  · cases passed
  obtain ⟨dataLength, inside, passed⟩ := exists_of_bind_eq_ok passed
  obtain ⟨masked, maskedPart, passed⟩ := exists_of_bind_eq_ok passed
  obtain ⟨digest, -, passed⟩ := exists_of_bind_eq_ok passed
  obtain ⟨data, cleared, passed⟩ := exists_of_bind_eq_ok passed
  obtain ⟨pad, -, passed⟩ := exists_of_bind_eq_ok passed
  split at passed
  · cases passed
  obtain ⟨separator, found, -⟩ := exists_of_bind_eq_ok passed
  have length : data.length = dataLength := by
    rw [length_of_maskFirst_eq_ok cleared, Hash.length_mask, Bytes.length_slice maskedPart,
      Nat.sub_zero]
  have small : dataLength < s.saltLength.toNat + 1 := by
    have total := difference_eq_ok inside
    by_contra enough
    exact cramped (s.roomy_iff.mpr (by omega))
  have place := Bytes.lt_length_of_byteAt_eq_ok found
  rw [length] at place
  exact absurd place (not_lt.mpr (le_wrappedDifference small s.saltLength.isLt))

/-- The data block begins with a zero or with the byte in front of the salt, of which the bits that
are kept hold everything. -/
theorem clearTop_saltBlock (salt : Bytes) :
    (s.saltBlock salt).clearTop s.surplus = s.saltBlock salt := by
  have kept : ∀ k < 8, (0x01 : UInt8) &&& ((0xFF : UInt8) >>> k.toUInt8) = 0x01 := by decide
  unfold saltBlock
  cases s.zerosLength with
  | zero =>
      show ((0x01 : UInt8) &&& (0xFF >>> s.surplus.toUInt8)) :: salt = 0x01 :: salt
      rw [kept _ s.surplus_lt]
  | succ zeros =>
      show ((0x00 : UInt8) &&& (0xFF >>> s.surplus.toUInt8)) ::
        (Bytes.zeros zeros ++ 0x01 :: salt) = _
      rw [UInt8.zero_and]
      rfl

/-- **Encoded messages pass the check**, with all, some or none of their leading zeros. -/
theorem isConsistent_encoded (roomy : s.Roomy) (length : salt.length = s.saltLength.toNat)
    {input : Bytes} (short : input.length ≤ s.emLength)
    (full : Bytes.zeros (s.emLength - input.length) ++ input = s.encoded messageDigest salt) :
    s.isConsistent messageDigest input = .ok true := by
  set digest := s.saltedDigest messageDigest salt with hdigest
  set masked := s.maskHash.mask digest (s.saltBlock salt) with hmasked
  obtain ⟨x, rest, cut⟩ := List.exists_cons_of_ne_nil (mask_saltBlock_ne_nil digest length)
  have cleared : masked.clearTop s.surplus = (x &&& (0xFF >>> s.surplus.toUInt8)) :: rest := by
    rw [hmasked, cut, Bytes.clearTop]
  have data : (s.maskHash.mask digest
      ((x &&& (0xFF >>> s.surplus.toUInt8)) :: rest)).clearTop s.surplus = s.saltBlock salt := by
    rw [← cleared, hmasked, Hash.clearTop_mask_clearTop_mask, clearTop_saltBlock]
  rw [encoded, ← hdigest, ← hmasked, cleared] at full
  rw [isConsistent_eq roomy short full (s.length_saltedDigest _ _) data (Bytes.length_zeros _)
    length, UInt8.and_assoc, UInt8.and_not_self, UInt8.and_zero]
  simp only [true_and, hdigest, decide_true]

end PublicKeyCrypto.Pss
