import PublicKeyCrypto.Hash.Sha1
import PublicKeyCrypto.Proofs.Pss.Session
import Mathlib

/-!
# Verification is that of the standard

The standard describes verification in steps on strings and numbers of fixed lengths (RFC 8017,
sections 8.1.2 and 9.1.2).  It is written down here without a look at the verifier: bits are those
of numbers, a mask is a string of its own, and a number is written over a fixed length before it is
looked at (`Options.Consistent`, `Options.Valid`).

The verifier goes another way in two places.

* **Lengths.**  The cipher gives the shortest encoding of the number.  It is too long exactly if the
  number does not fit into the length of an encoded message, which may be a byte shorter than the
  modulus; if it fits, zeros in front make it the encoding of the standard
  (`isConsistent_minimal_iff`).
* **Bits.**  The verifier tests and clears the top bits with a byte mask, and looks at the parts of
  one buffer.  On a block that is cut into its parts both conditions are the same
  (`consistent_iff_parts`).

Nothing is assumed of the key but that the verifier has taken it, so no private key need exist.

The standard begins with a test for room, and finds nothing valid without it.  The verifier relies
on the test that was made of the key; when the sum of the sizes has wrapped around, that test shows
nothing, and on a block with the right top bits and the right last byte the verifier may halt.

## Main Definitions

* `Options.Consistent` — an encoded message that belongs to a message, in the standard
* `Options.Valid` — a valid signature, in the standard

## Main Results

* `isConsistent_iff_standard`, `isConsistent_minimal_iff` — the check of an encoded message
* `Keyed.verify_standard` — the answer to any signature
* `verification_standard` — the answers of a verifier, after any calls
* `long_salt_not_answered` — a verifier that halts in place of a refusal
-/

namespace PublicKeyCrypto.Pss

/-! ## The standard -/

/-- What signer and verifier agree on. -/
structure Options where
  /-- The hash function of the message. -/
  content : Hash
  /-- The hash function of the masks. -/
  maskHash : Hash
  /-- Length of the salt, in bytes. -/
  saltLength : ℕ
  /-- The last byte of the encoded message. -/
  trailer : UInt8

/-- The string with all but the lowest bits of its first byte set to zero. -/
def keepBits (bits : ℕ) : Bytes → Bytes
  | [] => []
  | first :: rest => UInt8.ofNat (first.toNat % 2 ^ bits) :: rest

namespace Options

variable (o : Options)

/-- An encoded message of some bits belongs to a message (section 9.1.2, whose steps are given by
their numbers). -/
def Consistent (emBits : ℕ) (message encoded : Bytes) : Prop :=
  let emLen := (emBits + 7) / 8
  let topBits := 8 * emLen - emBits
  let zeros := emLen - o.content.size - o.saltLength - 2
  let maskedData := encoded.take (emLen - o.content.size - 1)
  let digest := (encoded.drop (emLen - o.content.size - 1)).take o.content.size
  let dataMask := o.maskHash.mgf1 digest (emLen - o.content.size - 1)
  let data := keepBits (8 - topBits) (List.zipWith (· ^^^ ·) maskedData dataMask)
  let salt := data.drop (data.length - o.saltLength)
  o.content.size + o.saltLength + 2 ≤ emLen ∧ -- 3
    encoded.getLast? = some o.trailer ∧ -- 4
    (∀ b ∈ maskedData.head?, b.toNat < 2 ^ (8 - topBits)) ∧ -- 5, 6
    data.take zeros = Bytes.zeros zeros ∧ data[zeros]? = some 0x01 ∧ -- 7 to 10
    o.content.digest (Bytes.zeros 8 ++ o.content.digest message ++ salt) = digest -- 11 to 14

instance (emBits : ℕ) (message encoded : Bytes) : Decidable (o.Consistent emBits message encoded) :=
  inferInstanceAs (Decidable (_ ∧ _))

/-- A signature of a message is valid for a public key (section 8.1.2, whose steps are given by
their numbers). -/
def Valid (k : Rsa.PublicKey) (message signature : Bytes) : Prop :=
  let modBits := bitLength k.modulus
  let emLen := (modBits - 1 + 7) / 8
  let m := signature.value ^ k.exponent % k.modulus
  signature.length = byteLength k.modulus ∧ -- 1
    signature.value < k.modulus ∧ -- 2a, 2b
    m < 256 ^ emLen ∧ -- 2c
    o.Consistent (modBits - 1) message (Bytes.wide emLen m) -- 3

instance (k : Rsa.PublicKey) (message signature : Bytes) :
    Decidable (o.Valid k message signature) :=
  inferInstanceAs (Decidable (_ ∧ _))

end Options

variable {E : Type}

/-- The options of a signer or verifier. -/
def options (s : Pss E) : Options where
  content := s.content
  maskHash := s.maskHash
  saltLength := s.saltLength.toNat
  trailer := s.trailer

/-! ## Bits -/

/-- Keeping the lowest bits and clearing the top ones is the same. -/
theorem keepBits_eq_clearTop {surplus : ℕ} (small : surplus < 8) (b : Bytes) :
    keepBits (8 - surplus) b = b.clearTop surplus := by
  cases b with
  | nil => rfl
  | cons first rest =>
      rw [keepBits, Bytes.clearTop, ← Bytes.toNat_and_shifted small, UInt8.ofNat_toNat]

/-- A byte has no bit outside a mask exactly if the mask leaves it as it is. -/
theorem and_not_eq_zero_iff (x bits : UInt8) : x &&& ~~~bits = 0 ↔ x &&& bits = x := by
  have parts : x &&& bits ||| x &&& ~~~bits = x := by
    apply UInt8.toBitVec_inj.mp
    rw [UInt8.toBitVec_or, UInt8.toBitVec_and, UInt8.toBitVec_and, UInt8.toBitVec_not,
      ← BitVec.and_or_distrib_left, BitVec.or_not_self, BitVec.and_allOnes]
  constructor
  · intro none
    rw [none, UInt8.or_zero] at parts
    exact parts
  · intro kept
    rw [← kept, UInt8.and_assoc, UInt8.and_not_self, UInt8.and_zero]

/-- The top bits of a byte are zero exactly if the byte is a number of the other bits. -/
theorem topBits_eq_zero_iff {surplus : ℕ} (small : surplus < 8) (x : UInt8) :
    x &&& ~~~(0xFF >>> surplus.toUInt8) = 0 ↔ x.toNat < 2 ^ (8 - surplus) := by
  rw [and_not_eq_zero_iff, ← UInt8.toNat_inj, Bytes.toNat_and_shifted small,
    Nat.mod_eq_iff_lt (Nat.two_pow_pos _).ne']

/-! ## The encoded message -/

variable {s : Pss E} {message : Bytes}

/-- **The parts.**  On a block that is cut into its parts, the standard asks what the verifier
asks. -/
theorem consistent_iff_parts (roomy : s.Roomy) {first last separator : UInt8}
    {rest digest pad salt : Bytes}
    (full : (first :: rest ++ (digest ++ [last])).length = s.emLength)
    (hdigest : digest.length = s.content.size)
    (data : (s.maskHash.mask digest (first :: rest)).clearTop s.surplus = pad ++ separator :: salt)
    (hpad : pad.length = s.zerosLength) (hsalt : salt.length = s.saltLength.toNat) :
    s.options.Consistent s.emBits message (first :: rest ++ (digest ++ [last])) ↔
      first &&& ~~~(0xFF >>> s.surplus.toUInt8) = 0 ∧ last = s.trailer ∧
        pad = Bytes.zeros s.zerosLength ∧ separator = 0x01 ∧
        s.saltedDigest (s.content.digest message) salt = digest := by
  have sizes := roomy.emLength_eq
  have masked : (first :: rest).length = s.zerosLength + s.saltLength.toNat + 1 := by
    rw [List.length_append, List.length_append, hdigest, List.length_singleton] at full
    omega
  have dataLength : s.emLength - s.content.size - 1 = (first :: rest).length := by omega
  have zeros : s.emLength - s.content.size - s.saltLength.toNat - 2 = s.zerosLength := by omega
  have saltPlace : (pad ++ separator :: salt).length - s.saltLength.toNat =
      (pad ++ [separator]).length := by
    simp only [List.length_append, List.length_cons, List.length_nil]
    omega
  -- The parts of the standard are those of the block.
  have maskedPart : (first :: rest ++ (digest ++ [last])).take (first :: rest).length =
      first :: rest := List.take_left
  have digestPart : ((first :: rest ++ (digest ++ [last])).drop (first :: rest).length).take
      s.content.size = digest := by
    rw [List.drop_left, List.take_left' hdigest]
  have lastPart : (first :: rest ++ (digest ++ [last])).getLast? = some last := by
    rw [← List.append_assoc, List.getLast?_concat]
  have dataPart : keepBits (8 - s.surplus) (List.zipWith (· ^^^ ·) (first :: rest)
      (s.maskHash.mgf1 digest (first :: rest).length)) = pad ++ separator :: salt := by
    rw [← Hash.mask_eq_zipWith, keepBits_eq_clearTop s.surplus_lt, data]
  have padPart : (pad ++ separator :: salt).take s.zerosLength = pad := List.take_left' hpad
  have separatorPart : (pad ++ separator :: salt)[s.zerosLength]? = some separator := by
    rw [List.getElem?_append_right hpad.le, hpad, Nat.sub_self]
    rfl
  have saltPart : (pad ++ separator :: salt).drop (pad ++ [separator]).length = salt := by
    rw [List.append_cons pad separator salt, List.drop_left]
  have enough : s.content.size + s.saltLength.toNat + 2 ≤ s.emLength := by omega
  have firstPart : (∀ b ∈ (first :: rest).head?, b.toNat < 2 ^ (8 - s.surplus)) ↔
      first &&& ~~~(0xFF >>> s.surplus.toUInt8) = 0 := by
    rw [topBits_eq_zero_iff s.surplus_lt]
    simp
  unfold Options.Consistent options
  dsimp only
  rw [← emLength, ← surplus, dataLength, maskedPart, digestPart, dataPart, zeros, padPart,
    separatorPart, saltPlace, saltPart, lastPart, firstPart, Option.some_inj, Option.some_inj,
    ← saltedDigest]
  constructor
  · rintro ⟨-, hlast, hfirst, others⟩
    exact ⟨hfirst, hlast, others⟩
  · rintro ⟨hfirst, hlast, others⟩
    exact ⟨enough, hlast, hfirst, others⟩

/-- The standard finds nothing consistent without room. -/
theorem roomy_of_consistent {encoded : Bytes}
    (h : s.options.Consistent s.emBits message encoded) : s.Roomy :=
  s.roomy_iff.mpr h.1

/-- **The check of the standard.**  A block that is not too long passes exactly if it belongs to the
message once its leading zeros are put back. -/
theorem isConsistent_iff_standard {input : Bytes} (short : input.length ≤ s.emLength) :
    s.isConsistent (s.content.digest message) input = .ok true ↔
      s.options.Consistent s.emBits message
        (Bytes.zeros (s.emLength - input.length) ++ input) := by
  by_cases roomy : s.Roomy
  swap
  · exact iff_of_false (isConsistent_ne_true roomy _ _) fun h => roomy (roomy_of_consistent h)
  have full := length_zeros_append short
  obtain ⟨first, last, separator, rest, digest, pad, salt, block, hdigest, data, hpad, hsalt⟩ :=
    exists_parts roomy full
  rw [block] at full
  rw [isConsistent_eq roomy short block hdigest data hpad hsalt, block,
    consistent_iff_parts roomy full hdigest data hpad hsalt, Except.ok.injEq, decide_eq_true_iff]

/-- The shortest encoding of a number passes exactly if the number fits into the length of an
encoded message, and written over this length belongs to the message. -/
theorem isConsistent_minimal_iff (m : ℕ) :
    s.isConsistent (s.content.digest message) (Bytes.minimal m) = .ok true ↔
      m < 256 ^ s.emLength ∧
        s.options.Consistent s.emBits message (Bytes.wide s.emLength m) := by
  by_cases fits : m < 256 ^ s.emLength
  · have short : (Bytes.minimal m).length ≤ s.emLength := by
      rwa [Bytes.length_minimal, byteLength_le_iff]
    have full : Bytes.zeros (s.emLength - (Bytes.minimal m).length) ++ Bytes.minimal m =
        Bytes.wide s.emLength m := by
      have joined := Bytes.zeros_append_minimal (Bytes.wide s.emLength m)
      rwa [Bytes.value_wide_of_lt fits, Bytes.length_wide] at joined
    rw [isConsistent_iff_standard short, full]
    exact (and_iff_right fits).symm
  · have long : s.emLength < (Bytes.minimal m).length := by
      rwa [Bytes.length_minimal, ← not_le, byteLength_le_iff]
    have refused : s.isConsistent (s.content.digest message) (Bytes.minimal m) = .ok false := by
      rw [isConsistent, if_pos long]
      rfl
    rw [refused]
    constructor
    · rintro ⟨⟩
    · rintro ⟨below, -⟩
      exact absurd below fits

/-! ## The verifier -/

theorem SameEncoding.options_eq {s t : Pss E} (h : s.SameEncoding t) : t.options = s.options := by
  unfold options
  rw [h.content, h.maskHash, h.saltLength, h.trailer]

/-- The string with zeros in front that bring it to the length of the modulus. -/
def padded (k : Rsa.PublicKey) (signature : Bytes) : Bytes :=
  Bytes.zeros (byteLength k.modulus - signature.length) ++ signature

namespace Keyed

variable {k : Rsa.PublicKey} {s : Pss Rsa.Cipher} {halts : Halt → Prop}

/-- A signature that is valid in the standard shows that there is room. -/
theorem roomy_of_valid (h : s.Keyed .decrypt (.ofPublic k)) {message signature : Bytes}
    (valid : s.options.Valid k message signature) : s.Roomy := by
  obtain ⟨-, -, -, consistent⟩ := valid
  rw [← show s.emBits = bitLength k.modulus - 1 from h.emBits] at consistent
  exact roomy_of_consistent consistent

/-- **One verification.**  The answer of a verifier with a public key is that of the standard, after
zeros in front have brought a string that is too short to the length of the modulus.  If there is
room, every string is answered. -/
theorem verify_standard (h : s.Keyed .decrypt (.ofPublic k)) (faults : s.MayFault halts)
    (message signature : Bytes) :
    ((s.withMessage message).verify signature).Ensures halts fun reply =>
      reply.1 = .ok (decide (s.options.Valid k message (padded k signature))) := by
  have length : (padded k signature).length = byteLength k.modulus ↔
      signature.length ≤ byteLength k.modulus := by
    rw [padded, List.length_append, Bytes.length_zeros]
    omega
  have value : (padded k signature).value = signature.value := Bytes.value_zeros_append _ _
  refine verify_ensures (s := s.withMessage message) ⟨h.initialised, h.large⟩ faults ?_
  show (s.cipher.process signature).run.Ensures _ _
  rw [h.cipher]
  by_cases taken : signature.length ≤ byteLength k.modulus ∧ signature.value < k.modulus
  · have emBits : s.emBits = bitLength k.modulus - 1 := h.emBits
    have emLength : s.emLength = (bitLength k.modulus - 1 + 7) / 8 := by rw [emLength, emBits]
    rw [Rsa.Cipher.run_process_public .decrypt signature k taken.1 taken.2]
    refine Draw.ensures_pure fun valid checked => congrArg Except.ok ?_
    have answer : valid = true ↔ s.isConsistent (s.content.digest message)
        (Bytes.minimal (signature.value ^ k.exponent % k.modulus)) = .ok true := by
      rw [← Except.ok.injEq, ← checked]
      rfl
    rw [Bool.eq_iff_iff, decide_eq_true_iff, answer, isConsistent_minimal_iff, emLength, emBits,
      ← value]
    constructor
    · intro standard
      exact ⟨length.mpr taken.1, value.trans_lt taken.2, standard⟩
    · rintro ⟨-, -, standard⟩
      exact standard
  · rw [Rsa.Cipher.run_process_outside .decrypt (.ofPublic k) taken]
    refine Draw.ensures_pure (congrArg Except.ok (decide_eq_false ?_).symm)
    rintro ⟨full, below, -⟩
    exact taken ⟨length.mp full, value.symm.trans_lt below⟩

/-- **Any history, any string.**  The answer is that of the standard on the string with zeros in
front, for the message that the history leaves. -/
theorem verification_padded (h : s.Keyed .decrypt (.ofPublic k)) (faults : s.MayFault halts)
    (history : List Request) (signature : Bytes) :
    (s.afterCalls history >>= fun s => s.verify signature).Ensures halts fun reply =>
      reply.1 = .ok (decide (s.options.Valid k (sinceLast history) (padded k signature))) := by
  have total : ∀ input : Bytes,
      (AsymmetricCipher.process s.cipher input).run.Ensures halts fun _ => True := by
    intro input
    rw [h.cipher]
    exact (Rsa.Cipher.process_public_returns .decrypt input k).mono_halts
      fun _ halted => halted.elim
  have served := afterCalls_ensures h.toReady faults h.message total history
  refine Draw.ensures_bind (served.mono ?_)
  rintro _ rfl
  exact h.verify_standard faults (sinceLast history) signature

end Keyed

/-- **Verification is that of the standard.**  A verifier that has taken a public key serves any
calls and then answers every string of the length of the modulus as the standard does, for the
message that the calls have left.  Longer strings are no valid signatures.  It halts only if the sum
of its sizes wraps around. -/
theorem verification_standard {k : Rsa.PublicKey} {verifier v : Pss Rsa.Cipher}
    (accepted : verifier.init .verify (.ofPublic k) = (.ok (), v)) (history : List Request)
    (signature : Bytes) :
    let verification := v.afterCalls history >>= fun v => v.verify signature
    (signature.length = byteLength k.modulus →
        verification.Ensures (fun _ => ¬verifier.Fits) fun reply =>
          reply.1 = .ok (decide (verifier.options.Valid k (sinceLast history) signature))) ∧
      (byteLength k.modulus < signature.length →
        verification.Ensures (fun _ => ¬verifier.Fits) fun reply => reply.1 = .ok false) := by
  intro verification
  obtain ⟨keyed, same⟩ := keyed_of_init accepted
  have answered : verification.Ensures (fun _ => ¬verifier.Fits) fun reply =>
      reply.1 = .ok (decide (v.options.Valid k (sinceLast history) (padded k signature))) :=
    keyed.verification_padded (mayFault_of_init accepted fun wraps _ => wraps) history signature
  constructor
  · intro full
    rw [padded, full, Nat.sub_self, same.options_eq] at answered
    exact answered
  · intro long
    have invalid : ¬v.options.Valid k (sinceLast history) (padded k signature) := by
      rintro ⟨full, -⟩
      rw [padded, List.length_append] at full
      omega
    rw [decide_eq_false invalid] at answered
    exact answered

/-- The modulus has 33 bits, so that an encoded message is a byte shorter than it, and the key has
no private half.  The first signature is valid, and the third is the first with a zero in front.
The power of the second is an encoded message of the same message, but for a one in front of it. -/
theorem verification_standard_without_private_key :
    let k : Rsa.PublicKey := { modulus := 5 ^ 14, exponent := 3 }
    let verifier : Pss Rsa.Cipher :=
      { cipher := {}, content := byteSum, maskHash := byteSum, saltLength := 1 }
    let v := (verifier.init .verify (.ofPublic k)).2
    let history : List Request := [.update [7], .sign, .update [1], .update [2, 3]]
    let answers (signature : Bytes) (valid : Bool) : Prop :=
      (v.afterCalls history >>= fun v => v.verify signature).Returns fun reply =>
        reply.1 = .ok valid
    Rsa.PublicKey.make (5 ^ 14) 3 = .ok k ∧
      (∀ key : Rsa.PrivateKey, key.Consistent → key.publicKey ≠ k) ∧
      verifier.init .verify (.ofPublic k) = (.ok (), v) ∧ v.emLength + 1 = byteLength k.modulus ∧
      answers [0x00, 0x7D, 0xD2, 0xC4, 0x28] true ∧
      answers [0x00, 0x12, 0x23, 0x6E, 0x3A] false ∧
      answers [0x00, 0x00, 0x7D, 0xD2, 0xC4, 0x28] false := by
  intro k verifier v history answers
  have size : byteLength k.modulus = 5 := by decide +kernel
  have unpaired (key : Rsa.PrivateKey) (hk : key.Consistent) : key.publicKey ≠ k := fun same =>
    hk.modulus_ne_prime_pow Nat.prime_five 14 (congrArg Rsa.PublicKey.modulus same)
  have accepted : verifier.init .verify (.ofPublic k) = (.ok (), v) :=
    Prod.ext (by decide +kernel) rfl
  have valid : verifier.options.Valid k (sinceLast history) [0x00, 0x7D, 0xD2, 0xC4, 0x28] := by
    decide +kernel
  have tooLarge : ¬verifier.options.Valid k (sinceLast history) [0x00, 0x12, 0x23, 0x6E, 0x3A] := by
    decide +kernel
  have fits : verifier.Fits := by
    unfold Fits
    decide
  have first := ((verification_standard accepted history [0x00, 0x7D, 0xD2, 0xC4, 0x28]).1
    size.symm).mono_halts fun _ wraps => wraps fits
  have second := ((verification_standard accepted history [0x00, 0x12, 0x23, 0x6E, 0x3A]).1
    size.symm).mono_halts fun _ wraps => wraps fits
  have third := ((verification_standard accepted history [0x00, 0x00, 0x7D, 0xD2, 0xC4, 0x28]).2
    (size.trans_lt (by decide))).mono_halts fun _ wraps => wraps fits
  rw [decide_eq_true valid] at first
  rw [decide_eq_false tooLarge] at second
  exact ⟨rfl, unpaired, accepted, by decide +kernel, first, second, third⟩

/-! ## A salt of two to the power of 64 bits -/

/-- A modulus that is long enough for a digest of SHA-1, and for the rest of the sum after it has
wrapped around. -/
def longSaltKey : Rsa.PublicKey where
  modulus := 2 ^ 177 - 1
  exponent := 3

/-- A verifier for salts of as many bytes as make two to the power of 64 bits. -/
def longSaltVerifier : Pss Rsa.Cipher :=
  { cipher := {}, content := .sha1, maskHash := .sha1, saltLength := 0x2000000000000000 }

/-- A number whose cube ends with the trailer byte and has no bit above the encoded message. -/
def longSaltSignature : Bytes := Bytes.wide 23 (2 ^ 59 + 0xE3)

theorem longSaltVerifier_accepts : longSaltVerifier.init .verify (.ofPublic longSaltKey) =
    (.ok (), (longSaltVerifier.init .verify (.ofPublic longSaltKey)).2) :=
  Prod.ext (by decide +kernel) rfl

/-- The verifier halts at a position outside a block, so that nothing can be ensured which does not
allow for it. -/
theorem longSaltVerifier_halts {halts : Halt → Prop} {Q : Reply (Pss Rsa.Cipher) Bool → Prop}
    (h : ((longSaltVerifier.init .verify (.ofPublic longSaltKey)).2.afterCalls [] >>=
      fun v => v.verify longSaltSignature).Ensures halts Q) : halts (.fault .outOfBounds) := by
  have halted : (Prod.fst <$> ((longSaltVerifier.init .verify (.ofPublic longSaltKey)).2.afterCalls
      [] >>= fun v => v.verify longSaltSignature)).run (fun _ => 0) 0 0 =
        .error (.fault .outOfBounds) := by
    decide +kernel
  exact (Draw.ensures_map (f := Prod.fst) (Q := fun _ => True) (h.mono fun _ _ => trivial)).halt
    halted

/-- **Not every string is answered**: with salts of that length the verifier accepts the key, and
then breaks a precondition on a string that is no valid signature. -/
theorem long_salt_not_answered :
    ¬∀ (n e : ℕ) (k : Rsa.PublicKey) (verifier v : Pss Rsa.Cipher) (history : List Request)
      (signature : Bytes), Rsa.PublicKey.make n e = .ok k →
      verifier.init .verify (.ofPublic k) = (.ok (), v) →
      signature.length = byteLength k.modulus →
      (v.afterCalls history >>= fun v => v.verify signature).Returns fun reply =>
        reply.1 = .ok (decide (verifier.options.Valid k (sinceLast history) signature)) := by
  intro claimed
  have made : Rsa.PublicKey.make longSaltKey.modulus longSaltKey.exponent = .ok longSaltKey := by
    decide +kernel
  have answered := claimed _ _ _ _ _ [] longSaltSignature made longSaltVerifier_accepts
    (by decide +kernel)
  exact longSaltVerifier_halts answered

end PublicKeyCrypto.Pss
