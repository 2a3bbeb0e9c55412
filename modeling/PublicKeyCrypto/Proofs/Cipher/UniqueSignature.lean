import PublicKeyCrypto.Proofs.Cipher.Keys
import PublicKeyCrypto.Proofs.Cipher.RoundTrip
import PublicKeyCrypto.Proofs.Rsa.Blinding
import PublicKeyCrypto.Proofs.Rsa.RoundTrip
import Mathlib

/-!
# A payload has one signature

A strict decoder with the public key accepts one number below the modulus for a payload, and that
is the signature with the private key (`strict_decoding_accepts_only_signatures`).

The proof goes over the block.  A block of type 1 has padding of ones only, and a strict decoder
wants its full length.  So the payload determines the block, and there is no byte of it that could
be chosen (`signedBlock`, `formed_full_iff`).  The encoder writes that block without a draw.  The
cipher gives the decoder the shortest encoding of a power, but nothing is lost of a block that does
not begin with a zero.  So the decoder accepts the roots of the block, whatever the public key
(`exists_run_decode`).  With a consistent key there is one root.

## Main Definitions

* `Call.Returns` — a call that may return something
* `Pkcs1.signedBlock`, `Pkcs1.blockRoot` — the block that is signed, and its root

## Main Results

* `Pkcs1.formed_full_iff` — the payload determines the block
* `Pkcs1.exists_run_decode` — what a strict decoder accepts with any public key
* `Pkcs1.run_signer`, `Pkcs1.exists_run_verifier` — the two sides with a consistent key
* `strict_decoding_accepts_only_signatures` — signatures, and nothing else
-/

namespace PublicKeyCrypto

/-- There is a tape on which the call returns it. -/
def Call.Returns {α : Type} (call : Call α) (a : α) : Prop :=
  ∃ tape patience start stop, call.run.run tape patience start = .ok (.ok a, stop)

theorem Draw.pure_inj {α : Type} {a b : α} (same : (pure a : Draw α) = pure b) : a = b := by
  have runs := congrArg (fun x : Draw α => x.run (fun _ => 0) 0 0) same
  rw [Draw.run_pure, Draw.run_pure] at runs
  cases runs
  rfl

/-- A call that answers whatever its blinding factor is returns that answer, and no other. -/
theorem Call.returns_iff_of_blinded {n : ℕ} (large : 2 ≤ n) {call : Call Bytes} {out made : Bytes}
    (h : call.run = (fun _ => .ok out) <$> Rsa.PrivateKey.blinding n) :
    call.Returns made ↔ made = out := by
  rw [Returns, h]
  constructor
  · rintro ⟨tape, patience, start, stop, run⟩
    obtain ⟨factor, -, same⟩ := Draw.exists_run_of_map run
    cases same
    rfl
  · rintro rfl
    obtain ⟨tape, factor, stop, ended⟩ := Rsa.PrivateKey.exists_tape_blinding large
    exact ⟨tape, 1, 0, stop, by rw [Draw.run_map, ended]⟩

namespace Pkcs1

/-! ## The block -/

/-- The block that is signed: type 1, ones up to the full length, a zero and the payload. -/
def signedBlock (size : ℕ) (payload : Bytes) : Bytes :=
  0x01 :: (List.replicate (size - 2 - payload.length) 0xFF ++ 0x00 :: payload)

variable {size : ℕ} {payload block : Bytes}

theorem length_signedBlock (fits : payload.length + headerLength ≤ size) :
    (signedBlock size payload).length = size := by
  rw [headerLength] at fits
  rw [signedBlock, List.length_cons, List.length_append, List.length_replicate, List.length_cons]
  omega

/-- **The payload determines the block**, among those of type 1 and of full length. -/
theorem formed_full_iff :
    (∃ filler, Formed 0x01 filler payload block) ∧ block.length = size ↔
      payload.length + headerLength ≤ size ∧ block = signedBlock size payload := by
  constructor
  · rintro ⟨⟨filler, rfl, long, -, ones⟩, full⟩
    rw [List.length_cons, List.length_append, List.length_cons] at full
    have filled : filler = List.replicate (size - 2 - payload.length) 0xFF :=
      List.eq_replicate_iff.mpr ⟨by omega, ones rfl⟩
    rw [headerLength, signedBlock, ← filled]
    exact ⟨by omega, rfl⟩
  · rintro ⟨fits, rfl⟩
    refine ⟨⟨_, rfl, ?_, fun b hb => ?_, fun _ b hb => List.eq_of_mem_replicate hb⟩,
      length_signedBlock fits⟩
    · rw [headerLength] at fits
      rw [List.length_replicate]
      omega
    · rw [List.eq_of_mem_replicate hb]
      decide

/-- Nothing of the block is lost when its value is written in the shortest form. -/
theorem minimal_eq_signedBlock_iff {v : ℕ} :
    Bytes.minimal v = signedBlock size payload ↔ v = (signedBlock size payload).value := by
  constructor
  · intro same
    rw [← same, Bytes.value_minimal]
  · rintro rfl
    exact Bytes.minimal_value_cons (by decide) _

/-! ## Encoder and decoder -/

variable {l : Pkcs1}

/-- The encoder draws nothing: it transforms the block. -/
theorem run_encode_signed (role : l.withPrivateKey = true) {below : CipherView}
    (fits : payload.length + headerLength ≤ below.inputSize) :
    (l.encode below payload).run = (below.process (signedBlock below.inputSize payload)).run := by
  have separator := difference_of_le (show payload.length + 1 ≤ below.inputSize by
    rw [headerLength] at fits
    omega)
  have count := difference_of_le (show 1 ≤ below.inputSize - (payload.length + 1) by
    rw [headerLength] at fits
    omega)
  have places : below.inputSize - (payload.length + 1) - 1 =
      below.inputSize - 2 - payload.length := by
    omega
  have pads (n : ℕ) : l.padding n = pure (List.replicate n 0xFF) := by
    rw [padding, if_pos role]
  have type : l.writtenType = 0x01 := by
    rw [writtenType, if_pos role]
  rw [encode]
  dsimp only
  rw [if_neg (not_lt.mpr fits), separator, type]
  simp [count, pads, places, signedBlock]

/-- **What a strict decoder accepts** with a public key.  It reads nothing from the tape, and its
answer is a payload exactly if the signature is a root of the block for that payload. -/
theorem exists_run_decode (role : l.withPrivateKey = false) (strict : l.strictLength = true)
    (k : Rsa.PublicKey) (signature : Bytes) :
    ∃ answer, (l.decode (.ofCipher (Rsa.Cipher.keyed .decrypt (.ofPublic k))) signature).run =
        pure answer ∧
      ∀ payload, answer = .ok payload ↔
        signature.length ≤ byteLength k.modulus ∧ signature.value < k.modulus ∧
          payload.length + headerLength ≤ (bitLength k.modulus - 1) / 8 ∧
          signature.value ^ k.exponent % k.modulus =
            (signedBlock ((bitLength k.modulus - 1) / 8) payload).value := by
  set view := CipherView.ofCipher (Rsa.Cipher.keyed .decrypt (.ofPublic k)) with hview
  have size : view.outputSize = (bitLength k.modulus - 1) / 8 := rfl
  have reads : l.readType = 0x01 := by
    rw [readType, if_neg (by rw [role]; decide)]
  by_cases taken : signature.length ≤ byteLength k.modulus ∧ signature.value < k.modulus
  · set decrypted := Bytes.minimal (signature.value ^ k.exponent % k.modulus) with hdecrypted
    have processed : (view.process signature).run = pure (.ok decrypted) :=
      Rsa.Cipher.run_process_public .decrypt signature k taken.1 taken.2
    obtain ⟨answer, unpadded⟩ := l.exists_unpad view.outputSize decrypted
    refine ⟨answer, ?_, fun payload => ?_⟩
    · rw [decode]
      simp [processed, unpadded]
    · have rules : l.unpad view.outputSize decrypted = .ok (.ok payload) ↔ _ :=
        l.unpad_eq_ok_iff view.outputSize
      rw [unpadded, Except.ok.injEq, reads, size] at rules
      simp only [strict, true_implies] at rules
      rw [rules, formed_full_iff, hdecrypted, minimal_eq_signedBlock_iff]
      exact ⟨fun ⟨fits, power⟩ => ⟨taken.1, taken.2, fits, power⟩,
        fun ⟨_, _, fits, power⟩ => ⟨fits, power⟩⟩
  · have refused : (view.process signature).run = pure (.error (.dataLength .rsaInput)) :=
      Rsa.Cipher.run_process_outside .decrypt (.ofPublic k) taken
    refine ⟨.error (.dataLength .rsaInput), ?_, fun payload => ?_⟩
    · rw [decode]
      simp [refused]
    · constructor
      · rintro ⟨⟩
      · rintro ⟨fits, below, -⟩
        exact absurd ⟨fits, below⟩ taken

/-! ## Signer and verifier -/

variable {k : Rsa.PrivateKey}

/-- The root of the block for a payload. -/
def blockRoot (hk : k.Consistent) (payload : Bytes) : ℕ :=
  hk.root (signedBlock ((bitLength k.modulus - 1) / 8) payload).value

theorem blockRoot_lt (hk : k.Consistent) (payload : Bytes) : blockRoot hk payload < k.modulus :=
  hk.root_lt _

@[simp] theorem value_wide_blockRoot (hk : k.Consistent) (payload : Bytes) :
    Bytes.value (Bytes.wide (byteLength k.modulus) (blockRoot hk payload)) = blockRoot hk payload :=
  Bytes.value_wide_of_lt (Rsa.Cipher.lt_pow_of_lt (blockRoot_lt hk payload))

/-- No other number below the modulus has the block as its power. -/
theorem eq_blockRoot_iff (hk : k.Consistent)
    (fits : payload.length + headerLength ≤ (bitLength k.modulus - 1) / 8) {m : ℕ} :
    m = blockRoot hk payload ↔ m < k.modulus ∧ m ^ k.publicExponent % k.modulus =
      (signedBlock ((bitLength k.modulus - 1) / 8) payload).value := by
  constructor
  · rintro rfl
    have below := value_lt_of_short (Nat.zero_lt_two.trans_le hk.two_le_modulus)
      (length_signedBlock fits).le
    exact ⟨blockRoot_lt hk payload, hk.root_pow_mod below⟩
  · rintro ⟨small, power⟩
    exact hk.eq_root small (power ▸ (Nat.mod_modEq _ _).symm)

/-- **The signer** gives the root of the block, whatever the blinding factor. -/
theorem run_signer (hk : k.Consistent) (l : Pkcs1) (e : Rsa.Cipher)
    (fits : payload.length + headerLength ≤ (bitLength k.modulus - 1) / 8) :
    (AsymmetricCipher.process ((CipherStack.layer (.pkcs1 l) (.base e)).init .encrypt
        (.ofPrivate k)).2 payload).run =
      (fun _ => .ok (Bytes.wide (byteLength k.modulus) (blockRoot hk payload))) <$>
        Rsa.PrivateKey.blinding k.modulus := by
  set view := CipherView.ofCipher (Rsa.Cipher.keyed .encrypt (.ofPrivate k))
  have size : view.inputSize = (bitLength k.modulus - 1) / 8 := rfl
  have short := (length_signedBlock fits).le
  set told : Pkcs1 := { l with direction := .encrypt, withPrivateKey := true }
  have encoded : (told.encode view payload).run =
      (view.process (signedBlock view.inputSize payload)).run :=
    run_encode_signed rfl (by rwa [size])
  rw [Rsa.Cipher.process_init_pkcs1]
  refine encoded.trans ?_
  rw [size]
  exact Rsa.Cipher.run_process_private .encrypt _ hk (length_le_of_short short)
    (value_lt_of_short (Nat.zero_lt_two.trans_le hk.two_le_modulus) short)

/-- The signer refuses a payload that does not fit. -/
theorem run_signer_of_long (l : Pkcs1) (e : Rsa.Cipher)
    (long : (bitLength k.modulus - 1) / 8 < payload.length + headerLength) :
    (AsymmetricCipher.process ((CipherStack.layer (.pkcs1 l) (.base e)).init .encrypt
        (.ofPrivate k)).2 payload).run =
      pure (.error (.invalidArgument .paddedInputTooLarge)) := by
  rw [Rsa.Cipher.process_init_pkcs1]
  exact run_encode_of_lt { l with direction := .encrypt, withPrivateKey := true } long

/-- What the signer may return. -/
theorem signer_returns_iff (hk : k.Consistent) (l : Pkcs1) (e : Rsa.Cipher) {made : Bytes} :
    (AsymmetricCipher.process ((CipherStack.layer (.pkcs1 l) (.base e)).init .encrypt
        (.ofPrivate k)).2 payload).Returns made ↔
      payload.length + headerLength ≤ (bitLength k.modulus - 1) / 8 ∧
        made = Bytes.wide (byteLength k.modulus) (blockRoot hk payload) := by
  by_cases fits : payload.length + headerLength ≤ (bitLength k.modulus - 1) / 8
  · rw [Call.returns_iff_of_blinded hk.two_le_modulus (run_signer hk l e fits), and_iff_right fits]
  · refine iff_of_false ?_ (fun returned => fits returned.1)
    rintro ⟨tape, patience, start, stop, run⟩
    rw [run_signer_of_long l e (not_le.mp fits)] at run
    cases run

/-- **The verifier** accepts the root of the block for a payload that fits. -/
theorem exists_run_verifier (hk : k.Consistent) (strict : l.strictLength = true)
    (ordinary : l.expectedLength = none) (e : Rsa.Cipher) (signature : Bytes) :
    ∃ answer, (AsymmetricCipher.process ((CipherStack.layer (.pkcs1 l) (.base e)).init .decrypt
        (.ofPublic k.publicKey)).2 signature).run = pure answer ∧
      ∀ payload, answer = .ok payload ↔ signature.length ≤ byteLength k.modulus ∧
        payload.length + headerLength ≤ (bitLength k.modulus - 1) / 8 ∧
        signature.value = blockRoot hk payload := by
  set told : Pkcs1 := { l with direction := .decrypt, withPrivateKey := false }
  obtain ⟨answer, run, rules⟩ :=
    exists_run_decode (l := told) rfl strict k.publicKey signature
  refine ⟨answer, ?_, fun payload => (rules payload).trans (and_congr_right fun _ => ?_)⟩
  · rw [Rsa.Cipher.process_init_pkcs1]
    exact (congrArg ExceptT.run (told.process_of_ordinary rfl ordinary)).trans run
  · rw [and_left_comm]
    exact and_congr_right fun fits => (eq_blockRoot_iff hk fits).symm

end Pkcs1

/-- **A payload has one signature.**  A consistent key that a signer accepts is accepted by a
verifier.  A strict verifier reads nothing from the tape, and its answer is a payload exactly if it
got a signature for that payload, in any encoding that is not longer than the modulus.

If a payload fits, the signer gives it one number below the modulus, whatever the tape.  That is
the only number that the verifier accepts, and its power is the block of type 1 with ones up to the
full length.  If the payload does not fit, the signer refuses it, and the verifier accepts
nothing. -/
theorem strict_decoding_accepts_only_signatures {k : Rsa.PrivateKey} (hk : k.Consistent)
    {l l' : Pkcs1} (strict : l.strictLength = true) (ordinary : l.expectedLength = none)
    (e e' : Rsa.Cipher)
    (accepted : ((CipherStack.layer (.pkcs1 l') (.base e')).init .encrypt (.ofPrivate k)).1 =
      .ok ()) :
    let signer := ((CipherStack.layer (.pkcs1 l') (.base e')).init .encrypt (.ofPrivate k)).2
    let set := (CipherStack.layer (.pkcs1 l) (.base e)).init .decrypt (.ofPublic k.publicKey)
    let size := (bitLength k.modulus - 1) / 8
    set.1 = .ok () ∧
      (∀ signature : Bytes, ∃ answer,
        (AsymmetricCipher.process set.2 signature).run = pure answer ∧
          ∀ payload, answer = .ok payload ↔ signature.length ≤ byteLength k.modulus ∧
            ∃ made, (AsymmetricCipher.process signer payload).Returns made ∧
              signature.value = made.value) ∧
      ∀ payload : Bytes,
        (payload.length + Pkcs1.headerLength ≤ size → ∃ m < k.modulus,
          Bytes.minimal (m ^ k.publicExponent % k.modulus) = Pkcs1.signedBlock size payload ∧
          Rsa.GivesBlinded k.modulus (AsymmetricCipher.process signer payload)
            (Bytes.wide (byteLength k.modulus) m) ∧
          ∀ signature, (AsymmetricCipher.process set.2 signature).run = pure (.ok payload) ↔
            signature.length ≤ byteLength k.modulus ∧ signature.value = m) ∧
        (size < payload.length + Pkcs1.headerLength →
          (AsymmetricCipher.process signer payload).run =
            pure (.error (.invalidArgument .paddedInputTooLarge)) ∧
          ∀ signature, (AsymmetricCipher.process set.2 signature).run ≠ pure (.ok payload)) := by
  intro signer set size
  have room : Pkcs1.headerLength ≤ size := Rsa.Cipher.init_pkcs1_eq_ok_iff.mp accepted
  have accepts (signature payload : Bytes) :
      (AsymmetricCipher.process set.2 signature).run = pure (.ok payload) ↔
        signature.length ≤ byteLength k.modulus ∧
          payload.length + Pkcs1.headerLength ≤ size ∧
          signature.value = Pkcs1.blockRoot hk payload := by
    obtain ⟨answer, run, rules⟩ := Pkcs1.exists_run_verifier hk strict ordinary e signature
    rw [run, ← rules payload]
    exact ⟨Draw.pure_inj, congrArg pure⟩
  refine ⟨Rsa.Cipher.init_pkcs1_eq_ok_iff.mpr room, fun signature => ?_,
    fun payload => ⟨fun fits => ?_, fun long => ⟨Pkcs1.run_signer_of_long l' e' long, ?_⟩⟩⟩
  · obtain ⟨answer, run, rules⟩ := Pkcs1.exists_run_verifier hk strict ordinary e signature
    refine ⟨answer, run, fun payload => (rules payload).trans (and_congr_right fun _ => ?_)⟩
    constructor
    · rintro ⟨fits, same⟩
      refine ⟨_, (Pkcs1.signer_returns_iff hk l' e').mpr ⟨fits, rfl⟩, ?_⟩
      rw [same, Pkcs1.value_wide_blockRoot]
    · rintro ⟨made, returned, same⟩
      obtain ⟨fits, rfl⟩ := (Pkcs1.signer_returns_iff hk l' e').mp returned
      exact ⟨fits, same.trans (Pkcs1.value_wide_blockRoot hk payload)⟩
  · obtain ⟨small, power⟩ := (Pkcs1.eq_blockRoot_iff hk fits).mp rfl
    refine ⟨Pkcs1.blockRoot hk payload, small, Pkcs1.minimal_eq_signedBlock_iff.mpr power,
      Rsa.givesBlinded_of_run_eq hk.two_le_modulus (Pkcs1.run_signer hk l' e' fits),
      fun signature => ?_⟩
    rw [accepts]
    exact and_congr_right fun _ => and_iff_right fits
  · intro signature given
    exact absurd ((accepts signature payload).mp given).2.1 (not_le.mpr long)

/-- One byte fills a block of eleven bytes, and one number of twelve bytes is accepted for it. -/
theorem strict_decoding_accepts_only_signatures_of_one_byte :
    let signer : CipherStack Rsa.Cipher := .layer (.pkcs1 {}) (.base {})
    let verifier : CipherStack Rsa.Cipher := .layer (.pkcs1 {}) (.base {})
    oneByteKey.Consistent ∧ (signer.init .encrypt (.ofPrivate oneByteKey)).1 = .ok () ∧
      ∀ signature : Bytes, (AsymmetricCipher.process
        (verifier.init .decrypt (.ofPublic oneByteKey.publicKey)).2 signature).run =
          pure (.ok [0x41]) ↔
        signature.length ≤ 12 ∧ signature.value = 0x0FED110180DA5FC1158CA246 := by
  intro signer verifier
  have consistent := oneByteKey_consistent
  have accepted : (signer.init .encrypt (.ofPrivate oneByteKey)).1 = .ok () := by decide +kernel
  have fits : [(0x41 : UInt8)].length + Pkcs1.headerLength ≤
      (bitLength oneByteKey.modulus - 1) / 8 := by decide +kernel
  obtain ⟨m, small, block, -, unique⟩ := ((strict_decoding_accepts_only_signatures consistent
    (l := {}) rfl rfl {} {} accepted).2.2 [0x41]).1 fits
  have root : m = Pkcs1.blockRoot consistent [0x41] := (Pkcs1.eq_blockRoot_iff consistent fits).mpr
    ⟨small, Pkcs1.minimal_eq_signedBlock_iff.mp block⟩
  have root' : 0x0FED110180DA5FC1158CA246 = Pkcs1.blockRoot consistent [0x41] :=
    (Pkcs1.eq_blockRoot_iff consistent fits).mpr (by decide +kernel)
  have bytes : byteLength oneByteKey.modulus = 12 := by decide +kernel
  rw [bytes, root.trans root'.symm] at unique
  exact ⟨consistent, accepted, unique⟩

end PublicKeyCrypto
