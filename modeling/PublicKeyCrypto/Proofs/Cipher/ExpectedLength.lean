import PublicKeyCrypto.Proofs.Cipher.AcceptedBlocks
import PublicKeyCrypto.Proofs.Cipher.Indistinguishable
import Mathlib

/-!
# A decoder that expects a length follows the strict decoder

There are two decoders of PKCS #1.  The ordinary one looks for the first zero byte from the left and
refuses what is malformed.  The one that expects a length knows from the right where the zero byte
must stand, and gives random bytes where the other refuses, or where it finds a payload of another
length.

* **Blocks** (`unpadOr_of_unpad`).  Both scans are exact for one grammar: what the ordinary one
  reads as a payload of the length is what the other one carries (`carries_iff_of_unpad`).  So on
  every block the one is a function of the answer of the other (`payloadOr`).
* **Runs** (`expecting_decoder_follows_strict`).  The two decoders run at different places of the
  tape, since one of them has drawn its random bytes first, and so they see different blinding
  factors.  With a consistent key the cipher gives them the same block nevertheless.

## Main Definitions

* `Pkcs1.payloadOr` — the payload of an answer if it has a length, and random bytes otherwise

## Main Results

* `Pkcs1.unpadOr_of_unpad` — the two decoders on one block
* `Pkcs1.decodeOrRandom_of_returned`, `Pkcs1.verdict_eq_of_decode` — each decoder on a ciphertext,
  over any cipher and over one with one answer on all tapes
* `expecting_decoder_follows_strict` — the two decoders on one ciphertext, on any two tapes
-/

namespace PublicKeyCrypto

namespace Pkcs1

/-! ## One block -/

/-- The payload of an answer if it is as long as the random bytes, and the random bytes
otherwise. -/
def payloadOr (random : Bytes) : Except Error Bytes → Bytes
  | .ok payload => if payload.length = random.length then payload else random
  | .error _ => random

section Block

variable {l reader : Pkcs1} {outputSize : ℕ} {block : Bytes} {verdict : Except Error Bytes}

/-- What the ordinary decoder reads with a private key are the payloads that blocks carry. -/
theorem carries_iff_of_unpad (role : reader.withPrivateKey = true)
    (same : reader.strictLength = l.strictLength)
    (read : reader.unpad outputSize block = .ok verdict) {length : ℕ} {payload : Bytes} :
    Carries l.strictLength outputSize length payload block ↔
      verdict = .ok payload ∧ payload.length = length := by
  have type : reader.readType = 0x02 := by rw [readType, if_pos role]
  have rules : reader.unpad outputSize block = .ok (.ok payload) ↔ _ :=
    reader.unpad_eq_ok_iff outputSize
  rw [read, Except.ok.injEq, type, same] at rules
  rw [rules]
  constructor
  · intro carries
    exact ⟨⟨carries.formed, carries.whole⟩, carries.length_eq⟩
  · rintro ⟨⟨formed, whole⟩, length_eq⟩
    exact ⟨formed, whole, length_eq⟩

/-- **The two decoders on one block.**  One gives what the other reads, if it has the length, and
the random bytes otherwise. -/
theorem unpadOr_of_unpad (role : reader.withPrivateKey = true)
    (same : reader.strictLength = l.strictLength)
    (read : reader.unpad outputSize block = .ok verdict) (random : Bytes) :
    l.unpadOr outputSize random block = .ok (payloadOr random verdict) := by
  by_cases carried : ∃ payload, Carries l.strictLength outputSize random.length payload block
  · obtain ⟨payload, carries⟩ := carried
    obtain ⟨rfl, length⟩ := (carries_iff_of_unpad role same read).mp carries
    rw [unpadOr_of_carries carries, payloadOr, if_pos length]
  · rw [unpadOr_of_malformed fun payload carries => carried ⟨payload, carries⟩]
    cases verdict with
    | error refusal => rfl
    | ok payload =>
        have other : payload.length ≠ random.length := fun length =>
          carried ⟨payload, (carries_iff_of_unpad role same read).mpr ⟨rfl, length⟩⟩
        rw [payloadOr, if_neg other]

end Block

/-! ## One run -/

section Run

variable {l reader : Pkcs1} {view : CipherView} {length : ℕ} {c block : Bytes}
variable {verdict : Except Error Bytes} {tape : Tape} {patience start stop : ℕ}

/-- The decoder that expects a length refuses what the cipher refuses behind the random bytes. -/
theorem decodeOrRandom_refuses_iff (role : l.withPrivateKey = true) (refusal : Error) :
    (l.decodeOrRandom view length c).run.run tape patience start = .ok (.error refusal, stop) ↔
      (view.process c).run.run tape patience (start + length) = .ok (.error refusal, stop) := by
  rw [run_decodeOrRandom_view role]
  rcases (view.process c).run.run tape patience (start + length) with
    halt | ⟨refusal' | block, stop'⟩
  · exact Iff.rfl
  · exact Iff.rfl
  · dsimp only
    cases l.unpadOr view.outputSize (Draw.bytesAt tape start length) block <;>
      refine iff_of_false ?_ ?_ <;> rintro ⟨⟩

/-- On a block that the cipher gives, it answers according to what the ordinary decoder reads. -/
theorem decodeOrRandom_of_returned (role : l.withPrivateKey = true)
    (role' : reader.withPrivateKey = true) (same : reader.strictLength = l.strictLength)
    (returned : (view.process c).run.run tape patience (start + length) = .ok (.ok block, stop))
    (read : reader.unpad view.outputSize block = .ok verdict) :
    (l.decodeOrRandom view length c).run.run tape patience start =
      .ok (.ok (payloadOr (Draw.bytesAt tape start length) verdict), stop) := by
  rw [run_decodeOrRandom_view role, returned]
  dsimp only
  rw [unpadOr_of_unpad role' same read]

/-- The ordinary decoder answers with what it reads. -/
theorem decode_of_returned
    (returned : (view.process c).run.run tape patience start = .ok (.ok block, stop))
    (read : reader.unpad view.outputSize block = .ok verdict) :
    (reader.decode view c).run.run tape patience start = .ok (verdict, stop) := by
  rw [decode, Call.run_after, returned]
  dsimp only
  rw [read]

/-- Over a cipher with one answer on all tapes, the ordinary decoder has one answer. -/
theorem verdict_eq_of_decode {answer : Except Error Bytes}
    (one : (view.process c).run.Yields (· = answer))
    (returned : (view.process c).run.run tape patience start = .ok (.ok block, stop))
    (read : reader.unpad view.outputSize block = .ok verdict)
    {tape' : Tape} {patience' start' stop' : ℕ} {verdict' : Except Error Bytes}
    (ended : (reader.decode view c).run.run tape' patience' start' = .ok (verdict', stop')) :
    verdict' = verdict := by
  rw [decode, Call.run_after] at ended
  rcases given : (view.process c).run.run tape' patience' start' with
    halt | ⟨refusal | block', stop''⟩
  · rw [given] at ended
    cases ended
  · cases (one.value returned).trans (one.value given).symm
  · cases (one.value returned).trans (one.value given).symm
    rw [given] at ended
    dsimp only at ended
    rw [read] at ended
    cases ended
    rfl

end Run

end Pkcs1

/-! ## One ciphertext -/

/-- **The decoder that expects a length follows the strict decoder.**  Both take one consistent key,
whether or not it has room for a payload, and get one ciphertext.

The decoder that expects a length runs the cipher behind its random bytes, and refuses a ciphertext
exactly if the cipher refuses it there.  Wherever the cipher gives a block, it answers.  The strict
decoder answers there too, and its answer on any tape decides: a payload of the length is given, and
the random bytes are given in every other case. -/
theorem expecting_decoder_follows_strict {k : Rsa.PrivateKey} (hk : k.Consistent) (length : ℕ)
    (e e' : Rsa.Cipher) (c : Bytes) :
    let cipher := Rsa.Cipher.keyed .decrypt (.ofPrivate k)
    let expecting := ((CipherStack.layer (.pkcs1 { expectedLength := some length }) (.base e)).init
      .decrypt (.ofPrivate k)).2
    let strict := ((CipherStack.layer (.pkcs1 {}) (.base e')).init .decrypt (.ofPrivate k)).2
    ∀ tape patience start,
      (∀ refusal stop,
        (AsymmetricCipher.process expecting c).run.run tape patience start =
            .ok (.error refusal, stop) ↔
          (AsymmetricCipher.process cipher c).run.run tape patience (start + length) =
            .ok (.error refusal, stop)) ∧
      ∀ block stop,
        (AsymmetricCipher.process cipher c).run.run tape patience (start + length) =
            .ok (.ok block, stop) →
          ∃ out, (AsymmetricCipher.process expecting c).run.run tape patience start =
              .ok (.ok out, stop) ∧
            (∃ verdict, (AsymmetricCipher.process strict c).run.run tape patience
              (start + length) = .ok (verdict, stop)) ∧
            ∀ tape' patience' start' verdict stop',
              (AsymmetricCipher.process strict c).run.run tape' patience' start' =
                  .ok (verdict, stop') →
                out = Pkcs1.payloadOr (Draw.bytesAt tape start length) verdict := by
  intro cipher expecting strict tape patience start
  set told : Pkcs1 :=
    { expectedLength := some length, direction := .decrypt, withPrivateKey := true }
  set reader : Pkcs1 := { direction := .decrypt, withPrivateKey := true }
  set view := CipherView.ofCipher cipher
  have process_expecting : AsymmetricCipher.process expecting c =
      told.decodeOrRandom view length c := by
    rw [Rsa.Cipher.process_init_pkcs1]
    exact told.process_of_expected rfl rfl
  have process_strict : AsymmetricCipher.process strict c = reader.decode view c := by
    rw [Rsa.Cipher.process_init_pkcs1]
    exact reader.process_of_ordinary rfl rfl
  have process_cipher : AsymmetricCipher.process cipher c = view.process c := rfl
  obtain ⟨answer, one⟩ : ∃ answer, (view.process c).run.Yields (· = answer) :=
    Rsa.Cipher.exists_process_private_yields .decrypt c hk
  rw [process_expecting, process_strict, process_cipher]
  constructor
  · intro refusal stop
    exact Pkcs1.decodeOrRandom_refuses_iff rfl refusal
  · intro block stop returned
    obtain ⟨verdict, read⟩ := reader.exists_unpad view.outputSize block
    refine ⟨Pkcs1.payloadOr (Draw.bytesAt tape start length) verdict,
      Pkcs1.decodeOrRandom_of_returned rfl rfl rfl returned read,
      ⟨verdict, Pkcs1.decode_of_returned returned read⟩, ?_⟩
    intro tape' patience' start' verdict' stop' ended
    rw [Pkcs1.verdict_eq_of_decode one returned read ended]

/-- A payload of the length, and one that is a byte too short.  The strict decoder runs on another
tape, with another blinding factor. -/
theorem expecting_decoder_follows_strict_for_one_byte :
    let expecting : CipherStack Rsa.Cipher := ((CipherStack.layer
      (.pkcs1 { expectedLength := some 1 }) (.base {})).init .decrypt (.ofPrivate oneByteKey)).2
    let strict : CipherStack Rsa.Cipher := ((CipherStack.layer
      (.pkcs1 {}) (.base {})).init .decrypt (.ofPrivate oneByteKey)).2
    let encrypted (block : Bytes) : Bytes :=
      Bytes.minimal (block.value ^ oneByteKey.publicExponent % oneByteKey.modulus)
    let padded (count : ℕ) (payload : Bytes) : Bytes :=
      0x02 :: (List.replicate count 0x05 ++ 0x00 :: payload)
    let run (call : Call Bytes) (byte : UInt8) (start : ℕ) := call.run.run (fun _ => byte) 1 start
    oneByteKey.Consistent ∧
      run (AsymmetricCipher.process strict (encrypted (padded 8 [0x41]))) 2 0 =
        .ok (.ok [0x41], 12) ∧
      run (AsymmetricCipher.process expecting (encrypted (padded 8 [0x41]))) 1 0 =
        .ok (.ok [0x41], 13) ∧
      run (AsymmetricCipher.process strict (encrypted (padded 9 []))) 2 0 = .ok (.ok [], 12) ∧
      run (AsymmetricCipher.process expecting (encrypted (padded 9 []))) 1 0 =
        .ok (.ok [1], 13) := by
  intro expecting strict encrypted padded run
  let cipher := Rsa.Cipher.keyed .decrypt (.ofPrivate oneByteKey)
  have consistent := oneByteKey_consistent
  -- What is decrypted behind the random byte, and what the strict decoder reads elsewhere.
  have fitting : run (AsymmetricCipher.process cipher (encrypted (padded 8 [0x41]))) 1 1 =
      .ok (.ok (padded 8 [0x41]), 13) := by decide +kernel
  have read : run (AsymmetricCipher.process strict (encrypted (padded 8 [0x41]))) 2 0 =
      .ok (.ok [0x41], 12) := by decide +kernel
  have shorter : run (AsymmetricCipher.process cipher (encrypted (padded 9 []))) 1 1 =
      .ok (.ok (padded 9 []), 13) := by decide +kernel
  have read' : run (AsymmetricCipher.process strict (encrypted (padded 9 []))) 2 0 =
      .ok (.ok [], 12) := by decide +kernel
  obtain ⟨out, given, -, agrees⟩ := (expecting_decoder_follows_strict consistent 1 {} {}
    (encrypted (padded 8 [0x41])) (fun _ => 1) 1 0).2 _ _ fitting
  obtain ⟨out', given', -, agrees'⟩ := (expecting_decoder_follows_strict consistent 1 {} {}
    (encrypted (padded 9 [])) (fun _ => 1) 1 0).2 _ _ shorter
  obtain rfl : out = [0x41] := agrees (fun _ => 2) 1 0 _ _ read
  obtain rfl : out' = [1] := agrees' (fun _ => 2) 1 0 _ _ read'
  exact ⟨consistent, read, given, read', given'⟩

end PublicKeyCrypto
