import PublicKeyCrypto.Hash.Sha1
import PublicKeyCrypto.Proofs.Pss.Verification
import Mathlib

/-!
# Signatures without their leading zeros

The standard refuses a signature that has not the length of the modulus (RFC 8017, section 8.1.2,
step 1).  The verifier has no such step.  It leaves the length to the cipher, which only refuses
strings that are longer than the modulus, and then works with the number; and a number does not tell
how many zeros it was written with.

So a string that is too short is accepted exactly if zeros in front make it a valid signature
(`Keyed.verification_padded`).  A valid signature has a second, shorter form exactly if its first
byte is zero, which is so for about one signature in 256.

## Main Definitions

* `Answers` — the verdict on a signature, after the calls of a history

## Main Results

* `short_signature_accepted_iff` — which short strings are accepted, and which signatures have them
* `short_signature_not_refused` — a signature of 21 bytes for a modulus of 22
-/

namespace PublicKeyCrypto.Pss

/-- After the calls of a history the verifier gives the verdict on a signature, on every tape. -/
def Answers (v : Pss Rsa.Cipher) (history : List Request) (signature : Bytes) (valid : Bool) :
    Prop :=
  (v.afterCalls history >>= fun v => v.verify signature).Returns fun reply => reply.1 = .ok valid

variable {k : Rsa.PublicKey} {v : Pss Rsa.Cipher}

/-- A string with the number of a signature of full length is the signature, once it is padded. -/
theorem padded_eq_of_value_eq {short full : Bytes} (length : full.length = byteLength k.modulus)
    (shorter : short.length ≤ full.length) (value : short.value = full.value) :
    padded k short = full := by
  apply Bytes.eq_of_value_eq
  · rw [padded, List.length_append, Bytes.length_zeros, ← length]
    omega
  · rw [padded, Bytes.value_zeros_append, value]

/-- A string that is too short begins with a zero once it is padded. -/
theorem head?_padded {short : Bytes} (shorter : short.length < byteLength k.modulus) :
    (padded k short).head? = some 0x00 := by
  obtain ⟨missing, count⟩ : ∃ missing, byteLength k.modulus - short.length = missing + 1 :=
    ⟨byteLength k.modulus - short.length - 1, by omega⟩
  rw [padded, count]
  rfl

/-- **Short signatures.**  A verifier has taken a public key and served any calls.  It accepts a
string that is shorter than the modulus exactly if the string with zeros in front is valid in the
standard, and halts only if the sum of its sizes wraps around.  A valid signature has a shorter form
that is accepted, with the same number, exactly if it begins with a zero. -/
theorem short_signature_accepted_iff {verifier : Pss Rsa.Cipher}
    (accepted : verifier.init .verify (.ofPublic k) = (.ok (), v)) (history : List Request) :
    (∀ signature : Bytes, signature.length < byteLength k.modulus →
      (v.afterCalls history >>= fun v => v.verify signature).Ensures (fun _ => ¬verifier.Fits)
        fun reply => reply.1 =
          .ok (decide (verifier.options.Valid k (sinceLast history) (padded k signature)))) ∧
    ∀ signature, verifier.options.Valid k (sinceLast history) signature →
      ((∃ shorter : Bytes, shorter.length < signature.length ∧ shorter.value = signature.value ∧
          v.Answers history shorter true) ↔
        signature.head? = some 0x00) := by
  obtain ⟨keyed, same⟩ := keyed_of_init accepted
  rw [← same.options_eq]
  refine ⟨fun signature _ => ?_, fun signature valid => ?_⟩
  · exact keyed.verification_padded (mayFault_of_init accepted fun wraps _ => wraps) history
      signature
  have full : signature.length = byteLength k.modulus := valid.1
  constructor
  · rintro ⟨shorter, short, value, -⟩
    rw [← padded_eq_of_value_eq full short.le value]
    exact head?_padded (full ▸ short)
  · intro zero
    obtain ⟨rest, rfl⟩ := List.head?_eq_some_iff.mp zero
    have value : Bytes.value rest = Bytes.value (0x00 :: rest) :=
      (Bytes.value_zeros_append 1 rest).symm
    have short : rest.length < (0x00 :: rest : Bytes).length := Nat.lt_succ_self _
    refine ⟨rest, short, value, ?_⟩
    -- A signature that is valid shows that there is room, so that every string is answered.
    have verdict : v.Answers history rest _ :=
      keyed.verification_padded (keyed.roomy_of_valid valid).mayFault history rest
    rwa [padded_eq_of_value_eq full short.le value, decide_eq_true valid] at verdict

/-! ## A signature that begins with a zero -/

/-- A modulus of 22 bytes, the product of two primes of 88 bits. -/
def shortKey : Rsa.PublicKey where
  modulus := 0x90c00000000000000000ab89000000000000000030b3
  exponent := 3

/-- A verifier for signatures with SHA-1 and without salt. -/
def shortVerifier : Pss Rsa.Cipher :=
  { cipher := {}, content := .sha1, maskHash := .sha1, saltLength := 0 }

/-- The signature of the byte `55` under the private half of the key, without its leading zero. -/
def shortSignature : Bytes :=
  [0xA4, 0xE3, 0xE3, 0xC7, 0xC7, 0xE1, 0xBB, 0xF0, 0x71, 0x98, 0x44, 0x28, 0x03, 0xCB, 0x76, 0x1F,
    0xAB, 0x06, 0xB6, 0xDF, 0xEE]

theorem shortVerifier_accepts : shortVerifier.init .verify (.ofPublic shortKey) =
    (.ok (), (shortVerifier.init .verify (.ofPublic shortKey)).2) :=
  Prod.ext (by decide +kernel) rfl

theorem shortVerifier_fits : shortVerifier.Fits := by
  unfold Fits
  decide

theorem shortSignature_length : shortSignature.length < byteLength shortKey.modulus := by
  decide +kernel

theorem shortSignature_valid : shortVerifier.options.Valid shortKey (sinceLast [.update [0x55]])
    (padded shortKey shortSignature) := by
  decide +kernel

/-- The signature is accepted without its zero, but not without another byte, and it is not the only
accepted form of its number. -/
theorem short_signature_accepted_without_zero :
    let v := (shortVerifier.init .verify (.ofPublic shortKey)).2
    let history : List Request := [.update [0x55]]
    shortVerifier.init .verify (.ofPublic shortKey) = (.ok (), v) ∧
      shortSignature.length < byteLength shortKey.modulus ∧
      v.Answers history shortSignature true ∧
      v.Answers history shortSignature.tail false ∧
      shortVerifier.options.Valid shortKey (sinceLast history) (padded shortKey shortSignature) ∧
      ∃ shorter : Bytes, shorter.length < (padded shortKey shortSignature).length ∧
        shorter.value = (padded shortKey shortSignature).value ∧
        v.Answers history shorter true := by
  intro v history
  have length := shortSignature_length
  have valid := shortSignature_valid
  have invalid : ¬shortVerifier.options.Valid shortKey (sinceLast history)
      (padded shortKey shortSignature.tail) := by
    decide +kernel
  obtain ⟨answers, shortened⟩ := short_signature_accepted_iff shortVerifier_accepts history
  have first := (answers shortSignature length).mono_halts fun _ wraps => wraps shortVerifier_fits
  have second := (answers shortSignature.tail (by decide +kernel)).mono_halts
    fun _ wraps => wraps shortVerifier_fits
  rw [decide_eq_true valid] at first
  rw [decide_eq_false invalid] at second
  exact ⟨shortVerifier_accepts, length, first, second, valid,
    (shortened _ valid).mpr (head?_padded length)⟩

/-- **Short signatures are not refused**, although the standard says so, not even with keys whose
components have been checked. -/
theorem short_signature_not_refused :
    ¬∀ (n e : ℕ) (k : Rsa.PublicKey) (verifier v : Pss Rsa.Cipher) (history : List Request)
      (signature : Bytes), Rsa.PublicKey.make n e = .ok k →
      verifier.init .verify (.ofPublic k) = (.ok (), v) →
      signature.length < byteLength k.modulus →
      (v.afterCalls history >>= fun v => v.verify signature).Yields fun reply =>
        reply.1 ≠ .ok true := by
  intro claimed
  have made : Rsa.PublicKey.make shortKey.modulus shortKey.exponent = .ok shortKey := by
    decide +kernel
  have refused := claimed _ _ _ _ _ [.update [0x55]] shortSignature made shortVerifier_accepts
    shortSignature_length
  obtain ⟨keyed, same⟩ := keyed_of_init shortVerifier_accepts
  have roomy := roomy_of_init shortVerifier_accepts shortVerifier_fits
  have answers : Answers _ [.update [0x55]] shortSignature _ :=
    keyed.verification_padded roomy.mayFault _ _
  rw [same.options_eq, decide_eq_true shortSignature_valid] at answers
  -- A verifier with a public key halts on no tape, so that one tape shows both answers.
  have outcome := answers (fun _ => 0) 0 0
  have outcome' := refused (fun _ => 0) 0 0
  revert outcome outcome'
  split
  · intro verdict refusal
    exact refusal verdict
  · exact fun halted _ => halted

end PublicKeyCrypto.Pss
