import PublicKeyCrypto.Curve.Ecdh
import PublicKeyCrypto.Curve.Ecdsa
import PublicKeyCrypto.Curve.Gost
import PublicKeyCrypto.Dsa.Scheme
import PublicKeyCrypto.Proofs.DiffieHellman.Session
import PublicKeyCrypto.Proofs.ElGamal.Operation
import PublicKeyCrypto.Proofs.Signature.Signing
import Mathlib

/-!
# Refused calls are forgotten

Signers, ElGamal ciphers and agreements make all their checks before they read the tape or change
anything.  So their calls are decisive, and in every session the refused calls may be left out
(`refusals_forgotten`).

The one check that comes after a draw is that of ElGamal encryption, which writes both halves of the
pair over the length of the modulus.  It never fails, since a cipher that encrypts was given its key
and its size together; that is the invariant `ElGamal.Cipher.Reached`.

## Main Definitions

* `Signer.call`, `cipherCall`, `agreementCall` — the calls of the objects

## Main Results

* `Signer.call_decisive`, `ElGamal.Cipher.call_decisive`, `agreementCall_decisive` — the decisive
  calls
* `refusals_forgotten` — the objects that forget their refusals
-/

namespace PublicKeyCrypto

variable {σ α : Type} {s : σ} {I : σ → Prop}

/-- A call that leaves the object as it is, when its answer is a refusal at once or never one. -/
theorem Draw.decisive_answer {x : Draw (Except Error α)} (hs : I s)
    (h : (∃ e, x = pure (.error e)) ∨ x.Yields fun answer => ∃ a, answer = .ok a) :
    ((fun answer => (answer, s)) <$> x : Draw (Reply σ α)).Decisive s I := by
  rcases h with ⟨e, rfl⟩ | granted
  · exact .inl ⟨e, rfl⟩
  · exact .inr (Draw.ensures_map (granted.mono fun _ answered => ⟨answered, hs⟩))

/-! ## Signers -/

namespace Signer

/-- A call of a signer. -/
inductive Request (S P : Type)
  | init (task : Task) (key : KeyHalf S P)
  | sign (message : Bytes)
  | verify (message : Bytes) (signature : Signature)

/-- What a call of a signer gives. -/
inductive Answer
  | nothing
  | signature (pair : Signature)
  | valid (verdict : Bool)

variable {S P K : Type}

/-- A refused key leaves the signer as it was. -/
theorem init_of_error {s : Signer S P K} {task : Task} {key : KeyHalf S P} {e : Error}
    (h : (s.init task key).1 = .error e) : (s.init task key).2 = s := by
  cases key with
  | ofPrivate k =>
      cases task with
      | sign => cases h
      | verify => rfl
  | ofPublic k =>
      cases task with
      | sign => rfl
      | verify => cases h

variable [NonceSource K]

/-- What a signer does with a call. -/
def call (s : Signer S P K) : Request S P → Draw (Reply (Signer S P K) Answer)
  | .init task key => Reply.map (fun _ => .nothing) <$> pure (s.init task key)
  | .sign message => Reply.map .signature <$> s.sign message
  | .verify message signature => Reply.map .valid <$> pure (s.verify message signature, s)

/-- A signer with a private key signs; any other is refused before the nonces are set up. -/
theorem call_decisive (s : Signer S P K) (request : Request S P) :
    (s.call request).Decisive s fun _ => True := by
  cases request with
  | init task key =>
      exact Draw.Decisive.map
        (Draw.decisive_pure (fun _ refused => init_of_error refused) fun _ _ => trivial) _
  | sign message =>
      refine Draw.Decisive.map ?_ _
      rcases keyed : s.key with _ | k | k
      · exact .inl ⟨_, by rw [sign, keyed]⟩
      · refine .inr ((sign_yields keyed message).mono ?_)
        rintro reply ⟨nonce, signature, -, answered⟩
        exact ⟨⟨signature, answered⟩, trivial⟩
      · exact .inl ⟨_, by rw [sign, keyed]⟩
  | verify message signature =>
      exact Draw.Decisive.map (Draw.decisive_pure (fun _ _ => rfl) fun _ _ => trivial) _

end Signer

/-! ## Ciphers -/

/-- A call of an asymmetric cipher. -/
inductive CipherRequest (S P : Type)
  | init (direction : Direction) (key : KeyHalf S P)
  | process (input : Bytes)

/-- What an asymmetric cipher does with a call.  It gives the transformed block, and nothing when
its key is set. -/
def cipherCall {E S P : Type} [AsymmetricCipher E S P] (e : E) :
    CipherRequest S P → Draw (Reply E (Option Bytes))
  | .init direction key =>
      Reply.map (fun _ => none) <$> pure (AsymmetricCipher.init e direction key)
  | .process input =>
      Reply.map some <$> (fun answer => (answer, e)) <$> (AsymmetricCipher.process e input).run

namespace ElGamal.Cipher

/-- The ciphers that calls lead to: a new one, or one for a half of a key pair. -/
def Reached (e : Cipher) : Prop := e = {} ∨ (∃ k, e = encrypting k) ∨ ∃ k, e = decrypting k

/-- A key is refused and leaves the cipher as it was, or the cipher is for this key. -/
theorem init_cases (e : Cipher) (direction : Direction) (key : Key) :
    (∃ refusal, e.init direction key = (.error refusal, e)) ∨
      ∃ e', e.init direction key = (.ok (), e') ∧ e'.Reached := by
  cases key with
  | ofPrivate k =>
      cases direction with
      | encrypt => exact .inl ⟨_, rfl⟩
      | decrypt => exact .inr ⟨_, rfl, .inr (.inr ⟨k, rfl⟩)⟩
  | ofPublic k =>
      cases direction with
      | encrypt => exact .inr ⟨_, rfl, .inr (.inl ⟨k, rfl⟩)⟩
      | decrypt => exact .inl ⟨_, rfl⟩

/-- Encryption is refused for the length or the value of the block, before an exponent is drawn. -/
theorem encrypting_decisive (k : PublicKey) (input : Bytes) :
    (∃ e, ((encrypting k).process input).run = pure (.error e)) ∨
      ((encrypting k).process input).run.Yields fun answer => ∃ b, answer = .ok b := by
  by_cases fits : input.length ≤ plainSize (bitLength k.group.p) + 1
  · by_cases below : input.value < k.group.p
    · refine .inr (((process_encrypting k fits below).mono ?_).mono_halts fun _ _ => trivial)
      rintro answer ⟨exponent, rfl⟩
      exact ⟨_, rfl⟩
    · refine .inl ⟨.dataLength .elGamalInput, ?_⟩
      have short : ¬input.length > (encrypting k).inputSize + 1 := not_lt.mpr fits
      show ((encrypting k).encryptBlock k input).run = _
      rw [encryptBlock, if_neg short]
      dsimp only
      rw [if_pos (not_lt.mp below)]
      rfl
  · refine .inl ⟨.dataLength .elGamalInput, ?_⟩
    have long : input.length > (encrypting k).inputSize + 1 := not_le.mp fits
    show ((encrypting k).encryptBlock k input).run = _
    rw [encryptBlock, if_pos long]
    rfl

/-- Decryption reads nothing. -/
theorem decrypting_decisive (k : PrivateKey) (input : Bytes) :
    (∃ e, ((decrypting k).process input).run = pure (.error e)) ∨
      ((decrypting k).process input).run.Yields fun answer => ∃ b, answer = .ok b := by
  show (∃ e, ((decrypting k).decryptBlock k input).run = _) ∨
    ((decrypting k).decryptBlock k input).run.Yields _
  rw [decryptBlock]
  dsimp only
  split
  · exact .inl ⟨_, rfl⟩
  · split
    · exact .inl ⟨_, rfl⟩
    · -- Numbers that cannot be decrypted stop the call, which is no refusal.
      refine .inr (Call.ensures_lift_bind ?_)
      exact Draw.yields_iff.mpr fun _ _ _ m _ _ => Draw.ensures_pure ⟨Bytes.minimal m, rfl⟩

/-- **Ciphers that were reached are decisive.** -/
theorem call_decisive {e : Cipher} (reached : e.Reached)
    (request : CipherRequest PrivateKey PublicKey) : (cipherCall e request).Decisive e Reached := by
  cases request with
  | init direction key =>
      refine Draw.Decisive.map (s := e) ?_ _
      rcases init_cases e direction key with ⟨refusal, refused⟩ | ⟨e', taken, reached'⟩
      · exact .inl ⟨refusal, congrArg pure refused⟩
      · refine .inr ?_
        rw [show AsymmetricCipher.init e direction key = _ from taken]
        exact Draw.ensures_pure ⟨⟨(), rfl⟩, reached'⟩
  | process input =>
      refine Draw.Decisive.map (Draw.decisive_answer reached ?_) _
      obtain rfl | ⟨k, rfl⟩ | ⟨k, rfl⟩ := reached
      · exact .inl ⟨_, rfl⟩
      · exact encrypting_decisive k input
      · exact decrypting_decisive k input

end ElGamal.Cipher

/-! ## Agreements -/

/-- A call of an agreement that sends no messages. -/
inductive AgreementRequest (S P : Type)
  | init (key : KeyHalf S P)
  | agree (peer : P)

section Agreements

variable {A S P : Type} (init : A → KeyHalf S P → Reply A Unit) (agree : A → P → Except Error ℕ)

/-- What an agreement that sends no messages does with a call.  It gives the shared value, and
nothing when its key is set. -/
def agreementCall (a : A) : AgreementRequest S P → Draw (Reply A (Option ℕ))
  | .init key => Reply.map (fun _ => none) <$> pure (init a key)
  | .agree peer => Reply.map some <$> pure (agree a peer, a)

variable {init agree}

/-- An agreement that sends no messages reads nothing; it is decisive if a refused key changes
nothing. -/
theorem agreementCall_decisive
    (refusal : ∀ a key e, (init a key).1 = .error e → (init a key).2 = a) (a : A)
    (request : AgreementRequest S P) :
    (agreementCall init agree a request).Decisive a fun _ => True := by
  cases request with
  | init key => exact Draw.Decisive.map (Draw.decisive_pure (refusal a key) fun _ _ => trivial) _
  | agree peer => exact Draw.Decisive.map (Draw.decisive_pure (fun _ _ => rfl) fun _ _ => trivial) _

end Agreements

/-- A refused key leaves the agreement as it was. -/
theorem DiffieHellman.Agreement.init_of_error (a : Agreement) (key : Key) (e : Error)
    (h : (a.init key).1 = .error e) : (a.init key).2 = a := by
  cases key with
  | ofPrivate k => cases h
  | ofPublic k => rfl

/-- A refused key leaves the agreement as it was. -/
theorem Ecdh.init_of_error {P : Type} (a : Ecdh P) (key : Curve.Key P) (e : Error)
    (h : (a.init key).1 = .error e) : (a.init key).2 = a := by
  cases key with
  | ofPrivate k => cases h
  | ofPublic k => rfl

/-! ## All objects -/

/-- **Refusals are forgotten.**  New signers of the three schemes with nonces from any source, new
ElGamal ciphers and new agreements of the three kinds: without the refused calls every session takes
the same course. -/
theorem refusals_forgotten :
    (∀ (K : Type) [NonceSource K] (nonces : K),
      ForgetsRefusals Signer.call { scheme := Dsa.scheme, nonces }) ∧
    (∀ (P : Type) [Curve P] (K : Type) [NonceSource K] (nonces : K),
      ForgetsRefusals Signer.call { scheme := Ecdsa.scheme P, nonces }) ∧
    (∀ (P : Type) [Curve P] (K : Type) [NonceSource K] (nonces : K),
      ForgetsRefusals Signer.call { scheme := Gost.scheme P, nonces }) ∧
    ForgetsRefusals cipherCall ({} : ElGamal.Cipher) ∧
    ForgetsRefusals
      (agreementCall DiffieHellman.Agreement.init DiffieHellman.Agreement.agree) {} ∧
    (∀ (P : Type) [Curve P], ForgetsRefusals (agreementCall Ecdh.init Ecdh.agree) ({} : Ecdh P)) ∧
    ForgetsRefusals DiffieHellman.MtiAgreement.call .idle := by
  have signers : ∀ {S P K : Type} [NonceSource K] (s : Signer S P K),
      ForgetsRefusals Signer.call s := fun s =>
    forgetsRefusals_of_decisive (fun s _ => Signer.call_decisive s) trivial
  refine ⟨fun K _ nonces => signers _, fun P _ K _ nonces => signers _,
    fun P _ K _ nonces => signers _, ?_, ?_, fun P _ => ?_, ?_⟩
  · exact forgetsRefusals_of_decisive (fun _ => ElGamal.Cipher.call_decisive) (.inl rfl)
  · exact forgetsRefusals_of_decisive
      (fun a _ => agreementCall_decisive DiffieHellman.Agreement.init_of_error a) trivial
  · exact forgetsRefusals_of_decisive
      (fun a _ => agreementCall_decisive Ecdh.init_of_error a) trivial
  · exact forgetsRefusals_of_decisive
      (fun a _ => DiffieHellman.MtiAgreement.call_decisive a) trivial

end PublicKeyCrypto
