import PublicKeyCrypto.Curve.Ecmqv
import PublicKeyCrypto.Derivation.KeyEncryption
import PublicKeyCrypto.Proofs.Cipher.Overwritten
import PublicKeyCrypto.Proofs.Rsa.RoundTrip
import PublicKeyCrypto.Proofs.Symmetric.RejectedKey
import Mathlib

/-!
# Objects that start anew

Every object that can be set up starts anew with each set-up that it takes (`set_up_starts_anew`).
What has to be said of an object is which of its fields are options, and that a set-up that is taken
overwrites all others that a call can look at.

* **Signers** keep the nonces of their last signature.  They seed the source for each signature, and
  neither the random nor the deterministic source makes any use of what it was before.
* **Agreements and generators** keep what they were set up with, and nothing else.
* **Modes** take over an initial value before the cipher sees the key.  It stays if the cipher
  refuses the key, until the next set-up that is taken.

Ciphers, the layers over them and the signers over these are treated in a module of their own.

## Main Definitions

* `NonceSource.Seeded` — sources that are what they were seeded with
* `QueryRequest`, `queryCall` — the calls of an object that answers queries
* `BlockCipher.KeysOverwrite` — keys overwrite a block cipher but for its options

## Main Results

* `Signer.call_setAnew`, `KeyWrap.init_overwrites`, `Stealing.init_overwrites` — signers and modes
* `set_up_starts_anew` — all objects
-/

namespace PublicKeyCrypto

variable {σ κ I Q β : Type}

/-! ## Signers -/

/-- A source that is seeded is nothing but what it was seeded with. -/
def NonceSource.Seeded (K : Type) [NonceSource K] : Prop :=
  ∀ (k k' : K) order secret message, init k order secret message = init k' order secret message

theorem RandomNonce.seeded : NonceSource.Seeded RandomNonce := fun _ _ _ _ _ => rfl

theorem HmacNonce.seeded (H : Hash) : NonceSource.Seeded (HmacNonce H) := fun _ _ _ _ _ => rfl

namespace Signer

variable {S P K : Type}

/-- Whether a call sets the signer up. -/
def Request.sets : Request S P → Bool
  | init .. => true
  | sign _ => false
  | verify .. => false

/-- What decides about the calls of a signer. -/
def known (s : Signer S P K) : SignatureScheme S P × Option (KeyHalf S P) := (s.scheme, s.key)

variable [NonceSource K]

/-- The signature does not depend on the nonces of the last one. -/
theorem seen_sign_eq (seeded : NonceSource.Seeded K) (scheme : SignatureScheme S P)
    (nonces nonces' : K) (key : Option (KeyHalf S P)) (message : Bytes) :
    Reply.seen known <$> ({ scheme, nonces, key } : Signer S P K).sign message =
      Reply.seen known <$> ({ scheme, nonces := nonces', key } : Signer S P K).sign message := by
  rcases key with _ | k | k
  · rfl
  · have source := seeded nonces nonces' (scheme.order (.ofPrivate k)) (scheme.secret k) message
    simp only [sign, source, map_bind, map_pure, Reply.seen, known]
  · rfl

/-- **Signers.**  Keys overwrite a signer but for its scheme and its nonces, and these are seeded
before they are used. -/
theorem call_setAnew (seeded : NonceSource.Seeded K) :
    SetAnew Request.sets known Signer.scheme (call (S := S) (P := P) (K := K)) where
  setUp := by
    rintro (⟨task, key⟩ | message | ⟨message, signature⟩) setup
    · refine ⟨.nothing, fun s => s.init task key, ⟨fun s => ?_, fun {s t} same taken => ?_⟩,
        fun _ => rfl⟩
      · cases key <;> cases task <;> rfl
      · cases key <;> cases task <;> cases taken
        · exact congrArg (fun scheme => (Except.ok (), scheme, _)) same
        · exact congrArg (fun scheme => (Except.ok (), scheme, _)) same
    · cases setup
    · cases setup
  use := by
    rintro s (_ | message | ⟨message, signature⟩) use
    · cases use
    · refine Draw.ensures_map ?_
      unfold sign
      split
      · exact Draw.ensures_pure rfl
      · exact Draw.ensures_pure rfl
      · exact Draw.yields_bind fun _ => Draw.ensures_pure rfl
    · exact Draw.ensures_map (Draw.ensures_pure rfl)
  decided := by
    rintro ⟨scheme, nonces, key⟩ ⟨_, nonces', _⟩ same request
    cases same
    cases request with
    | init task key' => cases key' <;> cases task <;> rfl
    | sign message =>
        have signed := seen_sign_eq seeded scheme nonces nonces' key message
        have answered := congrArg (Reply.map Answer.signature <$> ·) signed
        simpa only [call, Functor.map_map, Reply.seen_map] using answered
    | verify message signature => rfl

end Signer

/-- Signers of all schemes start anew, with nonces from the source. -/
def SignersStartAnew (K : Type) [NonceSource K] : Prop :=
  ∀ (S P : Type) (s : Signer S P K), StartsAnew Signer.Request.sets Signer.known Signer.call s

theorem signersStartAnew {K : Type} [NonceSource K] (seeded : NonceSource.Seeded K) :
    SignersStartAnew K := fun _ _ => startsAnew_of_setAnew (Signer.call_setAnew seeded)

/-! ## Agreements -/

/-- Whether a call sets the agreement up. -/
def AgreementRequest.sets {S P : Type} : AgreementRequest S P → Bool
  | init _ => true
  | agree _ => false

/-- Agreements that refuse a public key at once, and keep the private one only. -/
theorem agreementCall_setAnew {S P : Type} {init : σ → KeyHalf S P → Reply σ Unit}
    {agree : σ → P → Except Error ℕ} {keyed : S → σ}
    (taken : ∀ s k, init s (.ofPrivate k) = (.ok (), keyed k))
    (refused : ∀ s k, ∃ e, init s (.ofPublic k) = (.error e, s)) :
    SetAnew AgreementRequest.sets id (fun _ => ()) (agreementCall init agree) := by
  apply setAnew_of_whole
  · rintro (key | peer) setup
    · refine ⟨none, fun s => init s key, ?_, fun _ => rfl⟩
      cases key with
      | ofPrivate k =>
          simp only [taken]
          exact overwrites_of_total (fun _ => rfl) fun _ => rfl
      | ofPublic k => exact overwrites_of_refusal fun s => refused s k
    · cases setup
  · exact fun _ _ _ => Draw.yields_iff.mpr fun _ _ _ _ _ _ => rfl

/-- Whether a call sets the agreement up. -/
def DiffieHellman.MtiAgreement.Request.sets : Request → Bool
  | init _ => true
  | message => false
  | agree .. => false

/-- An agreement with messages drops its session when it takes a key. -/
theorem DiffieHellman.MtiAgreement.call_setAnew :
    SetAnew Request.sets id (fun _ => ()) call := by
  apply setAnew_of_whole
  · rintro (key | _ | _) setup
    · refine ⟨none, fun a => a.init key, ?_, fun _ => rfl⟩
      cases key with
      | ofPrivate k => exact overwrites_of_total (fun _ => rfl) fun _ => rfl
      | ofPublic k => exact overwrites_of_refusal fun _ => ⟨_, rfl⟩
    · cases setup
    · cases setup
  · exact fun _ _ _ => Draw.yields_iff.mpr fun _ _ _ _ _ _ => rfl

/-! ## Queries -/

/-- A call of an object that answers queries about what it was set up with. -/
inductive QueryRequest (I Q : Type)
  | init (input : I)
  | use (query : Q)

/-- Whether a call sets the object up. -/
def QueryRequest.sets : QueryRequest I Q → Bool
  | init _ => true
  | use _ => false

/-- What such an object does with a call.  A query leaves it as it is. -/
def queryCall (init : σ → I → Reply σ Unit) (answer : σ → Q → Except Error β) (s : σ) :
    QueryRequest I Q → Draw (Reply σ (Option β))
  | .init input => Reply.map (fun _ => none) <$> pure (init s input)
  | .use query => Reply.map some <$> pure (answer s query, s)

/-- Objects that answer queries. -/
theorem queryCall_setAnew {init : σ → I → Reply σ Unit} {answer : σ → Q → Except Error β}
    (options : σ → κ) (h : ∀ input, Overwrites id options fun s => init s input) :
    SetAnew QueryRequest.sets id options (queryCall init answer) := by
  apply setAnew_of_whole
  · rintro (input | query) setup
    · exact ⟨none, fun s => init s input, h input, fun _ => rfl⟩
    · cases setup
  · rintro s (_ | query) use
    · cases use
    · exact Draw.ensures_map (Draw.ensures_pure rfl)

/-- A call of a generator, whose set-up is always taken. -/
def generatorCall (init : σ → I → σ) (generate : σ → ℕ → Except Error Bytes) :
    σ → QueryRequest I ℕ → Draw (Reply σ (Option Bytes)) :=
  queryCall (fun s input => (.ok (), init s input)) generate

/-- Generators with a hash function keep it, and nothing else. -/
theorem generatorCall_setAnew {init : σ → I → σ} {generate : σ → ℕ → Except Error Bytes}
    (options : σ → κ) (kept : ∀ input s, options (init s input) = options s)
    (all : ∀ input {s t}, options s = options t → init s input = init t input) :
    SetAnew QueryRequest.sets id options (generatorCall init generate) :=
  queryCall_setAnew options fun input => overwrites_of_total (kept input) (all input)

/-! ## Block ciphers and modes -/

/-- A key that is taken overwrites all of a block cipher but its options. -/
def BlockCipher.KeysOverwrite {C : Type} [BlockCipher C] (options : C → κ) : Prop :=
  ∀ direction key, Overwrites id options fun c : C => BlockCipher.init c direction key

/-- AES refuses a key for its length, or takes it and keeps nothing. -/
theorem Aes.Cipher.keysOverwrite : BlockCipher.KeysOverwrite fun _ : Aes.Cipher => () := by
  intro direction key
  by_cases length : key.length = 16 ∨ key.length = 24 ∨ key.length = 32
  · have taken : (fun c : Aes.Cipher => BlockCipher.init c direction key) = fun _ =>
        (.ok (), { roundKeys := some (Aes.roundKeys key), direction }) :=
      funext fun _ => if_pos length
    rw [taken]
    exact overwrites_of_total (fun _ => rfl) fun _ => rfl
  · exact overwrites_of_refusal fun _ => ⟨_, if_neg length⟩

/-- The calls of a block cipher. -/
def blockCall {C : Type} [BlockCipher C] :
    C → QueryRequest (Direction × Bytes) Bytes → Draw (Reply C (Option Bytes)) :=
  queryCall (fun c input => BlockCipher.init c input.1 input.2) BlockCipher.process

/-- Modes. -/
theorem modeCall_setAnew {init : σ → Direction → Bytes → Option Bytes → Reply σ Unit}
    {answer : σ → Q → Except Error Bytes} {options : σ → κ}
    (h : ∀ direction key iv, Overwrites id options fun s => init s direction key iv) :
    SetAnew ModeRequest.sets id options (modeCall init answer) := by
  apply setAnew_of_whole
  · rintro (⟨direction, key, iv⟩ | query) setup
    · exact ⟨none, fun s => init s direction key iv, h direction key iv, fun _ => rfl⟩
    · cases setup
  · rintro s (_ | query) use
    · cases use
    · exact Draw.ensures_map (Draw.ensures_pure rfl)

section Modes

variable {C M : Type} {options : C → κ}

/-- A mode that hands its key on to a cipher, and is made anew when the cipher takes it. -/
theorem Overwrites.around {inner : C → Reply C Unit} (h : Overwrites id options inner)
    {cipher : M → C} {set : M → Reply M Unit} {left : M → C → M} {made : C → M}
    (cipher_left : ∀ m c, cipher (left m c) = c) (cipher_made : ∀ c, cipher (made c) = c)
    (handed : ∀ m, set m = match inner (cipher m) with
      | (.error e, c) => (.error e, left m c)
      | (.ok (), c) => (.ok (), made c)) :
    Overwrites id (fun m => options (cipher m)) set where
  kept m := by
    have kept := h.kept (cipher m)
    rw [handed]
    rcases reply : inner (cipher m) with ⟨e | ⟨⟩, c⟩
    · rw [reply] at kept
      exact (congrArg options (cipher_left m c)).trans kept
    · rw [reply] at kept
      exact (congrArg options (cipher_made c)).trans kept
  taken {m m'} same ok := by
    rw [handed] at ok
    rcases reply : inner (cipher m) with ⟨e | ⟨⟩, c⟩
    · rw [reply] at ok
      cases ok
    · have reply' : inner (cipher m') = (.ok (), c) :=
        (h.eq_of_taken same (congrArg Prod.fst reply)).symm.trans reply
      rw [handed, handed, reply, reply']

variable [BlockCipher C] (h : BlockCipher.KeysOverwrite options)
variable (direction : Direction) (key : Bytes) (iv : Option Bytes)
include h

/-- Keys and initial values overwrite key wrap, but for the options of the cipher. -/
theorem KeyWrap.init_overwrites : Overwrites id (fun w : KeyWrap C => options w.cipher) fun w =>
    w.init direction key iv := by
  by_cases size : BlockCipher.blockSize C ≠ 16
  case pos => exact overwrites_of_refusal fun w => ⟨_, if_pos size⟩
  by_cases length : (iv.getD defaultIv).length ≠ 8
  case pos => exact overwrites_of_refusal fun w => ⟨_, (if_neg size).trans (if_pos length)⟩
  exact (h direction key).around (fun _ _ => rfl) (fun _ => rfl) fun w =>
    (if_neg size).trans (if_neg length)

/-- Keys and initial values overwrite ciphertext stealing, but for the options of the cipher. -/
theorem Stealing.init_overwrites : Overwrites id (fun s : Stealing C => options s.cipher) fun s =>
    s.init direction key iv := by
  by_cases length : (iv.getD (Bytes.zeros (BlockCipher.blockSize C))).length ≠
      BlockCipher.blockSize C
  case pos => exact overwrites_of_refusal fun s => ⟨_, if_pos length⟩
  exact (h direction key).around (fun _ _ => rfl) (fun _ => rfl) fun s => if_neg length

end Modes

/-- Block ciphers start anew, and so do the modes over them. -/
def BlockCiphersStartAnew (C : Type) [BlockCipher C] : Prop :=
  (∀ c : C, StartsAnew QueryRequest.sets id blockCall c) ∧
    (∀ w : KeyWrap C,
      StartsAnew ModeRequest.sets id (modeCall KeyWrap.init KeyWrap.answer) w) ∧
    ∀ s : Stealing C, StartsAnew ModeRequest.sets id (modeCall Stealing.init Stealing.process) s

/-- **Block ciphers that keys overwrite** start anew. -/
theorem blockCiphersStartAnew {C : Type} [BlockCipher C] {options : C → κ}
    (h : BlockCipher.KeysOverwrite options) : BlockCiphersStartAnew C :=
  ⟨startsAnew_of_setAnew (queryCall_setAnew options fun input => h input.1 input.2),
    startsAnew_of_setAnew (modeCall_setAnew (KeyWrap.init_overwrites h)),
    startsAnew_of_setAnew (modeCall_setAnew (Stealing.init_overwrites h))⟩

/-! ## All objects -/

/-- **Every object starts anew** with each set-up that it takes, whatever calls came before: ciphers
of both kinds, stacks of any layers over them and PSS signers over either; signers of all schemes
with random or deterministic nonces; the four agreements; the three generators; AES and the modes
over it.  The same holds over any other cipher that keys overwrite. -/
theorem set_up_starts_anew :
    (CiphersStartAnew Rsa.Cipher ∧ CiphersStartAnew ElGamal.Cipher ∧
      ∀ (E S P κ : Type) [AsymmetricCipher E S P] (options : E → κ),
        AsymmetricCipher.KeysOverwrite options → CiphersStartAnew E) ∧
    (SignersStartAnew RandomNonce ∧ ∀ H : Hash, SignersStartAnew (HmacNonce H)) ∧
    ((∀ a, StartsAnew AgreementRequest.sets id
        (agreementCall DiffieHellman.Agreement.init DiffieHellman.Agreement.agree) a) ∧
      (∀ a, StartsAnew DiffieHellman.MtiAgreement.Request.sets id
        DiffieHellman.MtiAgreement.call a) ∧
      ∀ (P : Type) [Curve P],
        (∀ a : Ecdh P, StartsAnew AgreementRequest.sets id (agreementCall Ecdh.init Ecdh.agree) a) ∧
        ∀ a : Ecmqv P, StartsAnew QueryRequest.sets id (queryCall Ecmqv.init Ecmqv.agree) a) ∧
    ((∀ d, StartsAnew QueryRequest.sets id
        (generatorCall Derivation.init Derivation.generate) d) ∧
      (∀ d, StartsAnew QueryRequest.sets id
        (generatorCall DhKeyEncryption.init DhKeyEncryption.generate) d) ∧
      ∀ d, StartsAnew QueryRequest.sets id
        (generatorCall EcdhKeyEncryption.init EcdhKeyEncryption.generate) d) ∧
    BlockCiphersStartAnew Aes.Cipher ∧
      ∀ (C κ : Type) [BlockCipher C] (options : C → κ),
        BlockCipher.KeysOverwrite options → BlockCiphersStartAnew C := by
  refine ⟨⟨?_, ?_, ?_⟩, ⟨?_, ?_⟩, ⟨?_, ?_, fun P _ => ⟨?_, ?_⟩⟩, ⟨?_, ?_, ?_⟩, ?_, ?_⟩
  · exact ciphersStartAnew Rsa.Cipher.keysOverwrite
  · exact ciphersStartAnew ElGamal.Cipher.keysOverwrite
  · exact fun _ _ _ _ _ _ h => ciphersStartAnew h
  · exact signersStartAnew RandomNonce.seeded
  · exact fun H => signersStartAnew (HmacNonce.seeded H)
  · exact startsAnew_of_setAnew (agreementCall_setAnew (fun _ _ => rfl) fun _ _ => ⟨_, rfl⟩)
  · exact startsAnew_of_setAnew DiffieHellman.MtiAgreement.call_setAnew
  · exact startsAnew_of_setAnew (agreementCall_setAnew (fun _ _ => rfl) fun _ _ => ⟨_, rfl⟩)
  · exact startsAnew_of_setAnew (queryCall_setAnew (fun _ => ()) fun _ =>
      overwrites_of_total (fun _ => rfl) fun _ => rfl)
  · refine startsAnew_of_setAnew (generatorCall_setAnew
      (fun d : Derivation => (d.hash, d.start)) (fun _ _ => rfl) ?_)
    rintro input ⟨hash, start, _⟩ ⟨_, _, _⟩ same
    cases same
    rfl
  · refine startsAnew_of_setAnew (generatorCall_setAnew DhKeyEncryption.hash
      (fun _ _ => rfl) ?_)
    rintro input ⟨hash, _⟩ ⟨_, _⟩ same
    cases same
    rfl
  · refine startsAnew_of_setAnew (generatorCall_setAnew EcdhKeyEncryption.hash
      (fun _ _ => rfl) ?_)
    rintro input ⟨hash, _⟩ ⟨_, _⟩ same
    cases same
    rfl
  · exact blockCiphersStartAnew Aes.Cipher.keysOverwrite
  · exact fun _ _ _ _ h => blockCiphersStartAnew h

/-- A signer has a message when it refuses a key that is too small, and gets another one before it
takes its key again. -/
theorem set_up_starts_anew_after_refused_key :
    let signer : Pss Rsa.Cipher :=
      { cipher := {}, content := Pss.byteSum, maskHash := Pss.byteSum, saltLength := 1 }
    let session := transcript Pss.serve (fun _ => 1) 1 signer 0
    let key : Rsa.Key := .ofPrivate Pss.tightKey
    let calls := session [.init .sign key, .use (.update [1]),
      .init .sign (.ofPrivate Rsa.smallKey), .use (.update [2]), .init .sign key,
      .use (.update [3]), .use .sign]
    (calls.take 5).map Served.refused = [false, false, true, false, false] ∧
      (session [.init .sign key, .use (.update [3]), .use .sign]).map (Served.seen id) =
        (calls.drop 4).map (Served.seen id) := by
  intro signer session key calls
  obtain ⟨c₁, c₂, c₃, c₄, c₅, c₆, c₇, served, refused, setup, granted, began⟩ :
      ∃ c₁ c₂ c₃ c₄ c₅ c₆ c₇, calls = [c₁, c₂, c₃, c₄, c₅, c₆, c₇] ∧
        [c₁, c₂, c₃, c₄, c₅].map Served.refused = [false, false, true, false, false] ∧
        c₅.request.sets = true ∧ c₅.granted = true ∧ c₅.start = 0 :=
    ⟨_, _, _, _, _, _, _, congrArg (_ :: _ :: _ :: _ :: _ :: _ :: ·) transcript_singleton,
      by decide +kernel, rfl, by decide +kernel, rfl⟩
  have anew := set_up_starts_anew.1.1.2.2.1 signer (fun _ => 1) 1 0 _ [c₁, c₂, c₃, c₄] c₅ [c₆, c₇]
    served setup granted
  rw [began] at anew
  exact ⟨served ▸ refused, served ▸ anew⟩

end PublicKeyCrypto
