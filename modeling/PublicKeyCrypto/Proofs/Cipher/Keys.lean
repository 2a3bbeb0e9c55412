import PublicKeyCrypto.Cipher.Stack
import PublicKeyCrypto.Proofs.Rsa.Operation
import PublicKeyCrypto.Proofs.Session.Refusal
import Mathlib

/-!
# Ciphers and their keys

What the encodings need to know of the ciphers under them: a key that is refused changes nothing, a
key that is taken sets the sizes, and whatever bytes a cipher is then given, it breaks no
precondition.  The last needs a key that its constructor has accepted.  It does not need the
components of the key to fit together, since they are checked to be in their ranges and nothing
else is computed with them.

There is one exception.  A private key of RSA with the modulus one is accepted, and there is no
blinding factor for it.

## Main Definitions

* `AsymmetricCipher.KeepsOnRefusal` — a refused key leaves the cipher as it was
* `Halt.InBlinding` — a blinding factor could not be drawn
* `AsymmetricCipher.SoundOn` — what holds of a cipher with such keys as are accepted
* `Rsa.Key.Accepted`, `ElGamal.Key.Accepted` — keys that their constructors accept

## Main Results

* `Rsa.Cipher.soundOn_accepted`, `ElGamal.Cipher.soundOn_accepted` — the two ciphers
-/

namespace PublicKeyCrypto

variable {E S P : Type} [AsymmetricCipher E S P] {e e' : E} {direction : Direction}
variable {key : KeyHalf S P}

/-- A key that the cipher refuses leaves it as it was. -/
def AsymmetricCipher.KeepsOnRefusal (E : Type) {S P : Type} [AsymmetricCipher E S P] : Prop :=
  ∀ (e : E) (direction : Direction) (key : KeyHalf S P) (refusal : Error),
    (AsymmetricCipher.init e direction key).1 = .error refusal →
      (AsymmetricCipher.init e direction key).2 = e

theorem AsymmetricCipher.KeepsOnRefusal.eq_of_refused (keeps : KeepsOnRefusal E) {refusal : Error}
    (h : AsymmetricCipher.init e direction key = (.error refusal, e')) : e' = e := by
  have kept := keeps e direction key refusal (congrArg Prod.fst h)
  rwa [h] at kept

/-- No factor was found in time, or there is none, since the modulus leaves nothing to draw. -/
def Halt.InBlinding (modulus : ℕ) (halt : Halt) : Prop :=
  halt = .exhausted ∨ halt = .fault .emptyRange ∧ modulus = 1

/-- What holds of a cipher and its keys, for the keys that are accepted and their moduli. -/
structure AsymmetricCipher.SoundOn (E : Type) {S P : Type} [AsymmetricCipher E S P]
    (accepted : KeyHalf S P → Prop) (modulus : KeyHalf S P → ℕ) : Prop where
  keeps : KeepsOnRefusal E
  /-- Whether a key is too small is for an encoding to say. -/
  refusal_ne : ∀ (e : E) direction key,
    (AsymmetricCipher.init e direction key).1 ≠ .error .keyTooSmall
  keySize_eq : ∀ {e e' : E} {direction key}, AsymmetricCipher.init e direction key = (.ok (), e') →
    AsymmetricCipher.keySize e' = bitLength (modulus key)
  blockSize_eq : ∀ {e e' : E} {direction key},
    AsymmetricCipher.init e direction key = (.ok (), e') →
      (CipherView.ofCipher e').blockSize direction = (bitLength (modulus key) - 1) / 8
  process_ensures : ∀ {e e' : E} {direction key}, accepted key →
    AsymmetricCipher.init e direction key = (.ok (), e') → ∀ input,
      (AsymmetricCipher.process e' input).run.Ensures (Halt.InBlinding (modulus key)) fun _ => True

/-- With a modulus of more than one bit no precondition is broken. -/
theorem AsymmetricCipher.SoundOn.process_always {accepted : KeyHalf S P → Prop}
    {modulus : KeyHalf S P → ℕ} (sound : SoundOn E accepted modulus) (ok : accepted key)
    (taken : AsymmetricCipher.init e direction key = (.ok (), e'))
    (large : 1 < bitLength (modulus key)) (input : Bytes) :
    (AsymmetricCipher.process e' input).run.Always fun _ => True := by
  refine (sound.process_ensures ok taken input).mono_halts ?_
  rintro halt (exhausted | ⟨-, one⟩)
  · exact exhausted
  · rw [one] at large
    exact absurd large (by decide)

/-! ## Calls -/

/-- Whether a call sets the cipher up. -/
def CipherRequest.sets : CipherRequest S P → Bool
  | init .. => true
  | process _ => false

/-- A call that sets a cipher up gives what its set-up gives, and leaves that. -/
theorem cipherCall_init {answer : Except Error Unit}
    (h : AsymmetricCipher.init e direction key = (answer, e')) :
    cipherCall e (.init direction key) = pure ((fun _ => none) <$> answer, e') := by
  rw [cipherCall, h]
  rfl

/-- Any other call gives what the cipher makes of the block. -/
theorem run_cipherCall_process {input : Bytes} {answer : Except Error Bytes} {tape : Tape}
    {patience start stop : ℕ}
    (h : (AsymmetricCipher.process e input).run.run tape patience start = .ok (answer, stop)) :
    (cipherCall e (.process input : CipherRequest S P)).run tape patience start =
      .ok ((some <$> answer, e), stop) := by
  rw [cipherCall, Draw.run_map, Draw.run_map, h]
  rfl

/-- It leaves the cipher as it is. -/
theorem cipherCall_process (e : E) (input : Bytes) :
    (cipherCall e (.process input : CipherRequest S P)).Yields fun reply => reply.2 = e :=
  Draw.ensures_map (Draw.ensures_map (Draw.yields_iff.mpr fun _ _ _ _ _ _ => rfl))

section Served

variable {c : Served E (CipherRequest S P) (Option Bytes)} {tape : Tape} {patience stop : ℕ}
variable {answer : Except Error (Option Bytes)} {s : E}

/-- What a set-up that was served answered and left. -/
theorem served_init {answer' : Except Error Unit} (genuine : c.Genuine cipherCall tape patience)
    (found : c.before = e) (request : c.request = .init direction key)
    (reply : AsymmetricCipher.init e direction key = (answer', e'))
    (outcome : c.outcome = .ok ((answer, s), stop)) :
    answer = (fun _ => none) <$> answer' ∧ s = e' := by
  have ran : c.outcome = (cipherCall c.before c.request).run tape patience c.start := genuine
  rw [found, request, cipherCall_init reply, outcome] at ran
  cases ran
  exact ⟨rfl, rfl⟩

/-- What any other call that was served left. -/
theorem served_process {input : Bytes} (genuine : c.Genuine cipherCall tape patience)
    (request : c.request = .process input) (outcome : c.outcome = .ok ((answer, s), stop)) :
    s = c.before := by
  have ran : c.outcome = (cipherCall c.before c.request).run tape patience c.start := genuine
  rw [request, outcome] at ran
  exact (cipherCall_process c.before input).value ran.symm

/-- A call with a block that the cipher can only refuse is refused, or halts as the cipher does. -/
theorem served_refusal {input : Bytes} {halts : Halt → Prop}
    (genuine : c.Genuine cipherCall tape patience) (found : c.before = e)
    (request : c.request = .process input)
    (h : (AsymmetricCipher.process e input).run.Ensures halts fun answer =>
      ∃ refusal, answer = .error refusal) :
    c.refused = true ∨ ∃ halt, c.outcome = .error halt ∧ halts halt := by
  have ran : c.outcome = (cipherCall c.before c.request).run tape patience c.start := genuine
  rw [found, request] at ran
  have call : (cipherCall e (.process input : CipherRequest S P)).Ensures halts fun reply =>
      ∃ refusal, reply = (.error refusal, e) := by
    refine Draw.ensures_map (Draw.ensures_map (h.mono ?_))
    rintro _ ⟨refusal, rfl⟩
    exact ⟨refusal, rfl⟩
  rcases outcome : c.outcome with halt | ⟨reply, stop⟩
  · exact .inr ⟨halt, rfl, call.halt (ran.symm.trans outcome)⟩
  · obtain ⟨refusal, rfl⟩ := call.value (ran.symm.trans outcome)
    exact .inl (Served.refused_iff.mpr ⟨refusal, e, stop, outcome⟩)

end Served

/-! ## One layer -/

namespace CipherStack

variable {top : Layer}

/-- If the cipher refuses the key, the layer has been told of it all the same. -/
theorem init_layer_of_refused {refusal : Error}
    (h : AsymmetricCipher.init e direction key = (.error refusal, e')) :
    (layer top (base e)).init direction key =
      (.error refusal, layer (top.beforeInit direction key.isPrivate) (base e')) := by
  simp only [init, h]

/-- If the cipher takes the key, so does the layer, also if it finds the key too small. -/
theorem init_layer_of_taken (h : AsymmetricCipher.init e direction key = (.ok (), e')) :
    (layer top (base e)).init direction key =
      (if (CipherView.ofCipher e').blockSize direction < top.leastBlock then .error .keyTooSmall
        else .ok (),
        layer ((top.beforeInit direction key.isPrivate).afterInit direction) (base e')) := by
  cases top <;> simp only [init, h] <;> rfl

end CipherStack

/-! ## RSA -/

namespace Rsa

/-- The keys that their constructors accept. -/
def Key.Accepted : Key → Prop
  | .ofPrivate k => k.validate = .ok k
  | .ofPublic k => PublicKey.make k.modulus k.exponent = .ok k

namespace PrivateKey

/-- The factors of an accepted key are not zero. -/
theorem pos_of_validate {k : PrivateKey} (accepted : k.validate = .ok k) :
    0 < k.p ∧ 0 < k.modulus := by
  unfold validate at accepted
  split at accepted
  · cases accepted
  · next factors =>
    split at accepted
    · cases accepted
    · next ranges =>
      have hp : 0 < k.p := by omega
      have hq : 0 < k.q := by omega
      refine ⟨hp, ?_⟩
      rw [← not_not.mp factors]
      exact Nat.mul_pos hp hq

/-- The powers modulo the factors are put together without a fault, whatever the components. -/
theorem exists_crtPower {k : PrivateKey} (positive : 0 < k.p) (c : ℕ) :
    ∃ power, k.crtPower c = .ok power := by
  have small : powMod c k.dq k.q % k.p ≤ k.p := (Nat.mod_lt _ positive).le
  unfold crtPower
  dsimp only
  split
  · next ordered =>
    rw [difference_of_le ordered]
    exact ⟨_, rfl⟩
  · rw [difference_of_le small]
    exact ⟨_, rfl⟩

/-- The private operation breaks no precondition but that of the blinding. -/
theorem blindedPower_ensures {k : PrivateKey} (accepted : k.validate = .ok k) (c : ℕ) :
    (k.blindedPower c).run.Ensures (Halt.InBlinding k.modulus) fun _ => True := by
  obtain ⟨positive, modulus⟩ := pos_of_validate accepted
  have blinded : (blinding k.modulus).Ensures (Halt.InBlinding k.modulus) fun _ => True := by
    by_cases one : k.modulus = 1
    · refine Draw.ensures_firstAccepted (.inl rfl) ?_
      rw [one, Draw.positiveBelow, if_pos le_rfl]
      exact fun _ _ _ => .inr ⟨rfl, rfl⟩
    · exact (blinding_always (by omega)).mono_halts fun _ exhausted => .inl exhausted
  refine Call.ensures_lift_bind (blinded.mono ?_)
  rintro ⟨r, inverse⟩ -
  obtain ⟨power, computed⟩ :=
    exists_crtPower positive (c * powMod r k.publicExponent k.modulus % k.modulus)
  dsimp only
  rw [computed]
  refine Call.ensures_bind (Draw.ensures_pure ?_)
  dsimp only
  split
  · exact Draw.ensures_pure trivial
  · exact Draw.ensures_pure trivial

end PrivateKey

namespace Cipher

/-- **RSA with accepted keys.**  The components of a private key may be anything in their ranges. -/
theorem soundOn_accepted : AsymmetricCipher.SoundOn Cipher Key.Accepted Key.modulus where
  keeps _ _ _ _ refused := by cases refused
  refusal_ne _ _ _ refused := by cases refused
  keySize_eq taken := by
    cases taken
    rfl
  blockSize_eq {_ _ direction _} taken := by
    cases taken
    cases direction <;> rfl
  process_ensures := by
    rintro _ _ direction key accepted taken input
    cases taken
    refine Call.ensures_bind (Draw.ensures_pure ?_)
    cases Cipher.readInput _ _ input with
    | error e => trivial
    | ok m =>
        cases key with
        | ofPublic k => exact Draw.ensures_pure trivial
        | ofPrivate k =>
            refine Call.ensures_bind ((PrivateKey.blindedPower_ensures accepted m).mono ?_)
            rintro (e | power) -
            · trivial
            · exact Draw.ensures_pure trivial

/-- Under PKCS #1 every key is taken, and those with blocks that are too short are refused. -/
theorem init_pkcs1 (l : Pkcs1) (e : Cipher) (direction : Direction) (key : Key) :
    (CipherStack.layer (.pkcs1 l) (.base e)).init direction key =
      (if (bitLength (Key.modulus key) - 1) / 8 < Pkcs1.headerLength then .error .keyTooSmall
        else .ok (),
        .layer (.pkcs1 { l with direction, withPrivateKey := key.isPrivate })
          (.base (keyed direction key))) := by
  have taken : AsymmetricCipher.init e direction key = (.ok (), keyed direction key) := rfl
  rw [CipherStack.init_layer_of_taken taken]
  cases direction <;> rfl

variable {l : Pkcs1} {e : Cipher} {direction : Direction} {key : Key}

/-- The keys under PKCS #1 that are not refused. -/
theorem init_pkcs1_eq_ok_iff :
    ((CipherStack.layer (.pkcs1 l) (.base e)).init direction key).1 = .ok () ↔
      Pkcs1.headerLength ≤ (bitLength (Key.modulus key) - 1) / 8 := by
  rw [init_pkcs1]
  dsimp only
  split
  · next short => exact iff_of_false (fun taken => by cases taken) (not_le.mpr short)
  · next room => exact iff_of_true rfl (not_lt.mp room)

/-- What PKCS #1 does after a key, refused or not. -/
theorem process_init_pkcs1 (input : Bytes) :
    AsymmetricCipher.process ((CipherStack.layer (.pkcs1 l) (.base e)).init direction key).2 input =
      Pkcs1.process { l with direction, withPrivateKey := key.isPrivate }
        (.ofCipher (keyed direction key)) input := by
  rw [init_pkcs1]
  rfl

end Cipher

end Rsa

/-! ## ElGamal -/

namespace ElGamal

/-- The keys that their constructors accept. -/
def Key.Accepted : Key → Prop
  | .ofPrivate k => PrivateKey.make k.x k.group = .ok k
  | .ofPublic k => PublicKey.make k.y k.group = .ok k

/-- The modulus of a key. -/
def Key.modulus : Key → ℕ
  | .ofPrivate k => k.group.p
  | .ofPublic k => k.group.p

/-- The exponent of an accepted private key is below the modulus. -/
theorem PrivateKey.le_of_make {k : PrivateKey} (accepted : make k.x k.group = .ok k) :
    k.x ≤ k.group.p - 1 := by
  have range := (make_eq_ok_iff.mp accepted).1
  omega

namespace Cipher

/-- A cipher that takes a key has this key, and the direction that came with it. -/
theorem of_init_eq_ok {e e' : Cipher} {direction : Direction} {key : Key}
    (taken : e.init direction key = (.ok (), e')) :
    e'.key = some key ∧ e'.direction = direction := by
  cases key <;> cases direction <;> cases taken <;> exact ⟨rfl, rfl⟩

/-- Encryption breaks no precondition. -/
theorem encryptBlock_always (e : Cipher) (k : PublicKey) (input : Bytes) :
    (e.encryptBlock k input).run.Always fun _ => True := by
  unfold encryptBlock
  dsimp only
  split
  · exact Draw.ensures_pure trivial
  · split
    · exact Draw.ensures_pure trivial
    · refine Call.ensures_lift_bind ((Draw.positiveBelow_always k.group.two_le_pred).mono ?_)
      rintro exponent -
      refine Call.ensures_bind (Draw.ensures_pure ?_)
      cases fixedBytes (k.encrypt input.value exponent).1 (e.outputSize / 2) with
      | error refusal => trivial
      | ok gamma =>
          refine Call.ensures_bind (Draw.ensures_pure ?_)
          cases fixedBytes (k.encrypt input.value exponent).2 (e.outputSize / 2) with
          | error refusal => trivial
          | ok phi => exact Draw.ensures_pure trivial

/-- Decryption breaks no precondition, since the exponent is in its range. -/
theorem decryptBlock_always (e : Cipher) {k : PrivateKey} (range : k.x ≤ k.group.p - 1)
    (input : Bytes) : (e.decryptBlock k input).run.Always fun _ => True := by
  unfold decryptBlock
  dsimp only
  split
  · exact Draw.ensures_pure trivial
  · split
    · exact Draw.ensures_pure trivial
    · rw [PrivateKey.decrypt, difference_of_le range]
      exact Draw.ensures_pure trivial

/-- **ElGamal with accepted keys.**  The modulus need not be prime. -/
theorem soundOn_accepted : AsymmetricCipher.SoundOn Cipher Key.Accepted Key.modulus where
  keeps e direction key refusal refused := by
    rcases init_cases e direction key with ⟨_, kept⟩ | ⟨_, taken, -⟩
    · exact congrArg Prod.snd kept
    · exact absurd (refused.symm.trans (congrArg Prod.fst taken)) nofun
  refusal_ne e direction key refused := by
    cases key <;> cases direction <;> cases refused
  keySize_eq {_ _ direction key} taken := by
    cases key <;> cases direction <;> cases taken <;> rfl
  blockSize_eq {_ _ direction key} taken := by
    cases key <;> cases direction <;> cases taken <;> rfl
  process_ensures := by
    rintro _ e' direction key accepted taken input
    refine Draw.Ensures.mono_halts ?_ fun _ exhausted => .inl exhausted
    have set : e'.key = some key := (of_init_eq_ok taken).1
    show (e'.process input).run.Always _
    rw [process, set]
    cases key with
    | ofPublic k => exact encryptBlock_always e' k input
    | ofPrivate k => exact decryptBlock_always e' (PrivateKey.le_of_make accepted) input

end Cipher

end ElGamal

end PublicKeyCrypto
