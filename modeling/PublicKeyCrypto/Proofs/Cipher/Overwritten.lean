import PublicKeyCrypto.Proofs.Cipher.Keys
import PublicKeyCrypto.Proofs.Cipher.Stack
import PublicKeyCrypto.Proofs.Pss.Session
import PublicKeyCrypto.Proofs.Session.Restart
import Mathlib

/-!
# Ciphers that keys overwrite

A key that is taken overwrites a cipher.  RSA and ElGamal keep nothing of what they were before.
A layer of PKCS #1 or OAEP keeps the options that it was constructed with, and has its direction and
its role from the last key, so that the property goes up a stack by induction on its layers.  A
signer over a stack keeps its hash functions and lengths.  The message so far is dropped with every
key, and the size of the encoded message comes with it.

So stacks and signers start anew with every key that they take (`ciphersStartAnew`).  A key that is
refused may have overwritten some layers and not the others; the next key that is taken overwrites
them all.

## Main Definitions

* `AsymmetricCipher.KeysOverwrite` — keys overwrite a cipher but for its options
* `CipherStack.initial`, `Pss.initial` — a stack and a signer as they were constructed
* `Pss.serve` — the calls of a signer over a cipher

## Main Results

* `CipherStack.keysOverwrite` — keys overwrite a stack if they do the cipher at its bottom
* `Pss.serve_setAnew` — and they overwrite a signer over it
* `ciphersStartAnew` — all objects that are made of such a cipher
-/

namespace PublicKeyCrypto

variable {E S P κ : Type} [AsymmetricCipher E S P] {options : E → κ}

/-- A draw that is followed by others yields what these yield. -/
theorem Draw.yields_bind {α β : Type} {x : Draw α} {f : α → Draw β} {Q : β → Prop}
    (h : ∀ a, (f a).Yields Q) : (x >>= f).Yields Q :=
  ensures_bind (yields_iff.mpr fun _ _ _ a _ _ => h a)

/-- A key that is taken overwrites all of a cipher but its options. -/
def AsymmetricCipher.KeysOverwrite {E S P : Type} [AsymmetricCipher E S P] (options : E → κ) :
    Prop :=
  ∀ direction key, Overwrites id options fun e : E => AsymmetricCipher.init e direction key

/-- RSA takes every key, and keeps nothing. -/
theorem Rsa.Cipher.keysOverwrite : AsymmetricCipher.KeysOverwrite fun _ : Rsa.Cipher => () :=
  fun _ _ => overwrites_of_total (fun _ => rfl) fun _ => rfl

/-- ElGamal refuses a key, or takes it and keeps nothing. -/
theorem ElGamal.Cipher.keysOverwrite :
    AsymmetricCipher.KeysOverwrite fun _ : ElGamal.Cipher => () := by
  intro direction key
  cases key <;> cases direction
  · exact overwrites_of_refusal fun _ => ⟨_, rfl⟩
  · exact overwrites_of_total (fun _ => rfl) fun _ => rfl
  · exact overwrites_of_total (fun _ => rfl) fun _ => rfl
  · exact overwrites_of_refusal fun _ => ⟨_, rfl⟩

/-- Ciphers that keys overwrite are set anew. -/
theorem cipherCall_setAnew (h : AsymmetricCipher.KeysOverwrite options) :
    SetAnew CipherRequest.sets id options (cipherCall (E := E)) := by
  apply setAnew_of_whole
  · rintro (⟨direction, key⟩ | input) setup
    · exact ⟨none, fun e => AsymmetricCipher.init e direction key, h direction key, fun _ => rfl⟩
    · cases setup
  · rintro e (_ | input) use
    · cases use
    · exact (cipherCall_process e input).mono fun _ => congrArg options

/-! ## Layers -/

namespace Layer

/-- The layer as it was constructed. -/
def initial : Layer → Layer
  | pkcs1 l => pkcs1 { l with direction := .decrypt, withPrivateKey := false }
  | oaep l => oaep { l with direction := .decrypt }

theorem initial_beforeInit (top : Layer) (direction : Direction) (isPrivate : Bool) :
    (top.beforeInit direction isPrivate).initial = top.initial := by
  cases top <;> rfl

theorem initial_afterInit (top : Layer) (direction : Direction) :
    (top.afterInit direction).initial = top.initial := by
  cases top <;> rfl

/-- Layers that were constructed alike are alike once they have been told of the same key. -/
theorem told_eq {top top' : Layer} (same : top.initial = top'.initial) (direction : Direction)
    (isPrivate : Bool) : (top.beforeInit direction isPrivate).afterInit direction =
      (top'.beforeInit direction isPrivate).afterInit direction := by
  rcases top with ⟨⟨⟩⟩ | ⟨⟨⟩⟩ <;> rcases top' with ⟨⟨⟩⟩ | ⟨⟨⟩⟩ <;> cases same <;> rfl

end Layer

namespace CipherStack

/-- The stack as it was constructed, over the options of the cipher at its bottom. -/
def initial (options : E → κ) : CipherStack E → CipherStack κ
  | base e => base (options e)
  | layer top below => layer top.initial (below.initial options)

/-- A set-up changes no option.  The induction is on the layers. -/
theorem initial_init (h : AsymmetricCipher.KeysOverwrite options) (direction : Direction)
    (key : KeyHalf S P) (stack : CipherStack E) :
    (stack.init direction key).2.initial options = stack.initial options := by
  induction stack with
  | base e => exact congrArg base ((h direction key).kept e)
  | layer top below ih =>
      rw [init]
      rcases reply : below.init direction key with ⟨e | ⟨⟩, below'⟩
      · rw [reply] at ih
        exact congrArg₂ layer (top.initial_beforeInit direction key.isPrivate) ih
      · rw [reply] at ih
        exact congrArg₂ layer ((Layer.initial_afterInit _ direction).trans
          (top.initial_beforeInit direction key.isPrivate)) ih

/-- Stacks that were constructed alike take a key in the same way.  The induction is on the
layers. -/
theorem init_eq (h : AsymmetricCipher.KeysOverwrite options) {direction : Direction}
    {key : KeyHalf S P} {stack stack' : CipherStack E}
    (same : stack.initial options = stack'.initial options)
    (taken : (stack.init direction key).1 = .ok ()) :
    stack.init direction key = stack'.init direction key := by
  induction stack generalizing stack' with
  | base e =>
      cases stack' with
      | base e' =>
          have replies := (h direction key).eq_of_taken (base.inj same) taken
          exact congrArg (fun reply => (reply.1, base reply.2)) replies
      | layer top' below' => cases same
  | layer top below ih =>
      cases stack' with
      | base e' => cases same
      | layer top' below' =>
          obtain ⟨tops, belows⟩ := layer.inj same
          obtain ⟨inner, -, -⟩ := init_layer_eq_ok taken
          have replies := ih belows inner
          rcases reply : below.init direction key with ⟨e | ⟨⟩, b⟩
          · rw [reply] at inner
            cases inner
          · rw [init, init, ← replies, reply]
            dsimp only
            rw [Layer.told_eq tops]

/-- **Stacks.**  Keys overwrite a stack but for the options of its layers, if they overwrite the
cipher at its bottom. -/
theorem keysOverwrite (h : AsymmetricCipher.KeysOverwrite options) :
    AsymmetricCipher.KeysOverwrite (CipherStack.initial options) := fun direction key =>
  ⟨initial_init h direction key, fun same taken => init_eq h same taken⟩

end CipherStack

/-! ## Signers over a cipher -/

namespace Pss

/-- A call of a signer over a cipher. -/
inductive SessionRequest (S P : Type)
  | init (task : Task) (key : KeyHalf S P)
  | use (request : Request)

/-- Whether a call sets the signer up. -/
def SessionRequest.sets {S P : Type} : SessionRequest S P → Bool
  | init .. => true
  | use _ => false

/-- What a call of a signer over a cipher gives. -/
inductive Answer
  | nothing
  | signature (bytes : Bytes)
  | valid (verdict : Bool)

/-- What a signer over a cipher does with a call. -/
def serve (s : Pss E) : SessionRequest S P → Draw (Reply (Pss E) Answer)
  | .init task key => Reply.map (fun _ => .nothing) <$> pure (s.init task key)
  | .use (.update data) => pure (.ok .nothing, s.update data)
  | .use .sign => Reply.map .signature <$> s.sign
  | .use (.verify signature) => Reply.map .valid <$> s.verify signature

/-- The signer as it was constructed, over the options of its cipher. -/
def initial (options : E → κ) (s : Pss E) : Pss κ where
  cipher := options s.cipher
  content := s.content
  maskHash := s.maskHash
  saltLength := s.saltLength
  trailer := s.trailer

theorem initial_init (h : AsymmetricCipher.KeysOverwrite options) (task : Task)
    (key : KeyHalf S P) (s : Pss E) : (s.init task key).2.initial options = s.initial options := by
  have kept : options (AsymmetricCipher.init s.cipher task.direction key).2 = options s.cipher :=
    (h task.direction key).kept s.cipher
  have same : ∀ t : Pss E, t.content = s.content → t.maskHash = s.maskHash →
      t.saltLength = s.saltLength → t.trailer = s.trailer →
      t.cipher = (AsymmetricCipher.init s.cipher task.direction key).2 →
      t.initial options = s.initial options := by
    intro t content maskHash saltLength trailer cipher
    rw [initial, initial, content, maskHash, saltLength, trailer, cipher, kept]
  rw [init]
  rcases reply : AsymmetricCipher.init s.cipher task.direction key with ⟨e | ⟨⟩, cipher⟩
  · exact same _ rfl rfl rfl rfl (congrArg Prod.snd reply.symm)
  · dsimp only
    split
    · exact same _ rfl rfl rfl rfl (congrArg Prod.snd reply.symm)
    · exact same _ rfl rfl rfl rfl (congrArg Prod.snd reply.symm)

/-- Signers that were constructed alike take a key in the same way. -/
theorem init_eq (h : AsymmetricCipher.KeysOverwrite options) {s t : Pss E}
    (same : s.initial options = t.initial options) {task : Task} {key : KeyHalf S P}
    (taken : (s.init task key).1 = .ok ()) : s.init task key = t.init task key := by
  rcases reply : s.init task key with ⟨e | ⟨⟩, s'⟩
  · rw [reply] at taken
    cases taken
  · obtain ⟨cipher, set, left, roomy⟩ := init_eq_ok_iff.mp reply
    have replies := (h task.direction key).eq_of_taken (congrArg Pss.cipher same)
      (congrArg Prod.fst set)
    refine (init_eq_ok_iff.mpr ⟨cipher, replies.symm.trans set, ?_, roomy⟩).symm
    simp only [initial, mk.injEq] at same
    obtain ⟨-, content, maskHash, saltLength, trailer, -⟩ := same
    rw [left, content, maskHash, saltLength, trailer]

/-- **Signers.**  Keys overwrite a signer but for what it was constructed with. -/
theorem serve_setAnew (h : AsymmetricCipher.KeysOverwrite options) :
    SetAnew SessionRequest.sets id (Pss.initial options) (serve (E := E)) := by
  apply setAnew_of_whole
  · rintro (⟨task, key⟩ | request) setup
    · exact ⟨.nothing, fun s => s.init task key,
        ⟨initial_init h task key, fun same taken => init_eq h same taken⟩, fun _ => rfl⟩
    · cases setup
  · rintro s (_ | _ | _ | signature) use
    · cases use
    · exact Draw.ensures_pure rfl
    · refine Draw.ensures_map ?_
      unfold sign
      split
      · exact Draw.ensures_pure rfl
      · exact Draw.yields_bind fun _ => Draw.yields_bind fun _ => Draw.yields_bind fun _ =>
          Draw.ensures_pure rfl
    · refine Draw.ensures_map ?_
      unfold verify
      split
      · exact Draw.ensures_pure rfl
      · refine Draw.yields_bind fun answer => ?_
        rcases answer with e | encoded
        · cases e <;> exact Draw.ensures_pure rfl
        · exact Draw.yields_bind fun _ => Draw.ensures_pure rfl

end Pss

/-! ## All objects that are made of a cipher -/

/-- Ciphers start anew, alone and under any layers, and so do the signers over them. -/
def CiphersStartAnew (E : Type) {S P : Type} [AsymmetricCipher E S P] : Prop :=
  (∀ e : E, StartsAnew CipherRequest.sets id cipherCall e) ∧
    (∀ stack : CipherStack E, StartsAnew CipherRequest.sets id cipherCall stack) ∧
    (∀ s : Pss E, StartsAnew Pss.SessionRequest.sets id Pss.serve s) ∧
    ∀ s : Pss (CipherStack E), StartsAnew Pss.SessionRequest.sets id Pss.serve s

/-- **Ciphers that keys overwrite** start anew. -/
theorem ciphersStartAnew (h : AsymmetricCipher.KeysOverwrite options) : CiphersStartAnew E :=
  ⟨startsAnew_of_setAnew (cipherCall_setAnew h),
    startsAnew_of_setAnew (cipherCall_setAnew (CipherStack.keysOverwrite h)),
    startsAnew_of_setAnew (Pss.serve_setAnew h),
    startsAnew_of_setAnew (Pss.serve_setAnew (CipherStack.keysOverwrite h))⟩

end PublicKeyCrypto
