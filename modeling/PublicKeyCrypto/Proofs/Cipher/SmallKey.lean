import PublicKeyCrypto.Hash.Sha1
import PublicKeyCrypto.Proofs.Cipher.Keys
import PublicKeyCrypto.Proofs.Cipher.Oaep
import PublicKeyCrypto.Proofs.Session.Transcript
import Mathlib

/-!
# OAEP with a key that is too small

OAEP finds out that a key is too small after the cipher has taken it, so that the object then has
the key that it rejected.  A decoder has its own check and refuses every block.  An encoder has
none, and relies on the announced input size: that is zero, which a message of at least one byte
exceeds.  The empty message gets through.

What becomes of it depends on the block that the cipher offers, which is at most as long as the two
digests.  If it is shorter there is no place for the label digest, and the encoder breaks a
precondition.  If it is as long as both, the label digest takes the place of the byte in front of
the message, and a block without that byte is transformed with the rejected key.

## Main Definitions

* `Oaep.Undersized` — what an encoding does over blocks that are too short
* `Oaep.Rejected` — a call found a key too small
* `Oaep.AfterSmallKey` — what an object does from a rejected key on

## Main Results

* `after_small_key` — over RSA and ElGamal, with any hash functions and in any session
* `small_key_not_refused` — an empty message is encrypted with a key that was rejected
-/

namespace PublicKeyCrypto

namespace Oaep

/-! ## Blocks that are too short -/

/-- What an encoding does over blocks that are too short for it, if the cipher halts for these
reasons only. -/
structure Undersized (l : Oaep) (below : CipherView) (halts : Halt → Prop) : Prop where
  decrypting : l.direction = .decrypt → ∀ input,
    (l.process below input).run.Ensures halts fun answer => ∃ e, answer = .error e
  message : l.direction = .encrypt → ∀ input, input ≠ [] →
    (l.process below input).run = pure (.error (.dataLength .oaepInput))
  /-- There is no place for the label digest, or for the byte in front of the message. -/
  empty : l.direction = .encrypt → below.inputSize < 2 * l.content.size →
    (l.process below []).run =
      Draw.fail (if below.inputSize = 0 then .underflow else .outOfBounds)
  /-- The label digest takes the place of the byte in front of the message. -/
  tight : l.direction = .encrypt → below.inputSize = 2 * l.content.size →
    (l.process below []).run = Draw.bytes l.content.size >>= fun seed =>
      (below.process (l.maskFrame (Bytes.zeros l.content.size ++ l.labelDigest) seed)).run

variable {l : Oaep} {below : CipherView} {halts : Halt → Prop}

/-- A block without a message, before the label digest is written. -/
theorem frame_nil {len : ℕ} (positive : 1 ≤ len) :
    l.frame len [] =
      Bytes.write (Bytes.zeros (len - 1) ++ [0x01]) l.content.size l.labelDigest := by
  have unchanged := write_zeros len [] []
  have marked := write_zeros (len - 1) [] [0x01]
  rw [List.length_nil, Nat.add_zero] at unchanged
  rw [List.length_singleton, Nat.sub_add_cancel positive] at marked
  simp only [List.append_nil] at unchanged marked
  rw [frame, List.length_nil, difference_of_le (Nat.zero_le len), Nat.zero_add,
    difference_of_le positive]
  simp only [bind, Except.bind, Nat.sub_zero]
  rw [unchanged]
  dsimp only
  rw [marked]

/-- A block in which there is no place for the label digest. -/
theorem frame_nil_of_lt {len : ℕ} (short : len < 2 * l.content.size) :
    l.frame len [] = .error (if len = 0 then .underflow else .outOfBounds) := by
  by_cases none : len = 0
  · subst none
    rfl
  · rw [if_neg none, frame_nil (by omega), Bytes.write, if_neg]
    rw [length_labelDigest, List.length_append, Bytes.length_zeros, List.length_singleton]
    omega

/-- A block that the label digest fills up to its end. -/
theorem frame_nil_of_eq :
    l.frame (2 * l.content.size) [] = .ok (Bytes.zeros l.content.size ++ l.labelDigest) := by
  have positive := l.content.size_pos
  have split : Bytes.zeros (2 * l.content.size - 1) ++ [0x01] =
      Bytes.zeros l.content.size ++ (Bytes.zeros (l.content.size - 1) ++ [0x01]) := by
    rw [← List.append_assoc, Bytes.zeros, Bytes.zeros, Bytes.zeros,
      List.replicate_append_replicate]
    congr 2
    omega
  have written := write_append (Bytes.zeros l.content.size) []
    (show (Bytes.zeros (l.content.size - 1) ++ [0x01]).length = l.labelDigest.length by
      rw [length_labelDigest, List.length_append, Bytes.length_zeros, List.length_singleton]
      omega)
  simp only [Bytes.length_zeros, List.append_nil] at written
  rw [frame_nil (by omega), split, written]

/-- **Blocks that are too short.** -/
theorem undersized_of_lt (short : below.blockSize l.direction < l.overhead)
    (answers : ∀ input, (below.process input).run.Ensures halts fun _ => True) :
    l.Undersized below halts where
  decrypting decrypt input := by
    rw [process, decrypt]
    refine Call.ensures_after ((answers input).mono ?_)
    rintro (e | decrypted) -
    · exact ⟨e, rfl⟩
    · refine ⟨.error .invalidCipherText, ?_, _, rfl⟩
      rw [unpad, if_pos short]
  message encrypt input nonempty := by
    rw [process, encrypt]
    refine l.run_encode_of_lt ?_
    rw [encrypt] at short
    rw [inputSize, encrypt]
    have := List.length_pos_iff.mpr nonempty
    replace short : below.inputSize < l.overhead := short
    dsimp only
    omega
  empty encrypt shorter := by
    rw [process, encrypt]
    dsimp only
    rw [encode, if_neg (by simp), encrypt]
    show ExceptT.run (Call.checked (l.frame below.inputSize []) >>= _) = _
    rw [frame_nil_of_lt shorter]
    rfl
  tight encrypt equal := by
    rw [process, encrypt]
    dsimp only
    rw [encode, if_neg (by simp), encrypt]
    show ExceptT.run (Call.checked (l.frame below.inputSize []) >>= _) = _
    rw [equal, frame_nil_of_eq]
    rfl

/-- Blocks that are decrypted are refused, and so are messages of at least one byte. -/
theorem Undersized.process_ensures (undersized : l.Undersized below halts) {input : Bytes}
    (refuses : l.direction = .decrypt ∨ input ≠ []) :
    (l.process below input).run.Ensures halts fun answer => ∃ e, answer = .error e := by
  cases direction : l.direction with
  | decrypt => exact undersized.decrypting direction input
  | encrypt =>
      rcases refuses with decrypt | nonempty
      · cases direction.symm.trans decrypt
      · rw [undersized.message direction input nonempty]
        exact Draw.ensures_pure ⟨_, rfl⟩

/-! ## Sessions -/

section Sessions

variable {E S P : Type} {direction : Direction} {key : KeyHalf S P}
variable {calls : List (Served (CipherStack E) (CipherRequest S P) (Option Bytes))}
variable {c : Served (CipherStack E) (CipherRequest S P) (Option Bytes)}

/-- A call of the list found the key too small. -/
def Rejected (calls : List (Served (CipherStack E) (CipherRequest S P) (Option Bytes)))
    (direction : Direction) (key : KeyHalf S P) : Prop :=
  ∃ d ∈ calls, d.request = .init direction key ∧
    ∃ s stop, d.outcome = .ok ((.error .keyTooSmall, s), stop)

theorem Rejected.concat (h : Rejected calls direction key) :
    Rejected (calls ++ [c]) direction key := by
  obtain ⟨d, member, rejected⟩ := h
  exact ⟨d, List.mem_append_left _ member, rejected⟩

variable [AsymmetricCipher E S P] {accepted : KeyHalf S P → Prop} {modulus : KeyHalf S P → ℕ}
variable {tape : Tape} {patience stop : ℕ} {answer : Except Error (Option Bytes)}
variable {e : E} {s : CipherStack E}

/-- **What a set-up does.**  If the cipher refuses the key the layer stays, and otherwise it is in
the new direction, also if it finds the key too small. -/
theorem init_cases (l : Oaep) (e : E) (direction : Direction) (key : KeyHalf S P) :
    (∃ refusal e', AsymmetricCipher.init e direction key = (.error refusal, e') ∧
        (CipherStack.layer (.oaep l) (.base e)).init direction key =
          (.error refusal, .layer (.oaep l) (.base e'))) ∨
      ∃ e', AsymmetricCipher.init e direction key = (.ok (), e') ∧
        (CipherStack.layer (.oaep l) (.base e)).init direction key =
          (if (CipherView.ofCipher e').blockSize direction < l.overhead then .error .keyTooSmall
            else .ok (), .layer (.oaep { l with direction }) (.base e')) := by
  rcases reply : AsymmetricCipher.init e direction key with ⟨refusal | ⟨⟩, e'⟩
  · exact .inl ⟨refusal, e', rfl, CipherStack.init_layer_of_refused reply⟩
  · exact .inr ⟨e', rfl, CipherStack.init_layer_of_taken reply⟩

/-- The object has an accepted key that one of the calls found too small. -/
def Holds (l : Oaep) (accepted : KeyHalf S P → Prop)
    (calls : List (Served (CipherStack E) (CipherRequest S P) (Option Bytes)))
    (stack : CipherStack E) : Prop :=
  ∃ direction key e₀ e, stack = .layer (.oaep { l with direction }) (.base e) ∧
    Rejected calls direction key ∧ accepted key ∧
    AsymmetricCipher.init e₀ direction key = (.ok (), e) ∧
    (CipherView.ofCipher e).blockSize direction < l.overhead

/-- A set-up that finds the key too small leaves the object with this key. -/
theorem holds_of_keyTooSmall (sound : AsymmetricCipher.SoundOn E accepted modulus)
    {before : Direction} (member : c ∈ calls) (genuine : c.Genuine cipherCall tape patience)
    (found : c.before = .layer (.oaep { l with direction := before }) (.base e))
    (request : c.request = .init direction key) (ok : accepted key)
    (outcome : c.outcome = .ok ((.error .keyTooSmall, s), stop)) : l.Holds accepted calls s := by
  have rejected : Rejected calls direction key := ⟨c, member, request, s, stop, outcome⟩
  rcases init_cases { l with direction := before } e direction key with
    ⟨refusal, e', refused, reply⟩ | ⟨e', taken, reply⟩
  · -- The cipher refuses keys for other reasons.
    obtain ⟨answered, -⟩ := served_init genuine found request reply outcome
    cases answered
    exact absurd (congrArg Prod.fst refused) (sound.refusal_ne e direction key)
  · obtain ⟨answered, rfl⟩ := served_init genuine found request reply outcome
    split at answered
    · next short => exact ⟨direction, key, e, e', rfl, rejected, ok, taken, short⟩
    · cases answered

/-- **One call.**  An object that has such a key has one after every call, unless a key is
granted. -/
theorem Holds.after (sound : AsymmetricCipher.SoundOn E accepted modulus)
    (holds : l.Holds accepted calls c.before) (genuine : c.Genuine cipherCall tape patience)
    (ok : ∀ direction key, c.request = .init direction key → accepted key)
    (pending : c.request.sets = true → c.granted = false)
    (outcome : c.outcome = .ok ((answer, s), stop)) : l.Holds accepted (calls ++ [c]) s := by
  obtain ⟨direction, key, e₀, e, found, rejected, okay, set, short⟩ := holds
  cases request : c.request with
  | process input =>
      have kept := served_process genuine request outcome
      exact ⟨direction, key, e₀, e, kept.trans found, rejected.concat, okay, set, short⟩
  | init direction' key' =>
      rcases init_cases { l with direction } e direction' key' with
        ⟨refusal, e', refused, reply⟩ | ⟨e', taken, reply⟩
      · -- The cipher still has the key that it had.
        obtain rfl : e' = e := sound.keeps.eq_of_refused refused
        obtain ⟨-, left⟩ := served_init genuine found request reply outcome
        exact ⟨direction, key, e₀, e', left, rejected.concat, okay, set, short⟩
      · obtain ⟨answered, rfl⟩ := served_init genuine found request reply outcome
        split at answered
        · next short' =>
          have rejected' : Rejected (calls ++ [c]) direction' key' :=
            ⟨c, by simp, request, _, stop, answered ▸ outcome⟩
          exact ⟨direction', key', e, e', rfl, rejected', ok direction' key' request, taken,
            short'⟩
        · have granted : c.granted = true := Served.granted_iff.mpr ⟨_, _, _, answered ▸ outcome⟩
          rw [request] at pending
          rw [pending rfl] at granted
          cases granted

/-- The calls of a session keep the encoding, but for its direction, and the one layer. -/
theorem exists_layer_of_transcript {start : ℕ} {requests : List (CipherRequest S P)}
    {earlier later : List (Served (CipherStack E) (CipherRequest S P) (Option Bytes))}
    (h : transcript cipherCall tape patience (.layer (.oaep l) (.base e)) start requests =
      earlier ++ c :: later) :
    ∃ direction e', c.before = .layer (.oaep { l with direction }) (.base e') := by
  refine transcript_keeps (I := fun _ stack =>
    ∃ direction e', stack = .layer (.oaep { l with direction }) (.base e')) ?_ ⟨_, e, rfl⟩ h
  rintro - d answer s stop genuine outcome ⟨direction, e, found⟩
  cases request : d.request with
  | process input => exact ⟨direction, e, (served_process genuine request outcome).trans found⟩
  | init direction' key =>
      rcases init_cases { l with direction } e direction' key with
        ⟨refusal, e', refused, reply⟩ | ⟨e', taken, reply⟩
      · exact ⟨direction, e', (served_init genuine found request reply outcome).2⟩
      · exact ⟨direction', e', (served_init genuine found request reply outcome).2⟩

/-- What an object does from a key on that it found too small.  Until a key is granted it has one
that it found too small, and is an encoding over blocks that are too short.  A call with a block is
refused unless the block is an empty message. -/
def AfterSmallKey (l : Oaep) (E : Type) {S P : Type} [AsymmetricCipher E S P]
    (accepted : KeyHalf S P → Prop) (modulus : KeyHalf S P → ℕ) : Prop :=
  ∀ (e : E) (tape : Tape) (patience start stop : ℕ) (direction : Direction)
    (key : KeyHalf S P) (s : CipherStack E) (requests : List (CipherRequest S P))
    (r c : Served (CipherStack E) (CipherRequest S P) (Option Bytes))
    (earlier since later : List (Served (CipherStack E) (CipherRequest S P) (Option Bytes))),
    transcript cipherCall tape patience (.layer (.oaep l) (.base e)) start requests =
      earlier ++ r :: since ++ c :: later →
    (∀ d ∈ r :: since, ∀ direction key, d.request = .init direction key → accepted key) →
    r.request = .init direction key → r.outcome = .ok ((.error .keyTooSmall, s), stop) →
    (∀ d ∈ since, d.request.sets = true → d.granted = false) →
    ∃ direction key e₀ e, Rejected (r :: since) direction key ∧
      AsymmetricCipher.init e₀ direction key = (.ok (), e) ∧
      c.before = .layer (.oaep { l with direction }) (.base e) ∧
      { l with direction }.Undersized (CipherView.ofCipher e) (Halt.InBlinding (modulus key)) ∧
      ∀ input, c.request = .process input → direction = .decrypt ∨ input ≠ [] →
        c.refused = true ∨ ∃ halt, c.outcome = .error halt ∧ Halt.InBlinding (modulus key) halt

/-- **A session.**  The induction is on the calls since the key was rejected. -/
theorem afterSmallKey (l : Oaep) (sound : AsymmetricCipher.SoundOn E accepted modulus) :
    l.AfterSmallKey E accepted modulus := by
  intro e tape patience start stop direction key s requests r c earlier since later split ok
    request outcome pending
  have split' : transcript cipherCall tape patience (.layer (.oaep l) (.base e)) start requests =
      earlier ++ r :: (since ++ c :: later) := by
    rw [split, List.append_assoc, List.cons_append]
  obtain ⟨before, e₀, found⟩ := exists_layer_of_transcript split'
  obtain ⟨rest, followed⟩ := transcript_after split' outcome
  have first : l.Holds accepted [r] s :=
    holds_of_keyTooSmall sound (by simp) (genuine_of_append split') found request
      (ok r (by simp) direction key request) outcome
  have kept := transcript_keeps_from (I := fun past stack =>
    (∀ d ∈ past, d.request.sets = true → d.granted = false) →
    (∀ d ∈ past, ∀ direction key, d.request = .init direction key → accepted key) →
      l.Holds accepted past stack) ?_ (fun _ _ => first : _ → _ → l.Holds accepted [r] s)
      followed.symm
  · have denied : r.granted = false := Served.granted_eq_false_of_refused
      (Served.refused_iff.mpr ⟨_, _, _, outcome⟩)
    obtain ⟨direction', key', e₁, e', found', rejected, okay, set, short⟩ :=
      kept (List.forall_mem_cons.mpr ⟨fun _ => denied, pending⟩) ok
    have undersized : { l with direction := direction' }.Undersized (CipherView.ofCipher e')
        (Halt.InBlinding (modulus key')) :=
      undersized_of_lt short (sound.process_ensures okay set)
    exact ⟨direction', key', e₁, e', rejected, set, found', undersized, fun _ request' refuses =>
      served_refusal (genuine_of_append split) found' request'
        (undersized.process_ensures refuses)⟩
  · intro past d answer s' stop' genuine outcome' holds pending' ok'
    have holds' := holds (fun d' member => pending' d' (List.mem_append_left _ member))
      fun d' member => ok' d' (List.mem_append_left _ member)
    exact holds'.after sound genuine (ok' d (by simp)) (pending' d (by simp)) outcome'

end Sessions

end Oaep

/-- **OAEP after a key that is too small**, with any hash functions and label, over RSA and over
ElGamal, in any session with keys that their constructors accept: from a call that finds a key too
small to the next key that is granted, the object decrypts nothing and encrypts no message of at
least one byte.  The empty message is a fault over blocks that are shorter than two digests, and is
encrypted with the rejected key over blocks that are just as long. -/
theorem after_small_key (l : Oaep) :
    l.AfterSmallKey Rsa.Cipher Rsa.Key.Accepted Rsa.Key.modulus ∧
      l.AfterSmallKey ElGamal.Cipher ElGamal.Key.Accepted ElGamal.Key.modulus :=
  ⟨l.afterSmallKey Rsa.Cipher.soundOn_accepted, l.afterSmallKey ElGamal.Cipher.soundOn_accepted⟩

/-! ## A key with blocks of two digests -/

/-- OAEP with SHA-1, whose digests have 20 bytes. -/
def narrowEncoding : Oaep := { content := .sha1, maskHash := .sha1 }

/-- A public key that leaves blocks of 40 bytes. -/
@[irreducible] def narrowKey : Rsa.PublicKey := { modulus := 2 ^ 320 + 1, exponent := 3 }

theorem narrowKey_accepted : Rsa.Key.Accepted (.ofPublic narrowKey) := by
  show Rsa.PublicKey.make _ _ = .ok _
  decide +kernel

/-- An object with the key. -/
def narrow (direction : Direction) : CipherStack Rsa.Cipher :=
  .layer (.oaep { narrowEncoding with direction })
    (.base (.keyed direction (.ofPublic narrowKey)))

/-- The key is one byte too small, in either direction. -/
theorem init_narrowKey (direction : Direction) :
    (CipherStack.layer (.oaep narrowEncoding) (.base ({} : Rsa.Cipher))).init direction
      (.ofPublic narrowKey) = (.error .keyTooSmall, narrow direction) := by
  have small : (CipherView.ofCipher (Rsa.Cipher.keyed direction (.ofPublic narrowKey))).blockSize
      direction < narrowEncoding.overhead := by
    cases direction <;> decide +kernel
  rcases Oaep.init_cases narrowEncoding ({} : Rsa.Cipher) direction (.ofPublic narrowKey) with
    ⟨_, _, refused, -⟩ | ⟨cipher, taken, reply⟩
  · cases refused
  · cases taken
    rw [reply]
    exact congrArg (·, _) (if_pos small)

/-- A session that goes on after the key. -/
theorem transcript_narrowKey (direction : Direction) (input : Bytes) :
    transcript cipherCall (fun _ => 0) 0
        (CipherStack.layer (.oaep narrowEncoding) (.base ({} : Rsa.Cipher))) 0
        [.init direction (.ofPublic narrowKey), .process input] =
      [{ before := .layer (.oaep narrowEncoding) (.base {})
         request := .init direction (.ofPublic narrowKey)
         start := 0
         outcome := .ok ((.error .keyTooSmall, narrow direction), 0) },
       { before := narrow direction
         request := .process input
         start := 0
         outcome := (cipherCall (narrow direction) (.process input)).run (fun _ => 0) 0 0 }] := by
  have rejected : (cipherCall (CipherStack.layer (.oaep narrowEncoding) (.base ({} : Rsa.Cipher)))
      (.init direction (.ofPublic narrowKey))).run (fun _ => 0) 0 0 =
      .ok ((.error .keyTooSmall, narrow direction), 0) := by
    rw [cipherCall_init (E := CipherStack Rsa.Cipher) (init_narrowKey direction)]
    rfl
  rw [transcript_cons_of_ok rejected, transcript_singleton]

/-- The key is rejected in either direction; then a message of one byte is refused, and so is any
block that was to be decrypted. -/
theorem after_small_key_refuses_blocks :
    let object : CipherStack Rsa.Cipher := .layer (.oaep narrowEncoding) (.base {})
    Rsa.Key.Accepted (.ofPublic narrowKey) ∧
      object.init .encrypt (.ofPublic narrowKey) = (.error .keyTooSmall, narrow .encrypt) ∧
      object.init .decrypt (.ofPublic narrowKey) = (.error .keyTooSmall, narrow .decrypt) ∧
      ((narrow .encrypt).view.process [0xAB]).run = pure (.error (.dataLength .oaepInput)) ∧
      ((narrow .decrypt).view.process [0x01]).run.Yields fun answer => ∃ e, answer = .error e := by
  intro object
  have undersized : ∀ direction, ∃ halts, { narrowEncoding with direction }.Undersized
      (CipherView.ofCipher (Rsa.Cipher.keyed direction (.ofPublic narrowKey))) halts := by
    intro direction
    obtain ⟨direction', key, e₀, e, -, -, found, undersized, -⟩ :=
      (after_small_key narrowEncoding).1 {} (fun _ => 0) 0 0 0 direction _ _ _ _ _ [] [] []
        (transcript_narrowKey direction []) (by
          rintro d member direction' key request
          obtain rfl := List.mem_singleton.mp member
          cases request
          exact narrowKey_accepted) rfl rfl (by simp)
    obtain ⟨rfl, rfl⟩ : direction' = direction ∧
        e = Rsa.Cipher.keyed direction (.ofPublic narrowKey) := by
      simpa [narrow, eq_comm] using found
    exact ⟨_, undersized⟩
  obtain ⟨_, encoder⟩ := undersized .encrypt
  obtain ⟨_, decoder⟩ := undersized .decrypt
  exact ⟨narrowKey_accepted, init_narrowKey .encrypt, init_narrowKey .decrypt,
    encoder.message rfl [0xAB] (by simp),
    (decoder.decrypting rfl [0x01]).mono_halts fun _ _ => trivial⟩

/-- The empty message is encrypted: two digests are a number below the modulus. -/
theorem exists_run_process_nil : ∃ out,
    (cipherCall (narrow .encrypt) (.process [])).run (fun _ => 0) 0 0 =
      .ok ((.ok (some out), narrow .encrypt), 20) := by
  set ready : Rsa.Cipher := .keyed .encrypt (.ofPublic narrowKey)
  set encoding : Oaep := { narrowEncoding with direction := .encrypt }
  have size : (CipherView.ofCipher ready).inputSize = 2 * encoding.content.size := by
    decide +kernel
  have encoder : encoding.Undersized (CipherView.ofCipher ready) fun _ => True :=
    Oaep.undersized_of_lt (size.trans_lt (Nat.lt_succ_self _)) fun _ =>
      Draw.yields_iff.mpr fun _ _ _ _ _ _ => trivial
  set seed : Bytes := (List.range encoding.content.size).map fun _ => 0 with hseed
  set block := encoding.maskFrame (Bytes.zeros encoding.content.size ++ encoding.labelDigest) seed
    with hblock
  have length : block.length = 40 := by
    have digest : encoding.content.size = 20 := rfl
    simp [hblock, hseed, Oaep.maskFrame, digest]
  have small : block.value < narrowKey.modulus :=
    (Bytes.value_lt block).trans_le (by rw [length]; decide +kernel)
  obtain ⟨out, transformed⟩ : ∃ out, (AsymmetricCipher.process ready block).run = pure (.ok out) :=
    ⟨_, Rsa.Cipher.run_process_public .encrypt block narrowKey (by rw [length]; decide +kernel)
      small⟩
  have ran : (AsymmetricCipher.process (narrow .encrypt) []).run.run (fun _ => 0) 0 0 =
      .ok (.ok out, 20) := by
    show (encoding.process (CipherView.ofCipher ready) []).run.run _ _ _ = _
    rw [encoder.tight rfl size, Draw.run_bind, Draw.run_bytes]
    dsimp only
    rw [← hseed, ← hblock]
    rw [show ((CipherView.ofCipher ready).process block).run = _ from transformed]
    rfl
  exact ⟨out, run_cipherCall_process ran⟩

/-- **An empty message is not refused.**  It is encrypted with a key that was found too small. -/
theorem small_key_not_refused :
    ¬∀ (l : Oaep) (e : Rsa.Cipher) (tape : Tape) (patience start stop : ℕ) (direction : Direction)
      (key : Rsa.Key) (input : Bytes) (s : CipherStack Rsa.Cipher)
      (requests : List (CipherRequest Rsa.PrivateKey Rsa.PublicKey))
      (r c : Served (CipherStack Rsa.Cipher) (CipherRequest Rsa.PrivateKey Rsa.PublicKey)
        (Option Bytes))
      (earlier since later : List (Served (CipherStack Rsa.Cipher)
        (CipherRequest Rsa.PrivateKey Rsa.PublicKey) (Option Bytes))),
      transcript cipherCall tape patience (.layer (.oaep l) (.base e)) start requests =
        earlier ++ r :: since ++ c :: later →
      (∀ d ∈ r :: since, ∀ direction key, d.request = .init direction key →
        Rsa.Key.Accepted key) →
      r.request = .init direction key → r.outcome = .ok ((.error .keyTooSmall, s), stop) →
      (∀ d ∈ since, d.request.sets = true → d.granted = false) →
      c.request = .process input →
        c.refused = true ∨ c.outcome = .error .exhausted := by
  intro claimed
  obtain ⟨out, encrypted⟩ := exists_run_process_nil
  have wrong := claimed narrowEncoding {} (fun _ => 0) 0 0 0 .encrypt _ [] _ _ _ _ [] [] []
    (transcript_narrowKey .encrypt []) (by
      rintro d member direction' key request
      obtain rfl := List.mem_singleton.mp member
      cases request
      exact narrowKey_accepted) rfl rfl (by simp) rfl
  rw [encrypted] at wrong
  rcases wrong with refused | exhausted
  · cases refused
  · cases exhausted

end PublicKeyCrypto
