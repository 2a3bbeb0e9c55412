import PublicKeyCrypto.Proofs.Cipher.Keys
import PublicKeyCrypto.Proofs.Cipher.RoundTrip
import PublicKeyCrypto.Proofs.Session.SetUp
import Mathlib

/-!
# PKCS #1 over a cipher that rejects a key

A layer of PKCS #1 keeps a direction and a role of its own beside those of the cipher, and takes
over new ones before the cipher sees the key.  If the cipher rejects the key, the layer and the
cipher fall apart: the layer pads blocks for a cipher that decrypts, or takes the padding off blocks
of a cipher that encrypts.

They come together again with the next key that the cipher takes.  So layer and cipher are matched
as long as the object is settled, and a session that uses a settled object only forgets its rejected
keys.  A key that the layer finds too small counts as taken, since the cipher has it then.

## Main Definitions

* `CipherStack.rejects` — the cipher under the layers rejects a key
* `Pkcs1.Matched` — the layer is set for what the cipher is set for

## Main Results

* `rejected_key_leaves_direction_and_role` — what a rejected key leaves, and until when
* `rejected_direction_not_forgotten` — an object set for decryption pads, after a rejected key
-/

namespace PublicKeyCrypto

variable {E S P : Type}

/-- Whether the cipher under the layers rejects the key of a call. -/
def CipherStack.rejects [AsymmetricCipher E S P] : CipherStack E → CipherRequest S P → Bool
  | base e, .init direction key => Reply.refused (AsymmetricCipher.init e direction key)
  | layer _ below, .init direction key => below.rejects (.init direction key)
  | _, .process _ => false

namespace Pkcs1

/-- The layer over a cipher, in a direction and a role. -/
def laid (l : Pkcs1) (e : E) (direction : Direction) (withPrivateKey : Bool) : CipherStack E :=
  .layer (.pkcs1 { l with direction, withPrivateKey }) (.base e)

variable [AsymmetricCipher E S P]

/-- **What a set-up does.**  The cipher rejects the key and is as it was, or it takes the key.  The
layer is in the new direction and role in both cases, whatever it was in before. -/
theorem init_cases (keeps : AsymmetricCipher.KeepsOnRefusal E) (l : Pkcs1) (e : E)
    (direction : Direction) (key : KeyHalf S P) :
    (∃ refusal, AsymmetricCipher.init e direction key = (.error refusal, e) ∧ ∀ d r,
        (l.laid e d r).init direction key =
          (.error refusal, l.laid e direction key.isPrivate)) ∨
      ∃ answer e', AsymmetricCipher.init e direction key = (.ok (), e') ∧ ∀ d r,
        (l.laid e d r).init direction key = (answer, l.laid e' direction key.isPrivate) := by
  rcases reply : AsymmetricCipher.init e direction key with ⟨refusal | ⟨⟩, e'⟩
  · obtain rfl : e' = e := keeps.eq_of_refused reply
    exact .inl ⟨refusal, rfl, fun _ _ => CipherStack.init_layer_of_refused reply⟩
  · exact .inr ⟨if (CipherView.ofCipher e').blockSize direction < headerLength then
        .error .keyTooSmall else .ok (),
      e', rfl, fun _ _ => CipherStack.init_layer_of_taken reply⟩

theorem laid_rejects (l : Pkcs1) (e : E) (d : Direction) (r : Bool) (direction : Direction)
    (key : KeyHalf S P) :
    (l.laid e d r).rejects (.init direction key) =
      Reply.refused (AsymmetricCipher.init e direction key) := rfl

/-- Set-ups overwrite the direction and the role of the layer. -/
theorem laid_setsUp (keeps : AsymmetricCipher.KeepsOnRefusal E) :
    SetsUp CipherRequest.sets CipherStack.rejects cipherCall fun s t : CipherStack E =>
      ∃ (l : Pkcs1) (e : E) (d d' : Direction) (r r' : Bool),
        s = l.laid e d r ∧ t = l.laid e d' r' where
  rejected := by
    rintro _ _ (⟨direction, key⟩ | input) ⟨l, e, d, d', r, r', rfl, rfl⟩ rejection
    · rcases l.init_cases keeps e direction key with ⟨refusal, -, left⟩ | ⟨answer, e', taken, -⟩
      · have refused := cipherCall_init (E := CipherStack E) (left d r)
        exact ⟨refusal, l.laid e direction key.isPrivate, refused, l, e, _, d', _, r', rfl, rfl⟩
      · simp [laid_rejects, taken] at rejection
    · cases rejection
  taken := by
    rintro _ _ (⟨direction, key⟩ | input) ⟨l, e, d, d', r, r', rfl, rfl⟩ setup rejection
    · rcases l.init_cases keeps e direction key with ⟨refusal, refused, -⟩ | ⟨answer, e', -, reply⟩
      · simp [laid_rejects, refused] at rejection
      · exact ⟨_, l.laid e' direction key.isPrivate,
          cipherCall_init (E := CipherStack E) (reply d r),
          cipherCall_init (E := CipherStack E) (reply d' r'), l, e', _, _, _, _, rfl, rfl⟩
    · cases setup
  used := by
    rintro stack (_ | input) use
    · cases use
    · exact cipherCall_process stack input

/-- The layer has the direction and the role of the key that the cipher has. -/
def Matched (l : Pkcs1) (e : ElGamal.Cipher) : Prop :=
  ∀ key, e.key = some key → l.direction = e.direction ∧ l.withPrivateKey = key.isPrivate

/-- Settled calls of a new object have left layer and cipher matched.  The induction is on the
calls. -/
theorem matched_of_settled (l : Pkcs1) {tape : Tape} {patience start : ℕ}
    {requests : List (CipherRequest ElGamal.PrivateKey ElGamal.PublicKey)}
    {earlier later : List (Served (CipherStack ElGamal.Cipher) _ (Option Bytes))}
    {c : Served (CipherStack ElGamal.Cipher) _ (Option Bytes)}
    (h : transcript cipherCall tape patience (.layer (.pkcs1 l) (.base {})) start requests =
      earlier ++ c :: later) :
    ∃ l' e, c.before = .layer (.pkcs1 l') (.base e) ∧
      (Settled CipherRequest.sets CipherStack.rejects earlier → l'.Matched e) := by
  refine transcript_keeps (I := fun past stack => ∃ l' e, stack = .layer (.pkcs1 l') (.base e) ∧
    (Settled CipherRequest.sets CipherStack.rejects past → l'.Matched e)) ?_ ?_ h
  · intro past d answer s' stop genuine outcome ⟨l', e, before, matched⟩
    cases request : d.request with
    | process input =>
        refine ⟨l', e, (served_process genuine request outcome).trans before,
          fun settled => matched (settled.of_concat ?_)⟩
        simp [Served.taken, request, CipherRequest.sets]
    | init direction key =>
        rcases l'.init_cases ElGamal.Cipher.soundOn_accepted.keeps e direction key with
          ⟨refusal, refused, left⟩ | ⟨answer', e', taken, left⟩
        · -- Either the layer was set for the same before, or the object is not settled now.
          have rejection : d.rejected CipherStack.rejects = true := by
            rw [Served.rejected, before, request]
            exact congrArg Reply.refused refused
          have after :=
            (served_init genuine before request (left l'.direction l'.withPrivateKey) outcome).2
          by_cases same : s' = d.before
          · refine ⟨l', e, same.trans before, fun settled => matched (settled.of_concat ?_)⟩
            simp [Served.taken, rejection]
          · exact ⟨_, e, after, fun settled =>
              absurd settled (not_settled_concat ⟨rejection, answer, s', stop, outcome, same⟩)⟩
        · have after :=
            (served_init genuine before request (left l'.direction l'.withPrivateKey) outcome).2
          obtain ⟨keyed, directed⟩ := ElGamal.Cipher.of_init_eq_ok taken
          refine ⟨_, e', after, fun _ key' keyed' => ?_⟩
          obtain rfl : key = key' := Option.some.inj (keyed.symm.trans keyed')
          exact ⟨directed.symm, rfl⟩
  · exact ⟨l, {}, rfl, fun _ key none => by cases none⟩

end Pkcs1

/-- **What a rejected key leaves.**  Over a cipher that keeps its state when it refuses a key: the
layer is in the direction and the role of the rejected key and nothing else has changed.  A session
that sets the object up again, before it uses it, forgets the rejected keys, block sizes included,
and over ElGamal it never uses a layer that is set for anything else than the cipher. -/
theorem rejected_key_leaves_direction_and_role [AsymmetricCipher E S P]
    (keeps : AsymmetricCipher.KeepsOnRefusal E) :
    (∀ (l : Pkcs1) (e : E) direction key refusal,
        (AsymmetricCipher.init e direction key).1 = .error refusal →
        (CipherStack.layer (.pkcs1 l) (.base e)).init direction key = (.error refusal,
          .layer (.pkcs1 { l with direction, withPrivateKey := key.isPrivate }) (.base e))) ∧
      (∀ (l : Pkcs1) (e : E), ForgetsSettled CipherRequest.sets CipherStack.rejects cipherCall
        (CipherStack.layer (.pkcs1 l) (.base e))) ∧
      ∀ (l : Pkcs1) tape patience start requests earlier c later,
        transcript cipherCall tape patience
            (CipherStack.layer (.pkcs1 l) (.base ({} : ElGamal.Cipher))) start requests =
          earlier ++ c :: later →
        Settled CipherRequest.sets CipherStack.rejects earlier →
        ∃ l' e, c.before = .layer (.pkcs1 l') (.base e) ∧ l'.Matched e := by
  refine ⟨fun l e direction key refusal refused => ?_, fun l e => ?_,
    fun l _ _ _ _ earlier c later split settled => ?_⟩
  · rcases l.init_cases keeps e direction key with ⟨refusal', rejected, left⟩ | ⟨_, _, taken, -⟩
    · rw [rejected] at refused
      cases refused
      exact left l.direction l.withPrivateKey
    · rw [taken] at refused
      cases refused
  · exact forgetsSettled_of_setsUp (Pkcs1.laid_setsUp keeps) ⟨l, e, _, _, _, _, rfl, rfl⟩
  · obtain ⟨l', e, found, matched⟩ := l.matched_of_settled split
    exact ⟨l', e, found, matched settled⟩

/-- A private key comes to encrypt and is rejected, and then the public key is taken before the
object is used. -/
theorem rejected_key_leaves_direction_and_role_until_next_key :
    let decryptor : CipherStack ElGamal.Cipher := .layer (.pkcs1 {}) (.base {})
    let whole : ElGamal.Key := .ofPrivate mersennePrivate
    let half : ElGamal.Key := .ofPublic mersennePrivate.publicKey
    let session := transcript cipherCall (fun _ => 1) 0 decryptor 0
    let calls := session [.init .decrypt whole, .init .encrypt whole, .init .encrypt half,
      .process [0xAB]]
    AsymmetricCipher.KeepsOnRefusal ElGamal.Cipher ∧
      decryptor.init .encrypt whole = (.error (.invalidArgument .elGamalNeedsPublic),
        .layer (.pkcs1 { direction := .encrypt, withPrivateKey := true }) (.base {})) ∧
      (session [.init .decrypt whole, .init .encrypt half, .process [0xAB]]).map Served.course =
        (calls.eraseIdx 1).map Served.course ∧
      ∀ c ∈ calls.getLast?, ∃ l e, c.before = .layer (.pkcs1 l) (.base e) ∧ l.Matched e := by
  intro decryptor whole half session calls
  have keeps := ElGamal.Cipher.soundOn_accepted.keeps
  obtain ⟨leaves, forgets, matched⟩ := rejected_key_leaves_direction_and_role keeps
  obtain ⟨first, second, third, last, served, taken, refused, taken', use⟩ :
      ∃ first second third last, calls = [first, second, third, last] ∧
        (first.request = .init .decrypt whole ∧ first.rejected CipherStack.rejects = false) ∧
        (second.request = .init .encrypt whole ∧ second.rejected CipherStack.rejects = true) ∧
        (third.request = .init .encrypt half ∧ third.rejected CipherStack.rejects = false) ∧
        (last.request = .process [0xAB] ∧ last.rejected CipherStack.rejects = false) :=
    ⟨_, _, _, _, congrArg (_ :: _ :: _ :: ·) transcript_singleton, ⟨rfl, rfl⟩, ⟨rfl, rfl⟩,
      ⟨rfl, rfl⟩, ⟨rfl, rfl⟩⟩
  have settled : Settled CipherRequest.sets CipherStack.rejects [first, second, third] :=
    settled_concat_of_taken [first, second]
      (by simp [Served.taken, taken', CipherRequest.sets])
  have setUps : ∀ d ∈ [first, second, third], d.request.sets = true := by
    simp [taken, refused, taken', CipherRequest.sets]
  have forgotten := forgets {} {} (fun _ => 1) 0 0 _ fun earlier c later split =>
    settled_before_use setUps settled (served.symm.trans split)
  rw [SameCourse, show transcript _ _ _ _ _ _ = _ from served] at forgotten
  refine ⟨keeps, leaves {} {} .encrypt whole _ rfl, ?_, ?_⟩
  · simpa [served, taken, refused, taken', use] using forgotten
  · intro c member
    obtain rfl : last = c := by simpa [served] using member
    exact matched {} _ _ _ _ [first, second, third] last [] served settled

/-- **The direction of a rejected key is not forgotten**, in general.  A private key of ElGamal is
taken to decrypt and rejected to encrypt.  From then on the layer pads what should be a ciphertext,
and has the padded block decrypted. -/
theorem rejected_direction_not_forgotten :
    ¬∀ (E S P : Type) [AsymmetricCipher E S P], AsymmetricCipher.KeepsOnRefusal E →
      ∀ (l : Pkcs1) (e : E),
        ForgetsRejections CipherStack.rejects cipherCall (.layer (.pkcs1 l) (.base e)) := by
  intro claimed
  let whole : ElGamal.Key := .ofPrivate mersennePrivate
  have same := claimed _ _ _ ElGamal.Cipher.soundOn_accepted.keeps {} {} (fun _ => 0) 0 0
    [.init .decrypt whole, .init .encrypt whole, .process (Bytes.zeros 22)]
  exact absurd same (by decide +kernel)

end PublicKeyCrypto
