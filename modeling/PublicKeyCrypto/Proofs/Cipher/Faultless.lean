import PublicKeyCrypto.Proofs.Cipher.Keys
import PublicKeyCrypto.Proofs.Cipher.Stack
import PublicKeyCrypto.Proofs.Pss.Verification
import Mathlib

/-!
# Calls that break no precondition

An encoding cuts blocks at positions that it computes from the sizes that the cipher under it
announces, and from the length of whatever that cipher gives back.  Nothing of the kind is ever out
of range: what is decoded is checked against its own length before it is cut, and what is encoded is
cut at sizes that were checked when the key was set.

So a layer breaks no precondition if the cipher under it breaks none, whatever bytes that cipher
gives (`Layer.faultless`), and with the layers one over the other the same is true of a stack.  The
same sizes rule out the one key with which RSA itself breaks a precondition: a layer that has room
lies over a cipher with blocks of at least one byte.

A signer is another matter.  It cuts its blocks at sizes that were tested when the key was set, but
the sum of sizes in that test is a word of the machine, with the length of the salt in it.  If it
wraps around, a key is granted without room for the salt, and the positions that are computed from
its length are outside the block.  So signers are without faults as long as that sum fits
(`Pss.Fits`), and `longSaltVerifier` shows one that is not.

Lengths of strings that exist are natural numbers, since no sum of two of them wraps around on a
machine.  What is idealised is memory.  The length of a salt and the expected length of a payload
are chosen freely, and a buffer of that length is taken to be there, also from `2 ^ 63` bytes on,
where no allocation succeeds.

## Main Definitions

* `CipherView.Faultless` — an operation that breaks no precondition on any input
* `FaultlessBottom` — ciphers that break none with an accepted key, with room for a byte
* `FaultlessOver` — stacks and signers that break none after a key that was granted

## Main Results

* `faultlessOver_of_bottom` — encodings and signers add no fault
* `calls_faultless` — over RSA and ElGamal, and over any cipher without faults
* `calls_not_faultless_with_long_salt` — a signer whose sum of sizes wraps around
-/

namespace PublicKeyCrypto

/-- On no input a precondition is broken: every call returns, unless a loop is exhausted. -/
def CipherView.Faultless (v : CipherView) : Prop :=
  ∀ input, (v.process input).run.Always fun _ => True

variable {below : CipherView}

/-! ## Layers -/

namespace Pkcs1

/-- The payload of a known length is cut out of a block that is long enough for it. -/
theorem exists_unpadOr (l : Pkcs1) (outputSize : ℕ) (random block : Bytes) :
    ∃ payload, l.unpadOr outputSize random block = .ok payload := by
  unfold unpadOr
  split
  · exact ⟨random, rfl⟩
  · next long =>
    rw [headerLength] at long
    have byte : ∀ i < block.length, ∃ b, block.byteAt i = .ok b := fun i inside =>
      ⟨block[i], by rw [Bytes.byteAt, List.getElem?_eq_getElem inside]⟩
    have part : ∀ start stop, start ≤ stop → stop ≤ block.length →
        ∃ cut, block.slice start stop = .ok cut := fun start stop ordered inside =>
      ⟨_, Bytes.slice_eq_ok_iff.mpr ⟨ordered, inside, rfl⟩⟩
    obtain ⟨type, first⟩ := byte 0 (by omega)
    obtain ⟨filler, middle⟩ := part 1 (block.length - (random.length + 1)) (by omega) (by omega)
    obtain ⟨zero, separator⟩ := byte (block.length - (random.length + 1)) (by omega)
    obtain ⟨payload, last⟩ :=
      part (block.length - (random.length + 1) + 1) block.length (by omega) le_rfl
    rw [difference_of_le (by omega)]
    simp only [bind, Except.bind, first, middle, separator, last]
    exact ⟨_, rfl⟩

/-- PKCS #1 adds no fault, over blocks of any size. -/
theorem faultless (l : Pkcs1) (h : below.Faultless) : (Layer.view below (.pkcs1 l)).Faultless := by
  intro input
  show (l.process below input).run.Always _
  unfold process
  split
  · by_cases fits : input.length + headerLength ≤ below.inputSize
    · exact l.encode_always fits fun _ block _ _ => h block
    · rw [l.run_encode_of_lt (not_le.mp fits)]
      exact Draw.ensures_pure trivial
  · split
    · refine Call.ensures_after ((h input).mono ?_)
      rintro (e | block) -
      · trivial
      · rcases l.unpad_cases below.outputSize block with ⟨payload, accepted⟩ | refused
        · exact ⟨_, accepted, trivial⟩
        · exact ⟨_, refused, trivial⟩
    · next length _ =>
      unfold decodeOrRandom
      dsimp only
      split
      · exact Draw.ensures_pure trivial
      · refine Call.ensures_lift_bind (Draw.ensures_bytes fun random _ => ?_)
        refine Call.ensures_bind ((h input).mono ?_)
        rintro (e | block) -
        · trivial
        · obtain ⟨payload, cut⟩ := l.exists_unpadOr below.outputSize random block
          dsimp only
          rw [cut]
          exact Draw.ensures_pure trivial

end Pkcs1

/-- OAEP adds no fault, over blocks that an encoder has room in. -/
theorem Oaep.faultless (l : Oaep) (h : below.Faultless)
    (room : l.overhead ≤ below.blockSize l.direction) : (Layer.view below (.oaep l)).Faultless := by
  intro input
  show (l.process below input).run.Always _
  unfold process
  split
  · next encrypting =>
    rw [encrypting] at room
    by_cases fits : input.length + l.overhead ≤ below.inputSize
    · exact l.encode_always encrypting fits fun block _ _ => h block
    · rw [l.run_encode_of_lt]
      · exact Draw.ensures_pure trivial
      · rw [inputSize, encrypting]
        replace room : l.overhead ≤ below.inputSize := room
        dsimp only
        omega
  · refine Call.ensures_after ((h input).mono ?_)
    rintro (e | block) -
    · trivial
    · rcases l.unpad_cases (below.blockSize l.direction) block with ⟨message, accepted⟩ | refused
      · exact ⟨_, accepted, trivial⟩
      · exact ⟨_, refused, trivial⟩

/-- **A layer adds no fault**, whatever bytes come from below, once it has found that it has
room. -/
theorem Layer.faultless (top : Layer) {direction : Direction} {isPrivate : Bool}
    (h : below.Faultless) (room : top.leastBlock ≤ below.blockSize direction) :
    (Layer.view below ((top.beforeInit direction isPrivate).afterInit direction)).Faultless := by
  cases top with
  | pkcs1 l => exact Pkcs1.faultless _ h
  | oaep l => exact Oaep.faultless { l with direction } h room

/-- What a layer announces is not longer than what lies below. -/
theorem Layer.blockSize_le (top : Layer) (direction : Direction) (isPrivate : Bool) :
    (Layer.view below ((top.beforeInit direction isPrivate).afterInit direction)).blockSize
      direction ≤ below.blockSize direction := by
  cases top <;> cases direction <;> exact Nat.sub_le _ _

theorem Layer.leastBlock_pos (top : Layer) : 0 < top.leastBlock := by
  cases top with
  | pkcs1 l => exact Nat.succ_pos _
  | oaep l => exact Nat.succ_pos _

/-! ## Stacks and signers -/

variable {E S P : Type} [AsymmetricCipher E S P] {direction : Direction} {key : KeyHalf S P}

/-- A stack that was granted a key lies over a cipher that has taken it, announces blocks that are
not longer, and adds no fault.  The induction is on the layers. -/
theorem CipherStack.exists_bottom (stack : CipherStack E)
    (granted : (stack.init direction key).1 = .ok ()) :
    ∃ e e' : E, AsymmetricCipher.init e direction key = (.ok (), e') ∧
      (stack.init direction key).2.view.blockSize direction ≤
        (CipherView.ofCipher e').blockSize direction ∧
      ((CipherView.ofCipher e').Faultless → (stack.init direction key).2.view.Faultless) := by
  induction stack with
  | base e => exact ⟨e, _, Prod.ext granted rfl, le_rfl, id⟩
  | layer top below ih =>
      obtain ⟨inner, room, stack⟩ := init_layer_eq_ok granted
      obtain ⟨e, e', taken, size, faultless⟩ := ih inner
      rw [stack]
      exact ⟨e, e', taken, (top.blockSize_le direction key.isPrivate).trans size,
        fun bottom => top.faultless (faultless bottom) room⟩

/-- Ciphers that are without faults with an accepted key, provided that their blocks have at least
one byte or their modulus more than one bit. -/
def FaultlessBottom (E : Type) {S P : Type} [AsymmetricCipher E S P]
    (accepted : KeyHalf S P → Prop) : Prop :=
  ∀ (e e' : E) direction key, accepted key →
    AsymmetricCipher.init e direction key = (.ok (), e') →
    0 < (CipherView.ofCipher e').blockSize direction ∨ 1 < AsymmetricCipher.keySize e' →
    (CipherView.ofCipher e').Faultless

/-- A signer that was granted a key has a modulus of more than one bit, and it has room unless its
sum of sizes wraps around.  So it has after any calls, with the same cipher. -/
theorem Pss.afterCalls_always {accepted : KeyHalf S P → Prop} (bottom : FaultlessBottom E accepted)
    {s s' : Pss E} {task : Task} (ok : accepted key) (fits : s.Fits)
    (granted : s.init task key = (.ok (), s')) (history : List Request) :
    (s'.afterCalls history).Always fun t =>
      t.Ready ∧ t.Roomy ∧ (CipherView.ofCipher t.cipher).Faultless := by
  have roomy := roomy_of_init granted fits
  obtain ⟨cipher, taken, rfl, large⟩ := init_eq_ok_iff.mp granted
  have bits : 0 < AsymmetricCipher.keySize cipher - 1 := (leastBits_pos _).trans_le large
  have faultless := bottom _ _ _ key ok taken (.inr (by omega))
  have ready : Ready { s with
    cipher, message := [], emBits := AsymmetricCipher.keySize cipher - 1, initialised := true } :=
    ⟨rfl, large⟩
  have served := afterCalls_ensures ready roomy.mayFault rfl faultless history
  refine served.mono ?_
  rintro _ rfl
  exact ⟨⟨rfl, large⟩, roomy, faultless⟩

/-- Stacks of at least one layer, and signers after any calls, break no precondition once a key was
granted that is accepted; for signers it is asked that their sum of sizes does not wrap around.  The
sizes that a signer takes off the length of its blocks are then together not larger; a signer that
was granted a key without room for them never signs. -/
structure FaultlessOver (E : Type) {S P : Type} [AsymmetricCipher E S P]
    (accepted : KeyHalf S P → Prop) : Prop where
  stack : ∀ (top : Layer) (below : CipherStack E) (direction : Direction) (key : KeyHalf S P),
    accepted key → ((CipherStack.layer top below).init direction key).1 = .ok () →
      ((CipherStack.layer top below).init direction key).2.view.Faultless
  sign : ∀ {s s' : Pss E} {task : Task} {key : KeyHalf S P}, accepted key → s.Fits →
    s.init task key = (.ok (), s') → ∀ history,
      (s'.afterCalls history >>= Pss.sign).Always fun _ => True
  verify : ∀ {s s' : Pss E} {task : Task} {key : KeyHalf S P}, accepted key → s.Fits →
    s.init task key = (.ok (), s') → ∀ history signature,
      (s'.afterCalls history >>= fun t => t.verify signature).Always fun _ => True
  sizes : ∀ {s s' : Pss E} {task : Task} {key : KeyHalf S P}, accepted key → s.Fits →
    s.init task key = (.ok (), s') → ∀ history, (s'.afterCalls history).Always fun t =>
      t.content.size + t.saltLength.toNat + 2 ≤ t.emLength
  cramped : ∀ {s s' : Pss E} {task : Task} {key : KeyHalf S P}, s.init task key = (.ok (), s') →
    ¬s'.Roomy → ∀ history, (s'.afterCalls history >>= Pss.sign).Yields fun _ => False

/-- **Encodings and signers add no fault** to those of the cipher.  It only has to be without faults
when its blocks have at least one byte, or its modulus more than one bit. -/
theorem faultlessOver_of_bottom {accepted : KeyHalf S P → Prop}
    (bottom : FaultlessBottom E accepted) : FaultlessOver E accepted where
  stack top below direction key ok granted := by
    obtain ⟨inner, room, stack⟩ := CipherStack.init_layer_eq_ok granted
    obtain ⟨e, e', taken, size, faultless⟩ := below.exists_bottom inner
    rw [stack]
    refine top.faultless (faultless (bottom e e' direction key ok taken (.inl ?_))) room
    exact top.leastBlock_pos.trans_le (room.trans size)
  sign {s s' task key} ok fits granted history := by
    refine Draw.ensures_bind ((Pss.afterCalls_always bottom ok fits granted history).mono ?_)
    rintro t ⟨ready', roomy', faultless'⟩
    exact Pss.sign_ensures ready' roomy'.mayFault
      fun _ salt _ => (faultless' _).mono fun _ _ => trivial
  verify {s s' task key} ok fits granted history signature := by
    refine Draw.ensures_bind ((Pss.afterCalls_always bottom ok fits granted history).mono ?_)
    rintro t ⟨ready', roomy', faultless'⟩
    refine Pss.verify_ensures ready' roomy'.mayFault
      ((faultless' signature).mono fun answer _ => ?_)
    rcases answer with e | input
    · cases e <;> trivial
    · exact fun _ _ => trivial
  sizes {s s' task key} ok fits granted history :=
    (Pss.afterCalls_always bottom ok fits granted history).mono
      fun t ⟨_, roomy, _⟩ => t.roomy_iff.mp roomy
  cramped {s s' task key} granted cramped history := by
    obtain ⟨cipher, -, rfl, large⟩ := Pss.init_eq_ok_iff.mp granted
    exact Pss.afterCalls_sign_never_returns ⟨rfl, large⟩ cramped rfl history

/-- A cipher with accepted keys is without faults when its modulus has more than one bit, and so
when its blocks have at least one byte. -/
theorem AsymmetricCipher.SoundOn.faultlessOver {accepted : KeyHalf S P → Prop}
    {modulus : KeyHalf S P → ℕ} (sound : SoundOn E accepted modulus) :
    FaultlessOver E accepted := by
  refine faultlessOver_of_bottom fun e e' direction key ok taken size => ?_
  refine sound.process_always ok taken ?_
  rw [sound.blockSize_eq taken, sound.keySize_eq taken] at size
  omega

/-- **Calls break no precondition.**  Over RSA and ElGamal with any keys that their constructors
accept, and over any cipher that itself is without faults, whatever bytes it gives: for stacks of at
least one layer in any state that a granted key left them in, and for signers whose sum of sizes
does not wrap around, after any calls since then, every call returns an answer or a refusal on
inputs of any length. -/
theorem calls_faultless (E : Type) {S P : Type} [AsymmetricCipher E S P] :
    FaultlessOver Rsa.Cipher Rsa.Key.Accepted ∧
      FaultlessOver ElGamal.Cipher ElGamal.Key.Accepted ∧
      ((∀ e : E, (CipherView.ofCipher e).Faultless) → FaultlessOver E fun _ => True) :=
  ⟨Rsa.Cipher.soundOn_accepted.faultlessOver, ElGamal.Cipher.soundOn_accepted.faultlessOver,
    fun faultless => faultlessOver_of_bottom fun _ e' _ _ _ _ _ => faultless e'⟩

/-- A private key that is accepted although its factors are even and its exponents have nothing to
do with each other. -/
def unrelatedKey : Rsa.PrivateKey where
  modulus := 2 ^ 96
  publicExponent := 4
  privateExponent := 0
  p := 2 ^ 48
  q := 2 ^ 48
  dp := 1
  dq := 2
  qinv := 3

/-- Such a key with a decoder for payloads of three bytes and with a signer, on an input of one byte
and after a verification. -/
theorem calls_faultless_unrelated_exponents :
    let key : Rsa.Key := .ofPrivate unrelatedKey
    let decoder : CipherStack Rsa.Cipher := .layer (.pkcs1 { expectedLength := some 3 }) (.base {})
    let signer : Pss Rsa.Cipher :=
      { cipher := {}, content := Pss.byteSum, maskHash := Pss.byteSum, saltLength := 1 }
    let history : List Pss.Request := [.update [1], .verify [2], .update [3]]
    key.Accepted ∧ (decoder.init .decrypt key).1 = .ok () ∧ signer.Fits ∧
      (signer.init .sign key).1 = .ok () ∧
      ((decoder.init .decrypt key).2.view.process [5]).run.Always (fun _ => True) ∧
      ((signer.init .sign key).2.afterCalls history >>= Pss.sign).Always fun _ => True := by
  intro key decoder signer history
  have accepted : key.Accepted := by
    show Rsa.PrivateKey.validate _ = .ok _
    decide +kernel
  have granted : (decoder.init .decrypt key).1 = .ok () := by decide +kernel
  have fits : signer.Fits := by
    unfold Pss.Fits
    decide
  have granted' : (signer.init .sign key).1 = .ok () := by decide +kernel
  obtain ⟨faultless, -⟩ := calls_faultless Rsa.Cipher
  exact ⟨accepted, granted, fits, granted',
    faultless.stack _ _ .decrypt key accepted granted [5],
    faultless.sign accepted fits (Prod.ext granted' rfl) history⟩

/-- **Calls may break a precondition** when the sum of sizes wraps around, also with a public key
whose components have been checked. -/
theorem calls_not_faultless_with_long_salt :
    ¬∀ {s s' : Pss Rsa.Cipher} {task : Task} {key : Rsa.Key}, key.Accepted →
      s.init task key = (.ok (), s') → ∀ history signature,
        (s'.afterCalls history >>= fun t => t.verify signature).Always fun _ => True := by
  intro claimed
  have accepted : Rsa.Key.Accepted (.ofPublic Pss.longSaltKey) := by
    show Rsa.PublicKey.make _ _ = .ok _
    decide +kernel
  have exhausted := Pss.longSaltVerifier_halts
    (claimed accepted Pss.longSaltVerifier_accepts [] Pss.longSaltSignature)
  cases exhausted

end PublicKeyCrypto
