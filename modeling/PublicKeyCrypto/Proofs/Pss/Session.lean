import PublicKeyCrypto.Proofs.Pss.Encoding
import PublicKeyCrypto.Proofs.Rsa.Operation
import Mathlib

/-!
# Signatures are accepted after any calls

A signer takes the message in pieces and goes on after a signature or a verification with an empty
message.  So what it signs depends on the calls that it has served since it was set up, and on
nothing else that they did: every call keeps the key and the sizes, and either adds to the message
or drops it, also when it fails.

That is one step lemma, for a signer over any cipher (`call_ensures`), and from it by induction on
the calls a lemma about whole histories (`afterCalls_ensures`).  What remains is a signer and a
verifier with one message each.

A key that was taken shows that there is room for the digest and the salt, unless the sum of their
sizes has wrapped around.  Without room signing always breaks a precondition, and so does verifying
a block that is not refused before the salt is looked for.  So the lemmas ask that these halts are
allowed if there is no room; where there is room, this asks for nothing.

* **The number fits** (`value_encoded_lt_modulus`).  The encoded message is one bit shorter than the
  modulus, so it is below it, whatever the length of the modulus.
* **The number comes back.**  The two halves of the key undo each other on numbers; the zeros that a
  decrypted number lost are put back before the check.

## Main Definitions

* `Request`, `afterCalls` — the calls between two calls of `init`, and the signer after them
* `sinceLast` — the message that a history leaves
* `MayFault` — whether the halts of a signer without room are allowed

## Main Results

* `sign_ensures`, `verify_ensures` — the two operations, for any cipher
* `afterCalls_ensures` — a history leaves its message, and with room it breaks no precondition
* `afterCalls_sign_never_returns` — what becomes of a signer without room
* `pss_signature_accepted` — what a signer returns has full length and is verified
-/

namespace PublicKeyCrypto.Pss

/-! ## Histories -/

/-- A call of a signer that has been set up. -/
inductive Request
  | update (data : Bytes)
  | sign
  | verify (signature : Bytes)

/-- The data that a call adds to the message, if it is an update. -/
def Request.data? : Request → Option Bytes
  | update data => some data
  | sign => none
  | verify _ => none

/-- The message that a history leaves: the data of the updates since the last signature or
verification, in order. -/
def sinceLast (history : List Request) : Bytes :=
  ((history.rtakeWhile fun call => call.data?.isSome).filterMap Request.data?).flatten

/-- An update adds its data, and any other call drops the message. -/
theorem sinceLast_concat (history : List Request) (call : Request) :
    sinceLast (history ++ [call]) =
      match call.data? with
      | some data => sinceLast history ++ data
      | none => [] := by
  unfold sinceLast
  rw [List.rtakeWhile_concat]
  cases data : call.data? with
  | none => rfl
  | some added => simp [data]

variable {E S P : Type}

/-- The signer with another message. -/
def withMessage (s : Pss E) (message : Bytes) : Pss E := { s with message }

/-- Signers for the same encoding of messages, whatever their keys and messages. -/
structure SameEncoding (s t : Pss E) : Prop where
  content : t.content = s.content
  maskHash : t.maskHash = s.maskHash
  saltLength : t.saltLength = s.saltLength
  trailer : t.trailer = s.trailer

namespace SameEncoding

variable {s t u : Pss E}

theorem symm (h : s.SameEncoding t) : t.SameEncoding s :=
  ⟨h.content.symm, h.maskHash.symm, h.saltLength.symm, h.trailer.symm⟩

theorem trans (h : s.SameEncoding t) (h' : t.SameEncoding u) : s.SameEncoding u :=
  ⟨h'.content.trans h.content, h'.maskHash.trans h.maskHash, h'.saltLength.trans h.saltLength,
    h'.trailer.trans h.trailer⟩

/-- Over as many bits there is the same room. -/
theorem roomy_iff (h : s.SameEncoding t) (emBits : t.emBits = s.emBits) : t.Roomy ↔ s.Roomy := by
  unfold Roomy
  rw [h.content, h.saltLength, emBits]

/-- Over as many bits the encoded messages are the same. -/
theorem encoded_eq (h : s.SameEncoding t) (emBits : t.emBits = s.emBits)
    (messageDigest salt : Bytes) : t.encoded messageDigest salt = s.encoded messageDigest salt := by
  unfold encoded saltBlock saltedDigest surplus zerosLength emLength
  rw [h.content, h.maskHash, h.saltLength, h.trailer, emBits]

end SameEncoding

/-- A signer that has been set up, with a key that has passed the test of its size. -/
structure Ready (s : Pss E) : Prop where
  initialised : s.initialised = true
  large : s.leastBits.toNat ≤ s.emBits

variable [AsymmetricCipher E S P]

/-- The signer after a call. -/
def call (s : Pss E) : Request → Draw (Pss E)
  | .update data => pure (s.update data)
  | .sign => Prod.snd <$> s.sign
  | .verify signature => Prod.snd <$> s.verify signature

/-- The signer after the calls of a history. -/
def afterCalls (s : Pss E) (history : List Request) : Draw (Pss E) := history.foldlM call s

theorem afterCalls_concat (s : Pss E) (history : List Request) (request : Request) :
    s.afterCalls (history ++ [request]) = s.afterCalls history >>= fun t => t.call request := by
  rw [afterCalls, List.foldlM_append]
  simp only [List.foldlM_cons, List.foldlM_nil, bind_pure]
  rfl

/-! ## One call -/

/-- Which keys are taken, and what a signer is after it has taken one. -/
theorem init_eq_ok_iff {s s' : Pss E} {task : Task} {key : KeyHalf S P} :
    s.init task key = (.ok (), s') ↔
      ∃ cipher, AsymmetricCipher.init s.cipher task.direction key = (.ok (), cipher) ∧
        s' = { s with
          cipher, message := [], emBits := AsymmetricCipher.keySize cipher - 1,
          initialised := true } ∧
        s'.leastBits.toNat ≤ s'.emBits := by
  unfold init
  rcases taken : AsymmetricCipher.init s.cipher task.direction key with ⟨_ | ⟨⟩, cipher⟩
  · simp
  · dsimp only
    split
    · next small =>
      constructor
      · rintro ⟨⟩
      · rintro ⟨cipher', same, rfl, large⟩
        cases same
        exact absurd small (not_lt.mpr large)
    · next large =>
      constructor
      · rintro ⟨⟩
        exact ⟨cipher, rfl, rfl, not_lt.mp large⟩
      · rintro ⟨cipher', same, rfl, -⟩
        cases same
        rfl

/-- A key that was taken leaves room, unless the sum that it was compared with wraps around. -/
theorem roomy_of_init {s s' : Pss E} {task : Task} {key : KeyHalf S P}
    (taken : s.init task key = (.ok (), s')) (fits : s.Fits) : s'.Roomy := by
  obtain ⟨cipher, -, rfl, large⟩ := init_eq_ok_iff.mp taken
  exact Fits.roomy fits large

/-- Faults are among the halts that are allowed, if there is no room. -/
def MayFault (s : Pss E) (halts : Halt → Prop) : Prop := ¬s.Roomy → ∀ broken, halts (.fault broken)

variable {halts : Halt → Prop} {s : Pss E}

theorem Roomy.mayFault (roomy : s.Roomy) : s.MayFault halts := fun cramped => absurd roomy cramped

/-- After a key was taken, faults have to be allowed only for a sum that wraps around. -/
theorem mayFault_of_init {s' : Pss E} {task : Task} {key : KeyHalf S P}
    (taken : s.init task key = (.ok (), s'))
    (wraps : ¬s.Fits → ∀ broken, halts (.fault broken)) : s'.MayFault halts :=
  fun cramped => wraps fun fits => cramped (roomy_of_init taken fits)

/-- Signing encodes the message with some salt and hands it to the cipher, if there is room. -/
theorem sign_ensures (ready : s.Ready) (faults : s.MayFault halts)
    {Q : Reply (Pss E) Bytes → Prop}
    (h : s.Roomy → ∀ salt : Bytes, salt.length = s.saltLength.toNat →
      (AsymmetricCipher.process s.cipher (s.encoded (s.content.digest s.message) salt)).run.Ensures
        halts fun answer => Q (answer, s.withMessage [])) :
    s.sign.Ensures halts Q := by
  unfold sign
  rw [if_neg (by rw [ready.initialised]; decide)]
  refine Draw.ensures_bind (Draw.ensures_bytes fun salt length => ?_)
  by_cases roomy : s.Roomy
  · rw [encode_eq roomy length]
    refine Draw.ensures_bind (Draw.ensures_pure ?_)
    exact Draw.ensures_bind
      ((h roomy salt length).mono fun answer outcome => Draw.ensures_pure outcome)
  · obtain ⟨broken, encoding⟩ := exists_encode_eq_error (s := s) roomy length
    rw [encoding]
    exact fun _ _ _ => faults roomy broken

/-- Verification checks what the cipher makes of the signature; a signature of an impossible length
or value is invalid. -/
theorem verify_ensures (ready : s.Ready) (faults : s.MayFault halts)
    {signature : Bytes} {Q : Reply (Pss E) Bool → Prop}
    (h : (AsymmetricCipher.process s.cipher signature).run.Ensures halts fun answer =>
      match answer with
      | .error (.dataLength _) => Q (.ok false, s.withMessage [])
      | .error e => Q (.error e, s.withMessage [])
      | .ok input => ∀ valid, s.isConsistent (s.content.digest s.message) input = .ok valid →
          Q (.ok valid, s.withMessage [])) :
    (s.verify signature).Ensures halts Q := by
  unfold verify
  rw [if_neg (by rw [ready.initialised]; decide)]
  refine Draw.ensures_bind (h.mono fun answer outcome => ?_)
  rcases answer with e | input
  · cases e <;> exact Draw.ensures_pure outcome
  · dsimp only
    cases checked : s.isConsistent (s.content.digest s.message) input with
    | ok valid =>
        exact Draw.ensures_bind (Draw.ensures_pure (Draw.ensures_pure (outcome valid checked)))
    | error broken =>
        refine fun _ _ _ => faults (fun roomy => ?_) broken
        obtain ⟨valid, checked'⟩ := exists_isConsistent_eq roomy (s.content.digest s.message) input
        rw [checked] at checked'
        cases checked'

/-- **One call.**  Whatever is answered, a call adds its data to the message or drops it, and
changes nothing else.  If there is room, it halts for no other reason than the cipher. -/
theorem call_ensures (ready : s.Ready) (faults : s.MayFault halts)
    (cipher : ∀ input : Bytes,
      (AsymmetricCipher.process s.cipher input).run.Ensures halts fun _ => True)
    (request : Request) :
    (s.call request).Ensures halts
      (· = s.withMessage (match request.data? with
        | some data => s.message ++ data
        | none => [])) := by
  cases request with
  | update data => exact Draw.ensures_pure rfl
  | sign =>
      exact Draw.ensures_map
        (sign_ensures ready faults fun _ salt _ => (cipher _).mono fun _ _ => rfl)
  | verify signature =>
      refine Draw.ensures_map
        (verify_ensures ready faults ((cipher signature).mono fun answer _ => ?_))
      rcases answer with e | input
      · cases e <;> rfl
      · exact fun _ _ => rfl

/-- **A history.**  Its message is left, and nothing else has changed.  The induction adds one call
at the end, as the message that is left does. -/
theorem afterCalls_ensures (ready : s.Ready) (faults : s.MayFault halts) (empty : s.message = [])
    (cipher : ∀ input : Bytes,
      (AsymmetricCipher.process s.cipher input).run.Ensures halts fun _ => True)
    (history : List Request) :
    (s.afterCalls history).Ensures halts (· = s.withMessage (sinceLast history)) := by
  induction history using List.reverseRecOn with
  | nil =>
      have same : s.withMessage [] = s := by rw [← empty]; rfl
      exact Draw.ensures_pure (same ▸ rfl)
  | append_singleton history request ih =>
      rw [afterCalls_concat, sinceLast_concat]
      refine Draw.ensures_bind (ih.mono ?_)
      rintro _ rfl
      exact call_ensures (s := s.withMessage (sinceLast history)) ⟨ready.initialised, ready.large⟩
        faults cipher request

/-- **Without room** a signer never signs, whatever it has been used for. -/
theorem afterCalls_sign_never_returns (ready : s.Ready) (cramped : ¬s.Roomy)
    (empty : s.message = []) (history : List Request) :
    (s.afterCalls history >>= sign).Yields fun _ => False := by
  have served := afterCalls_ensures ready (fun _ _ => trivial) empty
    (fun _ => Draw.yields_iff.mpr fun _ _ _ _ _ _ => trivial) history
  refine Draw.ensures_bind (served.mono ?_)
  rintro _ rfl
  exact sign_ensures (s := s.withMessage (sinceLast history)) ⟨ready.initialised, ready.large⟩
    (fun _ _ => trivial) fun roomy => absurd roomy cramped

/-! ## The two halves of an RSA key pair -/

/-- A signer over the RSA permutation, as a key leaves it. -/
structure Keyed (s : Pss Rsa.Cipher) (direction : Direction) (key : Rsa.Key) : Prop
    extends s.Ready where
  cipher : s.cipher = .keyed direction key
  emBits : s.emBits = bitLength (Rsa.Key.modulus key) - 1
  message : s.message = []

/-- A key that is taken is set, with the size that goes with it, and the encoding stays. -/
theorem keyed_of_init {s s' : Pss Rsa.Cipher} {task : Task} {key : Rsa.Key}
    (taken : s.init task key = (.ok (), s')) :
    s'.Keyed task.direction key ∧ s.SameEncoding s' := by
  obtain ⟨cipher, set, rfl, large⟩ := init_eq_ok_iff.mp taken
  cases set
  exact ⟨⟨⟨rfl, large⟩, rfl, rfl, rfl⟩, ⟨rfl, rfl, rfl, rfl⟩⟩

namespace Keyed

variable {direction : Direction} {key : Rsa.Key} {k : Rsa.PrivateKey} {s : Pss Rsa.Cipher}
variable {messageDigest salt : Bytes}

theorem emLength_le (h : s.Keyed direction key) :
    s.emLength ≤ byteLength (Rsa.Key.modulus key) := by
  unfold emLength byteLength
  rw [h.emBits]
  omega

/-- **The number fits.**  An encoded message is a number below the modulus. -/
theorem value_encoded_lt_modulus (h : s.Keyed direction key) (roomy : s.Roomy)
    (length : salt.length = s.saltLength.toNat) :
    (s.encoded messageDigest salt).value < Rsa.Key.modulus key := by
  have large : 2 ^ s.emBits ≤ Rsa.Key.modulus key := by
    by_contra small
    have bits := bitLength_le_iff.mpr (not_le.mp small)
    have nonzero := s.leastBits_pos.trans_le h.large
    rw [h.emBits] at bits nonzero
    omega
  exact (value_encoded_lt roomy length).trans_le large

/-- With the private half an encoded message is signed by its root, written over all bytes of the
modulus.  What has been signed had room. -/
theorem signs_root (hk : k.Consistent) (h : s.Keyed .encrypt (.ofPrivate k))
    {halts : Halt → Prop} (exhaustible : halts .exhausted) (faults : s.MayFault halts)
    (message : Bytes) :
    (s.withMessage message).sign.Ensures halts fun reply =>
      s.Roomy ∧ ∃ salt : Bytes, salt.length = s.saltLength.toNat ∧
        reply.1 = .ok (Rsa.Cipher.encoding .encrypt k.modulus
          (hk.root (s.encoded (s.content.digest message) salt).value)) := by
  refine sign_ensures (s := s.withMessage message) ⟨h.initialised, h.large⟩ faults
    fun roomy salt length => ?_
  have fits : (s.encoded (s.content.digest message) salt).length ≤ byteLength k.modulus :=
    (length_encoded (s := s) roomy length).trans_le h.emLength_le
  have signed := hk.process_half_always .encrypt true fits (h.value_encoded_lt_modulus roomy length)
  rw [← show s.cipher = Rsa.Cipher.keyed .encrypt (k.half true) from h.cipher] at signed
  exact (signed.mono_halts fun _ exhausted => exhausted ▸ exhaustible).mono
    fun answer answered => ⟨roomy, salt, length, answered⟩

/-- **The number comes back.**  With the public half the root of an encoded message is verified: it
is decrypted to the shortest encoding of the encoded message, which passes the check. -/
theorem verify_returns (hk : k.Consistent) (h : s.Keyed .decrypt (.ofPublic k.publicKey))
    (roomy : s.Roomy) (message : Bytes) (length : salt.length = s.saltLength.toNat) :
    ((s.withMessage message).verify (Rsa.Cipher.encoding .encrypt k.modulus
        (hk.root (s.encoded (s.content.digest message) salt).value))).Returns
      fun reply => reply.1 = .ok true := by
  set em := s.encoded (s.content.digest message) salt with hem
  have total : em.length = s.emLength := length_encoded roomy length
  have below : em.value < k.modulus := h.value_encoded_lt_modulus roomy length
  have root := hk.root_lt em.value
  have decrypted := Rsa.Cipher.run_process_public .decrypt
    (Rsa.Cipher.encoding .encrypt k.modulus (hk.root em.value)) k.publicKey
    (Rsa.Cipher.length_encoding_le .encrypt root)
    (by rwa [Rsa.Cipher.value_encoding .encrypt root])
  rw [Rsa.Cipher.value_encoding .encrypt root, k.publicKey_exponent, k.publicKey_modulus,
    hk.root_pow_mod below, ← h.cipher] at decrypted
  refine verify_ensures (s := s.withMessage message) ⟨h.initialised, h.large⟩ roomy.mayFault ?_
  show (s.cipher.process _).run.Ensures _ _
  rw [decrypted]
  refine Draw.ensures_pure fun valid checked => ?_
  have passes : s.isConsistent (s.content.digest message) (Bytes.minimal em.value) = .ok true :=
    isConsistent_encoded roomy length (total ▸ Bytes.length_minimal_value_le em)
      (total ▸ Bytes.zeros_append_minimal em)
  exact congrArg Except.ok (Except.ok.inj (checked.symm.trans passes))

end Keyed

/-- **Signatures are accepted.**  A signer with the private half of a consistent key and a verifier
with the public half, both set up for one encoding, serve any calls.  If these leave both with the
same message, then what the signer returns next has as many bytes as the modulus, and the verifier
accepts it.  The signer halts only in the blinding loop, unless the sum of its sizes wraps around;
the verifier always answers. -/
theorem pss_signature_accepted {k : Rsa.PrivateKey} (hk : k.Consistent)
    {signer verifier s v : Pss Rsa.Cipher} (same : signer.SameEncoding verifier)
    (hs : signer.init .sign (.ofPrivate k) = (.ok (), s))
    (hv : verifier.init .verify (.ofPublic k.publicKey) = (.ok (), v))
    (history history' : List Request) (message : sinceLast history' = sinceLast history) :
    (s.afterCalls history >>= sign).Ensures (fun halt => halt = .exhausted ∨ ¬signer.Fits)
      fun reply => ∃ signature,
        reply.1 = .ok signature ∧ signature.length = byteLength k.modulus ∧
        (v.afterCalls history' >>= fun v => v.verify signature).Returns fun reply =>
          reply.1 = .ok true := by
  obtain ⟨s_keyed, s_same⟩ := keyed_of_init hs
  obtain ⟨v_keyed, v_same⟩ := keyed_of_init hv
  have s_total : ∀ input : Bytes, (AsymmetricCipher.process s.cipher input).run.Ensures
      (fun halt => halt = .exhausted ∨ ¬signer.Fits) fun _ => True := fun input =>
    s_keyed.cipher ▸ (hk.process_half_ensures .encrypt true input).mono_halts fun _ h => .inl h.2
  have v_total : ∀ input : Bytes,
      (AsymmetricCipher.process v.cipher input).run.Returns fun _ => True := fun input =>
    v_keyed.cipher ▸ (hk.process_half_ensures .decrypt false input).mono_halts
      fun _ h => Bool.false_ne_true h.1
  have s_faults : s.MayFault fun halt => halt = .exhausted ∨ ¬signer.Fits :=
    mayFault_of_init hs fun wraps _ => .inr wraps
  have s_session := afterCalls_ensures s_keyed.toReady s_faults s_keyed.message s_total history
  refine Draw.ensures_bind (s_session.mono ?_)
  rintro _ rfl
  refine (s_keyed.signs_root hk (.inl rfl) s_faults (sinceLast history)).mono ?_
  rintro reply ⟨roomy, salt, length, answered⟩
  refine ⟨_, answered, Bytes.length_wide _ _, ?_⟩
  -- The verifier has the same room, since both moduli are the same.
  have encoding := s_same.symm.trans (same.trans v_same)
  have emBits : v.emBits = s.emBits := v_keyed.emBits.trans s_keyed.emBits.symm
  have v_roomy : v.Roomy := (encoding.roomy_iff emBits).mpr roomy
  have v_session :=
    afterCalls_ensures v_keyed.toReady v_roomy.mayFault v_keyed.message v_total history'
  refine Draw.ensures_bind (v_session.mono ?_)
  rintro _ rfl
  rw [message, ← encoding.encoded_eq emBits, ← encoding.content]
  exact v_keyed.verify_returns hk v_roomy (sinceLast history)
    (length.trans (congrArg BitVec.toNat encoding.saltLength.symm))

/-! ## A signature without zeros in front of its salt -/

/-- A digest of one byte. -/
def byteSum : Hash where
  size := 1
  blockSize := 1
  digest message := [message.sum]
  size_pos := by decide
  length_digest _ := rfl

/-- A key with just the bits that a digest and a salt of one byte each need. -/
def tightKey : Rsa.PrivateKey where
  modulus := 33574909
  publicExponent := 11
  privateExponent := 21358031
  p := 8191
  q := 4099
  dp := 6701
  dq := 3353
  qinv := 5851

theorem tightKey_consistent : tightKey.Consistent where
  p_prime := by norm_num [tightKey]
  q_prime := by norm_num [tightKey]
  p_odd := by decide
  q_odd := by decide
  distinct := by decide
  modulus_eq := rfl
  dp_inverse := rfl
  dq_inverse := rfl
  qinv_inverse := rfl
  dp_lt := by decide
  dq_lt := by decide
  qinv_lt := by decide

/-- The byte in front of the salt stands in the one bit that is left of the first byte.  The signer
has dropped a message that it refused to verify, and takes the next in other pieces than the
verifier, which has failed to sign. -/
theorem pss_signature_accepted_in_tight_modulus :
    let signer : Pss Rsa.Cipher :=
      { cipher := {}, content := byteSum, maskHash := byteSum, saltLength := 1 }
    let s := (signer.init .sign (.ofPrivate tightKey)).2
    let v := (signer.init .verify (.ofPublic tightKey.publicKey)).2
    let history : List Request := [.update [0xAA], .verify [0x00], .update [1, 2], .update [3]]
    let history' : List Request := [.update [7], .sign, .update [1], .update [2, 3]]
    let signature : Bytes := [0x01, 0xB4, 0x42, 0xCC]
    tightKey.Consistent ∧
      signer.init .sign (.ofPrivate tightKey) = (.ok (), s) ∧
      signer.init .verify (.ofPublic tightKey.publicKey) = (.ok (), v) ∧
      s.emBits = 8 * s.content.size + 8 * s.saltLength.toNat + 9 ∧
      sinceLast history' = sinceLast history ∧
      (Prod.fst <$> (s.afterCalls history >>= sign)).run (fun _ => 1) 1 0 =
        .ok (.ok signature, 9) ∧
      signature.length = byteLength tightKey.modulus ∧
      (v.afterCalls history' >>= fun v => v.verify signature).Returns fun reply =>
        reply.1 = .ok true := by
  intro signer s v history history' signature
  have set : signer.init .sign (.ofPrivate tightKey) = (.ok (), s) := rfl
  have set' : signer.init .verify (.ofPublic tightKey.publicKey) = (.ok (), v) := rfl
  have message : sinceLast history' = sinceLast history := rfl
  have signed : (Prod.fst <$> (s.afterCalls history >>= sign)).run (fun _ => 1) 1 0 =
      .ok (.ok signature, 9) := by decide +kernel
  obtain ⟨⟨_, s'⟩, run, rfl⟩ := Draw.exists_run_of_map signed
  obtain ⟨signature', answered, length, accepted⟩ :=
    (pss_signature_accepted tightKey_consistent ⟨rfl, rfl, rfl, rfl⟩ set set' history history'
      message).value run
  cases answered
  exact ⟨tightKey_consistent, set, set', rfl, message, signed, length, accepted⟩

end PublicKeyCrypto.Pss
