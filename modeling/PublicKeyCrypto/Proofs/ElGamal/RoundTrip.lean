import PublicKeyCrypto.Proofs.ElGamal.Operation

/-!
# Encrypted numbers come back

The cipher takes a string exactly if it is the encoding, leading zeros allowed, of a number below
the modulus over at most the bytes of the modulus.  Its announced input size is one byte less than
that.  A string that is taken is encrypted on every tape on which an exponent is found; the
ciphertext has one shape, and decryption takes every string of this shape and no other.

What comes back is the number and not the string: its shortest encoding, which is empty for zero.

## Main Results

* `PrivateKey.exists_decrypt` — decryption of numbers breaks no precondition
* `elGamal_round_trip` — both directions, on all strings
-/

namespace PublicKeyCrypto.ElGamal

open Cipher

/-- Every two numbers decrypt to a number below the modulus. -/
theorem PrivateKey.exists_decrypt {k : PrivateKey} (range : k.x ≤ k.group.p - 1) (gamma phi : ℕ) :
    ∃ m, m < k.group.p ∧ k.decrypt gamma phi = .ok m := by
  have positive : 0 < k.group.p := by
    have := k.group.two_le_pred
    omega
  refine ⟨powMod gamma (k.group.p - 1 - k.x) k.group.p * phi % k.group.p, ?_, ?_⟩
  · exact Nat.mod_lt _ positive
  · rw [decrypt, difference_of_le range]
    rfl

/-- What is encrypted has the shape of a ciphertext, and decrypts to the number. -/
theorem Cipher.isPair_encrypted {k : PrivateKey} (prime : k.group.p.Prime)
    (range : k.x ≤ k.group.p - 1) {m : ℕ} (below : m < k.group.p) (exponent : ℕ) :
    IsPair k.group.p (pair k.group.p (k.publicKey.encrypt m exponent)) ∧
      ((decrypting k).process (pair k.group.p (k.publicKey.encrypt m exponent))).run =
        pure (.ok (Bytes.minimal m)) := by
  have gamma : (k.publicKey.encrypt m exponent).1 < k.group.p := powMod_lt _ _ prime.pos
  have phi : (k.publicKey.encrypt m exponent).2 < k.group.p := Nat.mod_lt _ prime.pos
  constructor
  · exact isPair_pair gamma phi
  · apply run_process_decrypting gamma phi
    exact PrivateKey.decrypt_encrypt prime range below exponent

/-- **Encryption and decryption.**  With a prime modulus and the two halves of a key pair, whatever
keys the two ciphers had before:

* on every tape on which an exponent is found, a string is encrypted exactly if it is not too long
  and its number is below the modulus;
* a ciphertext has twice the bytes of the modulus, both its halves are below the modulus, and it
  decrypts to the shortest encoding of the number;
* strings that are not encrypted are refused, and so are those that are no ciphertexts. -/
theorem elGamal_round_trip {k : PrivateKey} (prime : k.group.p.Prime)
    (range : 1 ≤ k.x ∧ k.x ≤ k.group.p - 2) (e e' : Cipher) :
    let encryptor := (e.init .encrypt (.ofPublic k.publicKey)).2
    let decryptor := (e'.init .decrypt (.ofPrivate k)).2
    let taken (input : Bytes) : Prop :=
      input.length ≤ encryptor.inputSize + 1 ∧ input.value < k.group.p
    (∀ (input : Bytes) (tape : Tape) (patience start exponent stop : ℕ),
      (Draw.positiveBelow (k.group.p - 1)).run tape patience start = .ok (exponent, stop) →
      ((∃ c, (encryptor.process input).run.run tape patience start = .ok (.ok c, stop)) ↔
        taken input)) ∧
    (∀ (input : Bytes) (tape : Tape) (patience start : ℕ) (c : Bytes) (stop : ℕ),
      (encryptor.process input).run.run tape patience start = .ok (.ok c, stop) →
      IsPair k.group.p c ∧ (decryptor.process c).run = pure (.ok (Bytes.minimal input.value))) ∧
    (∀ input, ¬taken input →
      (encryptor.process input).run = pure (.error (.dataLength .elGamalInput))) ∧
    (∀ c, IsPair k.group.p c →
      ∃ m, m < k.group.p ∧ (decryptor.process c).run = pure (.ok (Bytes.minimal m))) ∧
    ∀ c, ¬IsPair k.group.p c →
      ∃ cause, (decryptor.process c).run = pure (.error (.dataLength cause)) := by
  intro encryptor decryptor taken
  have exponents : k.x ≤ k.group.p - 1 := by omega
  have encrypted : ∀ input, taken input → (encryptor.process input).run =
      (fun exponent => .ok (pair k.group.p (k.publicKey.encrypt input.value exponent))) <$>
        Draw.positiveBelow (k.group.p - 1) := by
    intro input fits
    exact run_process_encrypting k.publicKey fits.1 fits.2
  have refused : ∀ input, ¬taken input →
      (encryptor.process input).run = pure (.error (.dataLength .elGamalInput)) := by
    intro input outside
    exact run_process_encrypting_outside k.publicKey outside
  refine ⟨?_, ?_, refused, ?_, ?_⟩
  · intro input tape patience start exponent stop drawn
    constructor
    · rintro ⟨c, run⟩
      by_contra outside
      rw [refused input outside] at run
      cases run
    · intro fits
      rw [encrypted input fits, Draw.run_map, drawn]
      exact ⟨_, rfl⟩
  · intro input tape patience start c stop run
    by_cases fits : taken input
    · rw [encrypted input fits] at run
      obtain ⟨exponent, -, same⟩ := Draw.exists_run_of_map run
      cases same
      exact isPair_encrypted prime exponents fits.2 exponent
    · rw [refused input fits] at run
      cases run
  · intro c whole
    obtain ⟨m, below, decrypted⟩ := k.exists_decrypt exponents
      (Bytes.value (c.take (byteLength k.group.p))) (Bytes.value (c.drop (byteLength k.group.p)))
    exact ⟨m, below, run_process_of_isPair whole decrypted⟩
  · intro c other
    by_cases length : c.length = 2 * byteLength k.group.p
    · refine ⟨_, run_process_of_large length ?_⟩
      by_contra small
      obtain ⟨first, second⟩ := not_or.mp small
      exact other ⟨length, not_le.mp first, not_le.mp second⟩
    · exact ⟨_, run_process_of_length length⟩

/-- A key with a modulus of 17 bits and the greatest private exponent. -/
def fermatPrivate : PrivateKey where
  x := 65535
  group :=
    { p := 65537
      g := 3
      privateLength := 0
      p_size := by decide
      p_odd := by decide
      g_range := by decide
      length_range := .inl rfl }

/-- The greatest number needs a byte more than the input size.  The first candidate for an exponent
is out of range, and the second is five.  The modulus is refused, as a message and as one half of a
ciphertext. -/
theorem elGamal_round_trip_of_greatest_number :
    let encryptor := (({} : Cipher).init .encrypt (.ofPublic fermatPrivate.publicKey)).2
    let decryptor := (({} : Cipher).init .decrypt (.ofPrivate fermatPrivate)).2
    let tape : Tape := fun i => [0x01, 0x01, 0x01, 0x00, 0x00, 0x05].getD i 0
    let input : Bytes := [0x01, 0x00, 0x00]
    fermatPrivate.group.p.Prime ∧
      (1 ≤ fermatPrivate.x ∧ fermatPrivate.x ≤ fermatPrivate.group.p - 2) ∧
      input.length = encryptor.inputSize + 1 ∧
      (Draw.positiveBelow (fermatPrivate.group.p - 1)).run tape 2 0 = .ok (5, 6) ∧
      (∃ c, (encryptor.process input).run.run tape 2 0 = .ok (.ok c, 6) ∧
        IsPair fermatPrivate.group.p c ∧ (decryptor.process c).run = pure (.ok input)) ∧
      (encryptor.process [0x01, 0x00, 0x01]).run = pure (.error (.dataLength .elGamalInput)) ∧
      ∃ cause, (decryptor.process [0x01, 0x00, 0x01, 0x00, 0x00, 0x00]).run =
        pure (.error (.dataLength cause)) := by
  intro encryptor decryptor tape input
  have prime : fermatPrivate.group.p.Prime := by norm_num [fermatPrivate]
  have range : 1 ≤ fermatPrivate.x ∧ fermatPrivate.x ≤ fermatPrivate.group.p - 2 := by decide
  have drawn : (Draw.positiveBelow (fermatPrivate.group.p - 1)).run tape 2 0 = .ok (5, 6) := by
    decide +kernel
  obtain ⟨succeeds, shape, outside, -, other⟩ := elGamal_round_trip prime range {} {}
  obtain ⟨c, run⟩ := (succeeds input tape 2 0 5 6 drawn).mpr (by decide)
  obtain ⟨whole, decrypted⟩ := shape input tape 2 0 c 6 run
  rw [Bytes.minimal_value_cons (by decide) _] at decrypted
  have large : ¬IsPair fermatPrivate.group.p [0x01, 0x00, 0x01, 0x00, 0x00, 0x00] :=
    fun pair => absurd pair.first (by decide)
  exact ⟨prime, range, by decide, drawn, ⟨c, run, whole, decrypted⟩, outside _ (by decide),
    other _ large⟩

end PublicKeyCrypto.ElGamal
