import PublicKeyCrypto.Hash.Sha1
import PublicKeyCrypto.Proofs.Cipher.Stack
import PublicKeyCrypto.Proofs.ElGamal.Operation
import PublicKeyCrypto.Proofs.Rsa.Operation
import Mathlib

/-!
# Encodings over RSA and ElGamal deliver messages

The two ciphers carry blocks: a block of the announced size is a number below the modulus, whatever
its bytes are, since the announced size is one byte short of the modulus unless the modulus fills
its first byte up to the last bit; and the number comes back in the shortest form, which is the
block without its leading zeros.  For RSA either half of a key pair may encrypt.

With that, every stack of encodings over either cipher delivers every message that fits.

## Main Results

* `Rsa.Cipher.carries`, `ElGamal.Cipher.carries` — what the ciphers carry
* `stack_delivers` — what every stack of encodings over them delivers
-/

namespace PublicKeyCrypto

/-- A block one byte shorter than the modulus, rounded down, is a number below it. -/
theorem value_lt_of_short {modulus : ℕ} (positive : 0 < modulus) {block : Bytes}
    (short : block.length ≤ (bitLength modulus - 1) / 8) : block.value < modulus := by
  have bits : 0 < bitLength modulus := by
    by_contra none
    have := bitLength_le_iff.mp (not_lt.mp none)
    omega
  calc block.value < 256 ^ block.length := Bytes.value_lt block
    _ ≤ modulus := pow_le_of_lt_bitLength (by omega)

/-- Such a block is not longer than the modulus. -/
theorem length_le_of_short {modulus : ℕ} {block : Bytes}
    (short : block.length ≤ (bitLength modulus - 1) / 8) : block.length ≤ byteLength modulus := by
  rw [byteLength]
  omega

namespace Rsa.Cipher

variable {k : PrivateKey}

/-- **RSA carries blocks**, from either half of a key pair to the other. -/
theorem carries (hk : k.Consistent) (isPrivate : Bool) (e : Cipher) :
    (CipherView.ofCipher (AsymmetricCipher.init e .encrypt (k.half isPrivate)).2).Carries
      (CipherView.ofCipher (AsymmetricCipher.init e .decrypt (k.half !isPrivate)).2) := by
  have positive : 0 < k.modulus := Nat.zero_lt_two.trans_le hk.two_le_modulus
  have modulus (b : Bool) : Key.modulus (k.half b) = k.modulus := by
    cases b <;> rfl
  constructor
  · show shortSize (bitLength (Key.modulus _)) = shortSize (bitLength (Key.modulus _))
    rw [modulus, modulus]
  · intro block short
    replace short : block.length ≤ shortSize (bitLength (Key.modulus (k.half isPrivate))) := short
    rw [modulus] at short
    have below := value_lt_of_short positive short
    have small := hk.image_lt isPrivate block.value
    refine (hk.process_half_always .encrypt isPrivate (length_le_of_short short) below).mono ?_
    rintro answer rfl
    have back := hk.process_half_always .decrypt (!isPrivate) (length_encoding_le .encrypt small)
      (by rwa [value_encoding .encrypt small])
    rw [value_encoding .encrypt small, hk.image_image isPrivate below] at back
    refine ⟨_, rfl, ?_, back.mono ?_⟩
    · show (Bytes.wide _ _).length = fullSize (bitLength (Key.modulus _))
      rw [Bytes.length_wide, modulus]
      rfl
    · -- What comes back is the shortest form of the number that the block encodes.
      rintro answer rfl
      exact ⟨_, _, rfl, Bytes.zeros_append_minimal block⟩

end Rsa.Cipher

namespace ElGamal.Cipher

variable {k : PrivateKey}

/-- **ElGamal carries blocks** from the public half of a key pair to the private one, for a prime
modulus. -/
theorem carries (prime : k.group.p.Prime) (range : k.x ≤ k.group.p - 1) (e : Cipher) :
    (CipherView.ofCipher (AsymmetricCipher.init e .encrypt (.ofPublic k.publicKey)).2).Carries
      (CipherView.ofCipher (AsymmetricCipher.init e .decrypt (.ofPrivate k)).2) := by
  refine ⟨rfl, fun block short => ?_⟩
  have below := value_lt_of_short prime.pos short
  refine (process_encrypting k.publicKey (Nat.le_succ_of_le short) below).mono ?_
  rintro answer ⟨exponent, rfl⟩
  have decrypted := PrivateKey.decrypt_encrypt prime range below exponent
  have done := run_process_decrypting (powMod_lt k.group.g exponent prime.pos)
    (Nat.mod_lt _ prime.pos) decrypted
  refine ⟨_, rfl, ?_, ?_⟩
  · rw [length_pair, Nat.mul_comm]
    rfl
  · show ((decrypting k).process _).run.Always _
    rw [show k.publicKey.group.p = k.group.p from rfl]
    rw [done]
    exact Draw.ensures_pure ⟨_, _, rfl, Bytes.zeros_append_minimal block⟩

end ElGamal.Cipher

/-- **Stacks of encodings deliver messages.**  For every stack of at least one layer, in any state
that it was left in, over RSA or ElGamal: once one copy has accepted one half of a key pair to
encrypt and another copy the other half to decrypt, every message is encrypted exactly if it is
not longer than announced, to as many bytes as announced, and decrypted to itself, on every tape
on which the calls return.  Over RSA either half may encrypt. -/
theorem stack_delivers :
    (∀ k : Rsa.PrivateKey, k.Consistent → ∀ key key' : Rsa.Key,
      (key = .ofPublic k.publicKey ∧ key' = .ofPrivate k ∨
        key = .ofPrivate k ∧ key' = .ofPublic k.publicKey) →
      ∀ (top : Layer) (below : CipherStack Rsa.Cipher), (CipherStack.layer top below).Ordinary →
      ((CipherStack.layer top below).init .encrypt key).1 = .ok () →
      ((CipherStack.layer top below).init .decrypt key').1 = .ok () →
      ∀ message : Bytes, ((CipherStack.layer top below).init .encrypt key).2.view.Delivers
        ((CipherStack.layer top below).init .decrypt key').2.view message) ∧
    (∀ k : ElGamal.PrivateKey, k.group.p.Prime → 1 ≤ k.x → k.x ≤ k.group.p - 2 →
      ∀ (top : Layer) (below : CipherStack ElGamal.Cipher),
      (CipherStack.layer top below).Ordinary →
      ((CipherStack.layer top below).init .encrypt (.ofPublic k.publicKey)).1 = .ok () →
      ((CipherStack.layer top below).init .decrypt (.ofPrivate k)).1 = .ok () →
      ∀ message : Bytes,
        ((CipherStack.layer top below).init .encrypt (.ofPublic k.publicKey)).2.view.Delivers
          ((CipherStack.layer top below).init .decrypt (.ofPrivate k)).2.view message) := by
  constructor
  · intro k hk key key' halves top below ordinary accepted accepted' message
    obtain ⟨isPrivate, rfl, rfl⟩ : ∃ b, key = k.half b ∧ key' = k.half !b := by
      rcases halves with ⟨rfl, rfl⟩ | ⟨rfl, rfl⟩
      · exact ⟨false, rfl, rfl⟩
      · exact ⟨true, rfl, rfl⟩
    have opposite : (k.half !isPrivate).isPrivate = !(k.half isPrivate).isPrivate := by
      cases isPrivate <;> rfl
    exact CipherStack.delivers opposite (fun e _ _ => Rsa.Cipher.carries hk isPrivate e)
      top below ordinary accepted accepted' message
  · intro k prime _ greatest top below ordinary accepted accepted' message
    have range : k.x ≤ k.group.p - 1 := by omega
    exact CipherStack.delivers rfl (fun e _ _ => ElGamal.Cipher.carries prime range e)
      top below ordinary accepted accepted' message

/-! ## Two layers over keys from Mersenne primes -/

/-- An RSA key with factors of 127 and 521 bits. -/
def mersenneKey : Rsa.PrivateKey where
  modulus := (2 ^ 127 - 1) * (2 ^ 521 - 1)
  publicExponent := 65537
  privateExponent := (10880 * (2 ^ 127 - 2) * (2 ^ 521 - 2) + 1) / 65537
  p := 2 ^ 127 - 1
  q := 2 ^ 521 - 1
  dp := (43692 * (2 ^ 127 - 2) + 1) / 65537
  dq := (49217 * (2 ^ 521 - 2) + 1) / 65537
  qinv := 0x6dbb6ddb6edb76dbb6ddb6edb76dbb6d

theorem mersenneKey_consistent : mersenneKey.Consistent where
  p_prime := by
    rw [show mersenneKey.p = mersenne 127 by decide +kernel]
    exact lucas_lehmer_sufficiency 127 (by norm_num) (by norm_num)
  q_prime := by
    rw [show mersenneKey.q = mersenne 521 by decide +kernel]
    exact lucas_lehmer_sufficiency 521 (by norm_num) (by norm_num)
  p_odd := by decide +kernel
  q_odd := by decide +kernel
  distinct := by decide +kernel
  modulus_eq := by decide +kernel
  dp_inverse := by decide +kernel
  dq_inverse := by decide +kernel
  qinv_inverse := by decide +kernel
  dp_lt := by decide +kernel
  dq_lt := by decide +kernel
  qinv_lt := by decide +kernel

/-- An RSA key with factors of 31 and 61 bits.  A block of PKCS #1 has room for one byte. -/
def oneByteKey : Rsa.PrivateKey where
  modulus := (2 ^ 61 - 1) * (2 ^ 31 - 1)
  publicExponent := 17
  privateExponent := 4077920125612805357425763753
  p := 2 ^ 61 - 1
  q := 2 ^ 31 - 1
  dp := 1763291712928118903
  dq := 1515870809
  qinv := 2 ^ 31 + 1

theorem oneByteKey_consistent : oneByteKey.Consistent where
  p_prime := by
    rw [show oneByteKey.p = mersenne 61 by decide +kernel]
    exact lucas_lehmer_sufficiency 61 (by norm_num) (by norm_num)
  q_prime := by
    rw [show oneByteKey.q = mersenne 31 by decide +kernel]
    exact lucas_lehmer_sufficiency 31 (by norm_num) (by norm_num)
  p_odd := by decide +kernel
  q_odd := by decide +kernel
  distinct := by decide +kernel
  modulus_eq := by decide +kernel
  dp_inverse := by decide +kernel
  dq_inverse := by decide +kernel
  qinv_inverse := by decide +kernel
  dp_lt := by decide +kernel
  dq_lt := by decide +kernel
  qinv_lt := by decide +kernel

/-- An ElGamal key with a modulus of 127 bits. -/
def mersennePrivate : ElGamal.PrivateKey where
  x := 5
  group :=
    { p := 2 ^ 127 - 1
      g := 3
      privateLength := 0
      p_size := by decide +kernel
      p_odd := by decide +kernel
      g_range := by decide +kernel
      length_range := .inl rfl }

/-- PKCS #1 over OAEP over RSA, with the private half encrypting, and PKCS #1 over ElGamal: a
message that begins with a zero byte, and the empty one. -/
theorem stack_delivers_leading_zero :
    let oaep : CipherStack Rsa.Cipher :=
      .layer (.oaep { content := .sha1, maskHash := .sha1 }) (.base {})
    let elGamal : CipherStack ElGamal.Cipher := .base {}
    mersenneKey.Consistent ∧ mersennePrivate.group.p.Prime ∧
      ((CipherStack.layer (.pkcs1 {}) oaep).init .encrypt (.ofPrivate mersenneKey)).2.view.Delivers
        ((CipherStack.layer (.pkcs1 {}) oaep).init .decrypt
          (.ofPublic mersenneKey.publicKey)).2.view [0x00, 0x01] ∧
      ((CipherStack.layer (.pkcs1 {}) elGamal).init .encrypt
          (.ofPublic mersennePrivate.publicKey)).2.view.Delivers
        ((CipherStack.layer (.pkcs1 {}) elGamal).init .decrypt
          (.ofPrivate mersennePrivate)).2.view [] := by
  intro oaep elGamal
  have prime : mersennePrivate.group.p.Prime :=
    lucas_lehmer_sufficiency 127 (by norm_num) (by norm_num)
  have ordinary : (CipherStack.layer (.pkcs1 {}) oaep).Ordinary := ⟨rfl, trivial, trivial⟩
  have delivered := stack_delivers.2 mersennePrivate prime (by decide) (by decide +kernel)
    (.pkcs1 {}) elGamal ⟨rfl, trivial⟩ (by decide +kernel) (by decide +kernel) []
  have consistent := mersenneKey_consistent
  have accepted : ((CipherStack.layer (.pkcs1 {}) oaep).init .encrypt
      (.ofPrivate mersenneKey)).1 = .ok () := by decide +kernel
  have accepted' : ((CipherStack.layer (.pkcs1 {}) oaep).init .decrypt
      (.ofPublic mersenneKey.publicKey)).1 = .ok () := by decide +kernel
  -- From here on the numbers of the key play no part.
  generalize mersenneKey = k at *
  exact ⟨consistent, prime, stack_delivers.1 k consistent _ _ (.inr ⟨rfl, rfl⟩) _ oaep ordinary
    accepted accepted' [0x00, 0x01], delivered⟩

end PublicKeyCrypto
