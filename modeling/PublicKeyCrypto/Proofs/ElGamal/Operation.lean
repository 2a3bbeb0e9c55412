import PublicKeyCrypto.ElGamal.Cipher
import PublicKeyCrypto.Proofs.Number.Encoding
import PublicKeyCrypto.Proofs.Number.Modular
import PublicKeyCrypto.Proofs.Random.Outcomes
import Mathlib

/-!
# ElGamal decryption undoes encryption

A pair holds `g ^ e` and `m y ^ e` with `y = g ^ x`.  The power of the first number to `p - 1 - x`
cancels `y ^ e` by Fermat's theorem, for which the modulus must be prime and the generator not a
multiple of it.  The number `m` may be anything below the modulus, zero included.

Both halves of a ciphertext are written over all bytes of the modulus, so that they are cut apart
at the same place.

## Main Definitions

* `ElGamal.Cipher.encrypting`, `ElGamal.Cipher.decrypting` — the cipher with either half of a pair
* `ElGamal.Cipher.pair` — a ciphertext
* `ElGamal.Cipher.IsPair` — strings that can be cut into two numbers below the modulus

## Main Results

* `ElGamal.PrivateKey.decrypt_encrypt` — the operations on numbers
* `ElGamal.Cipher.run_process_encrypting` — encryption draws an exponent and nothing else
* `ElGamal.Cipher.run_process_of_isPair` — what decryption gives for a ciphertext
* `ElGamal.Cipher.run_process_encrypting_outside`, `ElGamal.Cipher.run_process_of_length`,
  `ElGamal.Cipher.run_process_of_large` — the refusals
-/

namespace PublicKeyCrypto.ElGamal

theorem Group.four_le_p (group : Group) : 4 ≤ group.p := by
  have range := group.g_range
  omega

theorem Group.two_le_pred (group : Group) : 2 ≤ group.p - 1 := by
  have large := group.four_le_p
  omega

/-- What a private key that was accepted is made of. -/
theorem PrivateKey.make_eq_ok_iff {k : PrivateKey} {x : ℕ} {group : Group} :
    PrivateKey.make x group = .ok k ↔ (1 ≤ x ∧ x ≤ group.p - 2) ∧ k = { x, group } := by
  have large := group.four_le_p
  rw [PrivateKey.make]
  split_ifs with refused
  · refine ⟨fun same => ?_, fun inside => by omega⟩
    cases same
  · refine ⟨fun same => ⟨by omega, (Except.ok.inj same).symm⟩, fun inside => by rw [inside.2]⟩

/-- The generator is not a multiple of a prime modulus. -/
theorem Group.coprime (group : Group) (prime : group.p.Prime) : Nat.Coprime group.g group.p := by
  have range := group.g_range
  exact (Nat.coprime_of_lt_prime (by omega) (by omega) prime).symm

/-- **Decryption undoes encryption**, for every number below a prime modulus and every random
exponent. -/
theorem PrivateKey.decrypt_encrypt {k : PrivateKey} (prime : k.group.p.Prime)
    (range : k.x ≤ k.group.p - 1) {m : ℕ} (small : m < k.group.p) (exponent : ℕ) :
    k.decrypt (k.publicKey.encrypt m exponent).1 (k.publicKey.encrypt m exponent).2 = .ok m := by
  have fermat : k.group.g ^ (k.group.p - 1) ≡ 1 [MOD k.group.p] := by
    rw [← Nat.totient_prime prime]
    exact Nat.ModEq.pow_totient (k.group.coprime prime)
  have product : powMod (powMod k.group.g exponent k.group.p) (k.group.p - 1 - k.x) k.group.p *
      (m * powMod (powMod k.group.g k.x k.group.p) exponent k.group.p % k.group.p) ≡ m
      [MOD k.group.p] := by
    calc powMod (powMod k.group.g exponent k.group.p) (k.group.p - 1 - k.x) k.group.p *
          (m * powMod (powMod k.group.g k.x k.group.p) exponent k.group.p % k.group.p)
        ≡ (k.group.g ^ exponent) ^ (k.group.p - 1 - k.x) * (m * (k.group.g ^ k.x) ^ exponent)
          [MOD k.group.p] := by
          refine Nat.ModEq.mul ?_ ((Nat.mod_modEq _ _).trans (Nat.ModEq.mul_left m ?_))
          · exact (powMod_modEq _ _ _).trans ((powMod_modEq _ _ _).pow _)
          · exact (powMod_modEq _ _ _).trans ((powMod_modEq _ _ _).pow _)
      _ = m * (k.group.g ^ (k.group.p - 1)) ^ exponent := by
          -- The exponents `p - 1 - x` and `x` add up to `p - 1`, which needs the range of `x`.
          rw [← pow_mul, ← pow_mul, mul_left_comm, ← pow_add, mul_comm k.x, ← mul_add,
            Nat.sub_add_cancel range, mul_comm exponent, pow_mul]
      _ ≡ m * 1 ^ exponent [MOD k.group.p] := (fermat.pow exponent).mul_left m
      _ = m := by rw [one_pow, mul_one]
  rw [decrypt, difference_of_le range]
  show Except.ok _ = _
  congr 1
  exact Eq.trans product (Nat.mod_eq_of_lt small)

namespace Cipher

/-- The cipher that encrypts with a public key. -/
def encrypting (k : PublicKey) : Cipher :=
  { key := some (.ofPublic k), direction := .encrypt, keySize := bitLength k.group.p }

/-- The cipher that decrypts with a private key. -/
def decrypting (k : PrivateKey) : Cipher :=
  { key := some (.ofPrivate k), direction := .decrypt, keySize := bitLength k.group.p }

/-- Both halves of a ciphertext are written over all bytes of the modulus. -/
def pair (p : ℕ) (numbers : ℕ × ℕ) : Bytes :=
  Bytes.wide (byteLength p) numbers.1 ++ Bytes.wide (byteLength p) numbers.2

theorem length_pair (p : ℕ) (numbers : ℕ × ℕ) : (pair p numbers).length = 2 * byteLength p := by
  rw [pair, List.length_append, Bytes.length_wide, Bytes.length_wide]
  omega

theorem half_pairSize (p : ℕ) : pairSize (bitLength p) / 2 = byteLength p :=
  Nat.mul_div_cancel _ Nat.zero_lt_two

/-! ## Encryption -/

section Encryption

variable (k : PublicKey) {input : Bytes}

/-- Encryption of a number below the modulus draws an exponent, and gives the pair for it, written
over twice the bytes of the modulus. -/
theorem run_process_encrypting (fits : input.length ≤ plainSize (bitLength k.group.p) + 1)
    (below : input.value < k.group.p) :
    ((encrypting k).process input).run =
      (fun exponent => .ok (pair k.group.p (k.encrypt input.value exponent))) <$>
        Draw.positiveBelow (k.group.p - 1) := by
  have positive : 0 < k.group.p := Nat.zero_lt_of_lt below
  have fixed {n : ℕ} (small : n < k.group.p) :
      fixedBytes n (byteLength k.group.p) = .ok (Bytes.wide (byteLength k.group.p) n) :=
    fixedBytes_of_lt (small.trans (lt_pow_byteLength _))
  have short : ¬input.length > (encrypting k).inputSize + 1 := not_lt.mpr fits
  have half : (encrypting k).outputSize / 2 = byteLength k.group.p := half_pairSize _
  show ((encrypting k).encryptBlock k input).run = _
  rw [encryptBlock, if_neg short]
  dsimp only
  rw [if_neg (not_le.mpr below), half]
  refine Draw.ext fun tape patience start => ?_
  cases drawn : (Draw.positiveBelow (k.group.p - 1)).run tape patience start with
  | error halt => simp [drawn]
  | ok reached =>
      obtain ⟨exponent, stop⟩ := reached
      have gamma := fixed (powMod_lt k.group.g exponent positive)
      have phi := fixed (Nat.mod_lt (input.value * powMod k.y exponent k.group.p) positive)
      simp [drawn, PublicKey.encrypt, gamma, phi, pair, Except.map]

/-- Encryption of a number below the modulus gives the pair for some random exponent. -/
theorem process_encrypting (fits : input.length ≤ plainSize (bitLength k.group.p) + 1)
    (below : input.value < k.group.p) :
    ((encrypting k).process input).run.Always fun answer =>
      ∃ exponent, answer = .ok (pair k.group.p (k.encrypt input.value exponent)) := by
  rw [run_process_encrypting k fits below]
  exact Draw.ensures_map ((Draw.positiveBelow_always k.group.two_le_pred).mono
    fun exponent _ => ⟨exponent, rfl⟩)

/-- An input that is longer, or encodes no number below the modulus, is refused before anything is
drawn. -/
theorem run_process_encrypting_outside
    (outside : ¬(input.length ≤ plainSize (bitLength k.group.p) + 1 ∧ input.value < k.group.p)) :
    ((encrypting k).process input).run = pure (.error (.dataLength .elGamalInput)) := by
  show ((encrypting k).encryptBlock k input).run = _
  rw [encryptBlock]
  by_cases long : input.length > (encrypting k).inputSize + 1
  · rw [if_pos long]
    rfl
  · have large : k.group.p ≤ input.value := by
      by_contra below
      exact outside ⟨not_lt.mp long, not_le.mp below⟩
    rw [if_neg long]
    dsimp only
    rw [if_pos large]
    rfl

end Encryption

/-! ## Decryption -/

/-- A string of twice the bytes of the modulus, whose halves are numbers below it. -/
structure IsPair (p : ℕ) (c : Bytes) : Prop where
  length : c.length = 2 * byteLength p
  first : Bytes.value (c.take (byteLength p)) < p
  second : Bytes.value (c.drop (byteLength p)) < p

/-- The halves of a ciphertext are the numbers that were written. -/
theorem halves_pair {p : ℕ} {numbers : ℕ × ℕ} (below₁ : numbers.1 < p) (below₂ : numbers.2 < p) :
    Bytes.value ((pair p numbers).take (byteLength p)) = numbers.1 ∧
      Bytes.value ((pair p numbers).drop (byteLength p)) = numbers.2 := by
  have read {n : ℕ} (small : n < p) : (Bytes.wide (byteLength p) n).value = n :=
    Bytes.value_wide_of_lt (small.trans (lt_pow_byteLength _))
  constructor
  · rw [pair, List.take_left' (Bytes.length_wide _ _), read below₁]
  · rw [pair, List.drop_left' (Bytes.length_wide _ _), read below₂]

theorem isPair_pair {p : ℕ} {numbers : ℕ × ℕ} (below₁ : numbers.1 < p) (below₂ : numbers.2 < p) :
    IsPair p (pair p numbers) := by
  obtain ⟨first, second⟩ := halves_pair below₁ below₂
  exact ⟨length_pair p numbers, first.trans_lt below₁, second.trans_lt below₂⟩

section Decryption

variable {k : PrivateKey} {c : Bytes}

/-- The shortest encoding of what the halves decrypt to. -/
theorem run_process_of_isPair (whole : IsPair k.group.p c) {m : ℕ}
    (decrypted : k.decrypt (Bytes.value (c.take (byteLength k.group.p)))
      (Bytes.value (c.drop (byteLength k.group.p))) = .ok m) :
    ((decrypting k).process c).run = pure (.ok (Bytes.minimal m)) := by
  have half : (decrypting k).inputSize / 2 = byteLength k.group.p := half_pairSize _
  show ((decrypting k).decryptBlock k c).run = _
  rw [decryptBlock, half]
  dsimp only
  rw [if_neg (not_not.mpr whole.length),
    if_neg (not_or.mpr ⟨not_le.mpr whole.first, not_le.mpr whole.second⟩), decrypted]
  rfl

/-- Decryption of a pair of numbers below the modulus gives the shortest encoding of what the
numbers decrypt to, and reads nothing. -/
theorem run_process_decrypting {numbers : ℕ × ℕ} {m : ℕ}
    (below₁ : numbers.1 < k.group.p) (below₂ : numbers.2 < k.group.p)
    (decrypted : k.decrypt numbers.1 numbers.2 = .ok m) :
    ((decrypting k).process (pair k.group.p numbers)).run = pure (.ok (Bytes.minimal m)) := by
  obtain ⟨first, second⟩ := halves_pair below₁ below₂
  apply run_process_of_isPair (isPair_pair below₁ below₂)
  rw [first, second, decrypted]

/-- A string of another length is refused. -/
theorem run_process_of_length (length : c.length ≠ 2 * byteLength k.group.p) :
    ((decrypting k).process c).run = pure (.error (.dataLength .elGamalCiphertextLength)) := by
  have half : (decrypting k).inputSize / 2 = byteLength k.group.p := half_pairSize _
  show ((decrypting k).decryptBlock k c).run = _
  rw [decryptBlock, half]
  dsimp only
  rw [if_pos length]
  rfl

/-- A string of the right length is refused if one of its halves is not below the modulus. -/
theorem run_process_of_large (length : c.length = 2 * byteLength k.group.p)
    (large : k.group.p ≤ Bytes.value (c.take (byteLength k.group.p)) ∨
      k.group.p ≤ Bytes.value (c.drop (byteLength k.group.p))) :
    ((decrypting k).process c).run = pure (.error (.dataLength .elGamalCiphertextValue)) := by
  have half : (decrypting k).inputSize / 2 = byteLength k.group.p := half_pairSize _
  show ((decrypting k).decryptBlock k c).run = _
  rw [decryptBlock, half]
  dsimp only
  rw [if_neg (not_not.mpr length), if_pos large]
  rfl

end Decryption

end Cipher

end PublicKeyCrypto.ElGamal
