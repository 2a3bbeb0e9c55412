import PublicKeyCrypto.Proofs.Number.Primality
import PublicKeyCrypto.Proofs.Rsa.RoundTrip
import PublicKeyCrypto.Rsa.KeyGenerator

/-!
# What the RSA key generator gives

A key is assembled from two random factors, and returned after a number of checks.  Two properties
come from the factors and not from a check: they are odd, and their two highest bits are set, so
that the product always has the wanted size (`factors_always`).  Everything else is read off the
branch that assembles the key (`assemble_eq_some`): the checks that were passed, and the inverses
that were found.

The tests for primality may let a composite number through, so none of this speaks of primes.  If
the factors are prime, the key is consistent, and its operation undoes the public one.

## Main Definitions

* `PrivateKey.Generated` — the properties of a generated key
* `KeyGenerator.factors`, `KeyGenerator.FactorPair` — the factors that are drawn, and what is known
  of them before any check

## Main Results

* `KeyGenerator.factors_always` — the product of the factors has exactly the wanted size
* `KeyGenerator.generate_always` — the key generator breaks no precondition, and gives such a key
* `PrivateKey.Generated.consistent` — with prime factors, such a key is consistent
* `generated_key_sound` — what a generated key is good for
-/

namespace PublicKeyCrypto.Rsa

namespace PrivateKey

/-- What holds of a key that was generated for a size and a public exponent, whether or not its
factors are prime. -/
structure Generated (strength e : ℕ) (k : PrivateKey) : Prop where
  publicExponent_eq : k.publicExponent = e
  modulus_eq : k.modulus = k.p * k.q
  bitLength_modulus : bitLength k.modulus = strength
  p_odd : k.p % 2 = 1
  q_odd : k.q % 2 = 1
  three_le_q : 3 ≤ k.q
  ordered : k.q < k.p
  /-- The factors are far apart. -/
  gap : 2 ^ (strength / 2 - 101) ≤ k.p - k.q
  /-- The exponents invert each other modulo `(p - 1) * (q - 1)`. -/
  inverse : e * k.privateExponent ≡ 1 [MOD (k.p - 1) * (k.q - 1)]
  one_lt_privateExponent : 1 < k.privateExponent
  privateExponent_lt : k.privateExponent < (k.p - 1) * (k.q - 1)
  dp_eq : k.dp = k.privateExponent % (k.p - 1)
  dq_eq : k.dq = k.privateExponent % (k.q - 1)
  qinv_inverse : k.q * k.qinv ≡ 1 [MOD k.p]
  qinv_lt : k.qinv < k.p

namespace Generated

variable {strength e : ℕ} {k : PrivateKey}

theorem dp_lt (hk : k.Generated strength e) : k.dp < k.p - 1 := by
  rw [hk.dp_eq]
  have := hk.three_le_q
  have := hk.ordered
  exact Nat.mod_lt _ (by omega)

theorem dq_lt (hk : k.Generated strength e) : k.dq < k.q - 1 := by
  rw [hk.dq_eq]
  have := hk.three_le_q
  exact Nat.mod_lt _ (by omega)

/-- The checks that are made of a private key do not refuse a generated one. -/
theorem validate_eq_ok (hk : k.Generated strength e) : k.validate = .ok k :=
  validate_eq_ok_of_lt hk.modulus_eq (hk.dp_lt.trans_le (Nat.sub_le _ _))
    (hk.dq_lt.trans_le (Nat.sub_le _ _)) hk.qinv_lt

/-- The modulus has its highest bit at the end of the wanted size. -/
theorem le_modulus (hk : k.Generated strength e) (positive : 0 < strength) :
    2 ^ (strength - 1) ≤ k.modulus := by
  by_contra small
  have short : bitLength k.modulus ≤ strength - 1 := bitLength_le_iff.mpr (not_le.mp small)
  rw [hk.bitLength_modulus] at short
  omega

/-- The checks that are made of a public key do not refuse the public half, if the exponent is
shorter than the modulus. -/
theorem make_publicKey_eq_ok (hk : k.Generated strength e) (size : 16 ≤ strength)
    (odd : e % 2 = 1) (large : 3 ≤ e) (short : e < 2 ^ (strength - 1)) :
    PublicKey.make k.modulus e = .ok k.publicKey := by
  have modulus_odd : k.modulus % 2 = 1 := by
    rw [hk.modulus_eq]
    exact Nat.odd_iff.mp ((Nat.odd_iff.mpr hk.p_odd).mul (Nat.odd_iff.mpr hk.q_odd))
  have length := hk.bitLength_modulus
  have below := hk.le_modulus (by omega)
  rw [PublicKey.make, if_neg (by omega), if_neg (by omega), publicKey, hk.publicExponent_eq]

/-- **Prime factors.**  The components of a generated key belong together, provided that the factors
are prime. -/
theorem consistent (hk : k.Generated strength e) (hp : k.p.Prime) (hq : k.q.Prime) :
    k.Consistent := by
  have dp_lt := hk.dp_lt
  have dq_lt := hk.dq_lt
  have p_odd := hk.p_odd
  have q_odd := hk.q_odd
  have ordered := hk.ordered
  -- An inverse modulo the product is one modulo each factor, and so is its residue.
  have reduced {m : ℕ} (divides : m ∣ (k.p - 1) * (k.q - 1)) :
      k.publicExponent * (k.privateExponent % m) ≡ 1 [MOD m] := by
    rw [hk.publicExponent_eq]
    exact ((Nat.mod_modEq _ _).mul_left e).trans (hk.inverse.of_dvd divides)
  exact {
    p_prime := hp
    q_prime := hq
    p_odd := by omega
    q_odd := by omega
    distinct := by omega
    modulus_eq := hk.modulus_eq
    dp_inverse := hk.dp_eq ▸ reduced (Nat.dvd_mul_right _ _)
    dq_inverse := hk.dq_eq ▸ reduced (Nat.dvd_mul_left _ _)
    qinv_inverse := hk.qinv_inverse
    dp_lt := by omega
    dq_lt := by omega
    qinv_lt := hk.qinv_lt }

end Generated

end PrivateKey

namespace KeyGenerator

/-! ## The factors -/

/-- A factor is odd, its two highest bits are set, and the exponent does not divide the number
before it. -/
theorem factor_always {bits : ℕ} (h : 3 ≤ bits) (e : ℕ) :
    (factor bits e).Always fun p => (p % 2 = 1 ∧ InUpperQuarter bits p) ∧ ¬ e ∣ p - 1 := by
  refine Draw.ensures_firstAccepted rfl ((Draw.prime_always h certainty).mono ?_)
  intro p properties p' accepted
  split at accepted
  · next indivisible =>
    cases accepted
    exact ⟨properties, fun divides => indivisible (Nat.mod_eq_zero_of_dvd divides)⟩
  · cases accepted

/-- The two factors that are drawn for a key. -/
def factors (g : KeyGenerator) : Draw (ℕ × ℕ) := do
  let pBits := (g.strength + 1) / 2
  let a ← factor pBits g.publicExponent
  let b ← factor (g.strength - pBits) g.publicExponent
  return (a, b)

/-- Pairs of factors are drawn until a key can be assembled from them. -/
theorem generate_eq (g : KeyGenerator) :
    g.generate = Draw.firstAccepted g.factors fun (a, b) => g.assemble a b := rfl

/-- What is known of two factors before anything is checked. -/
structure FactorPair (strength a b : ℕ) : Prop where
  a_odd : a % 2 = 1
  b_odd : b % 2 = 1
  three_le_a : 3 ≤ a
  three_le_b : 3 ≤ b
  size : bitLength (a * b) = strength

/-- **Exact size.**  The lengths of the factors add up to the wanted one, for even and odd sizes, so
the check of the size refuses no pair that was drawn. -/
theorem factors_always {g : KeyGenerator} (h : 6 ≤ g.strength) :
    g.factors.Always fun (a, b) => FactorPair g.strength a b := by
  refine Draw.ensures_bind ((factor_always (by omega) _).mono fun a ⟨⟨a_odd, a_high⟩, _⟩ => ?_)
  refine Draw.ensures_bind ((factor_always (by omega) _).mono fun b ⟨⟨b_odd, b_high⟩, _⟩ => ?_)
  refine Draw.ensures_pure ⟨a_odd, b_odd, a_high.three_le, b_high.three_le, ?_⟩
  rw [bitLength_mul (by omega) (by omega) a_high b_high]
  omega

/-! ## The key -/

/-- A key that was assembled has passed the checks, and its components are the inverses that were
found and their residues. -/
theorem assemble_eq_some {g : KeyGenerator} {a b : ℕ} {k : PrivateKey}
    (h : g.assemble a b = some k) :
    g.strength / 2 - 100 ≤ bitLength (max a b - min a b) ∧
      ∃ d qinv, invMod g.publicExponent ((max a b - 1) * (min a b - 1)) = some d ∧
        invMod (min a b) (max a b) = some qinv ∧ 1 < d ∧
        k = { modulus := max a b * min a b, publicExponent := g.publicExponent,
              privateExponent := d, p := max a b, q := min a b, dp := d % (max a b - 1),
              dq := d % (min a b - 1), qinv } := by
  simp only [assemble, Option.bind_eq_bind, Option.bind_eq_some_iff, Option.guard_eq_some',
    Option.pure_def, Option.some.injEq] at h
  obtain ⟨-, apart, -, -, d, d_found, qinv, qinv_found, -, one_lt, key⟩ := h
  exact ⟨apart, d, qinv, d_found, qinv_found, one_lt, key.symm⟩

/-- A key that was assembled from two factors of the wanted size is a generated one. -/
theorem generated_of_assemble {g : KeyGenerator} {a b : ℕ} {k : PrivateKey}
    (size : 256 ≤ g.strength) (pair : FactorPair g.strength a b)
    (h : g.assemble a b = some k) : k.Generated g.strength g.publicExponent := by
  obtain ⟨apart, d, qinv, d_found, qinv_found, one_lt, rfl⟩ := assemble_eq_some h
  have gap : 2 ^ (g.strength / 2 - 101) ≤ max a b - min a b := by
    by_contra close
    have short := bitLength_le_iff.mpr (not_le.mp close)
    omega
  have ordered : min a b < max a b := by
    have := Nat.two_pow_pos (g.strength / 2 - 101)
    omega
  have three_le_min : 3 ≤ min a b := le_min pair.three_le_a pair.three_le_b
  have odd {c : ℕ} (either : c = a ∨ c = b) : c % 2 = 1 := by
    rcases either with rfl | rfl
    · exact pair.a_odd
    · exact pair.b_odd
  have product : max a b * min a b = a * b := max_mul_min a b
  obtain ⟨d_lt, inverse⟩ :=
    invMod_sound (Nat.mul_pos (by omega) (by omega)) d_found
  obtain ⟨qinv_lt, qinv_inverse⟩ := invMod_sound (by omega) qinv_found
  exact {
    publicExponent_eq := rfl
    modulus_eq := rfl
    bitLength_modulus := (congrArg bitLength product).trans pair.size
    p_odd := odd (max_choice a b)
    q_odd := odd (min_choice a b)
    three_le_q := three_le_min
    ordered := ordered
    gap := gap
    inverse := inverse
    one_lt_privateExponent := one_lt
    privateExponent_lt := d_lt
    dp_eq := rfl
    dq_eq := rfl
    qinv_inverse := qinv_inverse
    qinv_lt := qinv_lt }

/-- **The key generator** breaks no precondition, and what it returns is a generated key. -/
theorem generate_always {g : KeyGenerator} (size : 256 ≤ g.strength) :
    g.generate.Always (·.Generated g.strength g.publicExponent) := by
  rw [generate_eq]
  refine Draw.ensures_firstAccepted rfl ((factors_always (by omega)).mono ?_)
  intro (a, b) pair k assembled
  exact generated_of_assemble size pair assembled

/-- The generator is made for every size from 256 bits on and every odd exponent above one. -/
theorem make_eq_ok {strength e : ℕ} (size : 256 ≤ strength) (odd : e % 2 = 1) (large : 3 ≤ e) :
    make strength e = .ok { strength, publicExponent := e } := by
  have length : ¬ bitLength e < 2 := by
    intro short
    have := bitLength_le_iff.mp (Nat.le_of_lt_succ short)
    omega
  rw [make, if_neg (by omega), if_neg (by omega)]

end KeyGenerator

/-- **Generated keys.**  For every size from 256 bits on and every odd exponent above one, prime or
not, there is a key generator.  It never breaks a precondition, and every key that it returns on any
tape has the properties of a generated key.  Both halves of the pair pass the checks that are made
of keys from elsewhere, the public half if its exponent is shorter than the modulus.  And if both
factors are prime, then the private operation undoes the public one on every number below the
modulus: as numbers, and as blocks of any two ciphers, whatever was done with these before and
whichever directions they are set to. -/
theorem generated_key_sound {strength e : ℕ} (size : 256 ≤ strength) (odd : e % 2 = 1)
    (large : 3 ≤ e) :
    KeyGenerator.make strength e = .ok { strength, publicExponent := e } ∧
      ({ strength, publicExponent := e } : KeyGenerator).generate.Always fun k =>
        k.Generated strength e ∧ k.validate = .ok k ∧
        (e < 2 ^ (strength - 1) → PublicKey.make k.modulus e = .ok k.publicKey) ∧
        (k.p.Prime → k.q.Prime →
          (∀ m, m < k.modulus → k.crtPower (powMod m e k.modulus) = .ok m) ∧
          ∀ (encryptor decryptor : Cipher) (direction direction' : Direction) (input : Bytes),
            input.length ≤ byteLength k.modulus → input.value < k.modulus →
            ∃ middle,
              Gives ((encryptor.init direction (.ofPublic k.publicKey)).2.process input) middle ∧
              GivesBlinded k.modulus
                ((decryptor.init direction' (.ofPrivate k)).2.process middle)
                (Cipher.encoding direction' k.modulus input.value)) := by
  refine ⟨KeyGenerator.make_eq_ok size odd large, ?_⟩
  refine (KeyGenerator.generate_always size).mono fun k generated => ?_
  refine ⟨generated, generated.validate_eq_ok,
    generated.make_publicKey_eq_ok (le_trans (by decide) size) odd large, fun hp hq => ?_⟩
  have hk := generated.consistent hp hq
  refine ⟨fun m small => ?_, fun encryptor decryptor direction direction' input fits below =>
    hk.private_undoes_public encryptor decryptor direction direction' fits below⟩
  have exponent : k.publicExponent = e := generated.publicExponent_eq
  rw [hk.crtPower_eq, powMod_eq, ← exponent, hk.root_of_pow_mod small]

/-- A tape whose first candidate is a multiple of five and whose second and third ones are primes;
all bases are two. -/
def primesTape : Tape := fun i =>
  if i = 17 then 0x01 else if i = 18 then 0xEE else if i = 19 then 0x80
  else if i = 714 then 0xCB else if i = 715 then 0x80 else 0x00

/-- The key that is generated on that tape. -/
def primesKey : PrivateKey where
  modulus := (989 * 2 ^ 119 + 1) * (407 * 2 ^ 119 + 1)
  publicExponent := 15
  privateExponent :=
    23706552701859653183228588663051392991547543354068825662666109765430306336495
  p := 989 * 2 ^ 119 + 1
  q := 407 * 2 ^ 119 + 1
  dp := 87640432522085453220124345507817385711
  dq := 252464703999415021460196420982580113135
  qinv := 73410156107416938908609310025877964837

/-- A composite exponent and an odd size, on a tape on which the first candidate is rejected.  The
factors are prime, so a multiple of one of them, written with a leading zero, comes back. -/
theorem generated_key_sound_for_composite_exponent :
    (256 ≤ 257 ∧ 15 % 2 = 1 ∧ 3 ≤ 15) ∧
      KeyGenerator.make 257 15 = .ok { strength := 257, publicExponent := 15 } ∧
      ({ strength := 257, publicExponent := 15 } : KeyGenerator).generate.run primesTape 2 0 =
        .ok (primesKey, 1370) ∧
      primesKey.Generated 257 15 ∧ primesKey.validate = .ok primesKey ∧
      PublicKey.make primesKey.modulus 15 = .ok primesKey.publicKey ∧
      ∃ middle,
        Gives ((({} : Cipher).init .decrypt (.ofPublic primesKey.publicKey)).2.process
          (0x00 :: Bytes.minimal (2 * primesKey.p))) middle ∧
        GivesBlinded primesKey.modulus
          ((({} : Cipher).init .decrypt (.ofPrivate primesKey)).2.process middle)
          (Bytes.minimal (2 * primesKey.p)) := by
  obtain ⟨made, always⟩ := generated_key_sound (show 256 ≤ 257 by decide)
    (show 15 % 2 = 1 by decide) (show 3 ≤ 15 by decide)
  have returned : ({ strength := 257, publicExponent := 15 } : KeyGenerator).generate.run
      primesTape 2 0 = .ok (primesKey, 1370) := by decide +kernel
  obtain ⟨generated, validated, accepted, undone⟩ := always.value returned
  have p_prime : primesKey.p.Prime :=
    prime_of_primitive_root 3 119 [2, 23, 43] (by decide) (by norm_num)
      (by decide +kernel) (by decide +kernel) (by decide +kernel)
  have q_prime : primesKey.q.Prime :=
    prime_of_primitive_root 3 119 [2, 11, 37] (by decide) (by norm_num)
      (by decide +kernel) (by decide +kernel) (by decide +kernel)
  obtain ⟨middle, encrypted, decrypted⟩ := (undone p_prime q_prime).2 {} {} .decrypt .decrypt
    (0x00 :: Bytes.minimal (2 * primesKey.p)) (by decide +kernel) (by decide +kernel)
  have read : Bytes.value (0x00 :: Bytes.minimal (2 * primesKey.p)) = 2 * primesKey.p := by
    decide +kernel
  rw [read] at decrypted
  exact ⟨⟨by decide, rfl, by decide⟩, made, returned, generated, validated,
    accepted (by decide +kernel), middle, encrypted, decrypted⟩

end PublicKeyCrypto.Rsa
