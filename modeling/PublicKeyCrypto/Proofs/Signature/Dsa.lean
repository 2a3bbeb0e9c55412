import PublicKeyCrypto.Dsa.Scheme
import PublicKeyCrypto.Proofs.Signature.Signing
import Mathlib

/-!
# DSA signatures are accepted

The generator of a group has an order that divides `q`, by the check of the group's last field, so
that exponents count modulo `q`.  A candidate for the nonce `k` then satisfies the equation of
verification, since the exponents that verification computes add up to `k`.  Neither that `p` is
prime nor that the order of the generator is exactly `q` is needed, and the number of the message
may exceed `q`; that `q` is prime is needed for the inverse of `s`.

## Main Results

* `Group.pow_modEq` — exponents of the generator count modulo `q`
* `candidate_eq_some_iff` — the signature that a nonce gives
* `scheme_acceptsOwn` — every candidate is in range and is valid
* `dsa_signature_accepted` — what a signer returns is verified, for every source of nonces
-/

namespace PublicKeyCrypto.Dsa

namespace Group

variable (group : Group)

theorem one_lt_p : 1 < group.p := lt_trans group.g_range.1 group.g_range.2

/-- An order of two bits is at least two. -/
theorem two_le_q : 2 ≤ group.q := by
  by_contra small
  have size := group.q_size
  have : group.q = 0 ∨ group.q = 1 := by omega
  rcases this with zero | one
  · rw [zero] at size
    exact absurd size (by decide)
  · rw [one] at size
    exact absurd size (by decide)

theorem pow_q : group.g ^ group.q ≡ 1 [MOD group.p] :=
  (powMod_eq_one_iff group.one_lt_p).mp group.g_order

/-- Exponents of the generator count modulo `q`. -/
theorem pow_modEq {a b : ℕ} (h : a ≡ b [MOD group.q]) :
    group.g ^ a ≡ group.g ^ b [MOD group.p] := by
  have reduce : ∀ c, group.g ^ c ≡ group.g ^ (c % group.q) [MOD group.p] := by
    intro c
    calc group.g ^ c
        = (group.g ^ group.q) ^ (c / group.q) * group.g ^ (c % group.q) := by
          rw [← pow_mul, ← pow_add, Nat.div_add_mod]
      _ ≡ 1 ^ (c / group.q) * group.g ^ (c % group.q) [MOD group.p] :=
          (group.pow_q.pow _).mul_right _
      _ = group.g ^ (c % group.q) := by rw [one_pow, one_mul]
  have same : a % group.q = b % group.q := h
  have hb := (reduce b).symm
  rw [← same] at hb
  exact (reduce a).trans hb

end Group

/-- What a private key that was accepted is made of. -/
theorem PrivateKey.make_eq_ok_iff {k : PrivateKey} {x : ℕ} {group : Group} :
    PrivateKey.make x group = .ok k ↔ (1 ≤ x ∧ x ≤ group.q - 1) ∧ k = { x, group } := by
  have large := group.two_le_q
  rw [PrivateKey.make]
  split_ifs with refused
  · refine ⟨fun same => ?_, fun inside => by omega⟩
    cases same
  · refine ⟨fun same => ⟨by omega, (Except.ok.inj same).symm⟩, fun inside => by rw [inside.2]⟩

/-- The signature that a nonce gives: the nonce has an inverse, and neither number is zero. -/
theorem candidate_eq_some_iff {k : PrivateKey} {message : Bytes} {nonce : ℕ}
    {signature : Signature} :
    candidate k message nonce = some signature ↔
      ∃ inverse, invMod nonce k.group.q = some inverse ∧
        signature.r = k.group.g ^ nonce % k.group.p % k.group.q ∧
        signature.s =
          inverse * (messageNumber k.group.q message + k.x * signature.r) % k.group.q ∧
        signature.r ≠ 0 ∧ signature.s ≠ 0 := by
  obtain ⟨r, s⟩ := signature
  simp only [candidate, powMod_eq, Option.bind_eq_bind, Option.bind_eq_some_iff,
    Option.guard_eq_some', Option.pure_def, Option.some.injEq, Signature.mk.injEq]
  constructor
  · rintro ⟨-, hr, inverse, found, -, hs, rfl, rfl⟩
    exact ⟨inverse, found, rfl, rfl, hr, hs⟩
  · rintro ⟨inverse, found, rfl, rfl, hr, hs⟩
    exact ⟨(), hr, inverse, found, (), hs, rfl, rfl⟩

/-- **The equation of verification.**  The exponents of verification add up to the nonce, and the
generator does not tell exponents apart that agree modulo `q`. -/
theorem pow_mul_pow_eq {k : PrivateKey} {nonce u₁ u₂ : ℕ}
    (h : u₁ + k.x * u₂ ≡ nonce [MOD k.group.q]) :
    powMod k.group.g u₁ k.group.p * powMod (k.group.g ^ k.x % k.group.p) u₂ k.group.p
      % k.group.p = k.group.g ^ nonce % k.group.p := by
  have product : powMod k.group.g u₁ k.group.p *
      powMod (k.group.g ^ k.x % k.group.p) u₂ k.group.p ≡ k.group.g ^ nonce [MOD k.group.p] := by
    calc powMod k.group.g u₁ k.group.p * powMod (k.group.g ^ k.x % k.group.p) u₂ k.group.p
        ≡ k.group.g ^ u₁ * (k.group.g ^ k.x % k.group.p) ^ u₂ [MOD k.group.p] :=
          (powMod_modEq _ _ _).mul (powMod_modEq _ _ _)
      _ ≡ k.group.g ^ u₁ * (k.group.g ^ k.x) ^ u₂ [MOD k.group.p] :=
          ((Nat.mod_modEq _ _).pow u₂).mul_left _
      _ = k.group.g ^ (u₁ + k.x * u₂) := by rw [← pow_mul, ← pow_add]
      _ ≡ k.group.g ^ nonce [MOD k.group.p] := k.group.pow_modEq h
  exact product

/-- Every candidate is in range and is valid under the power of the generator. -/
theorem scheme_acceptsOwn {k : PrivateKey} (prime : k.group.q.Prime) :
    scheme.AcceptsOwn k.group.q k
      { y := k.group.g ^ k.x % k.group.p, group := k.group } := by
  intro message nonce signature suitable
  obtain ⟨inverse, found, hr, hs, r_ne, s_ne⟩ := candidate_eq_some_iff.mp suitable
  have inRange := Signature.inRange_of_mod prime.pos hr hs r_ne s_ne
  have s_lt : signature.s < k.group.q := hs ▸ Nat.mod_lt _ prime.pos
  obtain ⟨w, found', hw⟩ := exists_invMod_of_prime prime s_ne s_lt
  -- The nonce is recovered modulo `q`, which the order of the generator divides.
  have recovered := nonce_recovered (invMod_sound prime.pos found).2 hs hw
  refine ⟨inRange, ?_⟩
  show verify _ message signature = true
  simp only [verify, inRange, found', Bool.not_true, Bool.false_eq_true, if_false,
    decide_eq_true_eq]
  rw [pow_mul_pow_eq recovered, hr]

/-- **What a signer returns is verified.**  For every source of nonces and every answer of it,
every message, and signers in any earlier state: a signer with a private key answers, if it does,
with a signature in range that a verifier with the public key accepts. -/
theorem dsa_signature_accepted {K K' : Type} [NonceSource K] (nonces : K) (nonces' : K')
    (old old' : Option Key) (k : PrivateKey) (prime : k.group.q.Prime) (message : Bytes) :
    let signer : Signer PrivateKey PublicKey K := { scheme, nonces, key := old }
    let verifier : Signer PrivateKey PublicKey K' :=
      { scheme, nonces := nonces', key := old' }
    let pk : PublicKey := { y := k.group.g ^ k.x % k.group.p, group := k.group }
    ((signer.init .sign (.ofPrivate k)).2.sign message).Yields fun reply =>
      ∃ signature, reply.1 = .ok signature ∧
        (1 ≤ signature.r ∧ signature.r ≤ k.group.q - 1) ∧
        (1 ≤ signature.s ∧ signature.s ≤ k.group.q - 1) ∧
        (verifier.init .verify (.ofPublic pk)).2.verify message signature = .ok true := by
  intro signer verifier pk
  have accepts : scheme.AcceptsOwn k.group.q k pk := scheme_acceptsOwn prime
  exact signer.sign_accepted verifier rfl accepts message

/-! ## A signature after rejected nonces -/

/-- A group with an order of eight bits. -/
def smallGroup : Group where
  p := 263
  q := 131
  g := 4
  q_size := by decide
  q_lt := by decide
  q_dvd := by decide
  g_range := by decide
  g_order := by cbv

/-- Zero and two multiples of the order are passed over; the nonce that is taken exceeds the
order, and so does the number of the message. -/
theorem dsa_signature_accepted_after_multiples_of_order :
    let k : PrivateKey := { x := 7, group := smallGroup }
    let signer : Signer PrivateKey PublicKey ScriptedNonce :=
      { scheme, nonces := { values := [0, 131, 262, 1000] } }
    let pk : PublicKey := { y := smallGroup.g ^ 7 % smallGroup.p, group := smallGroup }
    let signature : Signature := { r := 9, s := 77 }
    smallGroup.q.Prime ∧
      (∃ signer', ((signer.init .sign (.ofPrivate k)).2.sign [0xAB, 0xCD]).run (fun _ => 0) 4 0 =
        .ok ((.ok signature, signer'), 0)) ∧
      (signer.init .verify (.ofPublic pk)).2.verify [0xAB, 0xCD] signature = .ok true := by
  intro k signer pk signature
  have prime : smallGroup.q.Prime := by
    show Nat.Prime 131
    norm_num
  have signed : ∃ signer', ((signer.init .sign (.ofPrivate k)).2.sign [0xAB, 0xCD]).run
      (fun _ => 0) 4 0 = .ok ((.ok signature, signer'), 0) := ⟨_, by cbv⟩
  refine ⟨prime, signed, ?_⟩
  obtain ⟨signer', run⟩ := signed
  obtain ⟨signature', answered, -, -, valid⟩ :=
    (dsa_signature_accepted signer.nonces signer.nonces none none k prime [0xAB, 0xCD]).value run
  cases answered
  exact valid

end PublicKeyCrypto.Dsa
