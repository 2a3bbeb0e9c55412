import PublicKeyCrypto.Curve.Gost
import PublicKeyCrypto.Proofs.Signature.Ecdsa
import Mathlib

/-!
# GOST R 34.10 signatures are accepted

Signing multiplies the nonce by the number of the message instead of dividing by it, so nothing
has to be inverted to sign, and a nonce is refused only for what it leads to.  Verification divides
by the number of the message, which is never zero and is below the order, and takes the share of
the private key away again: the point that it computes stands for the nonce.  That point is not the
point at infinity because its first coordinate is not zero, which is what signing has checked.

## Main Results

* `messageNumber_ne_zero`, `messageNumber_lt` — the number of a message can be divided by
* `nonce_of_verification` — the multiplier that verification computes is the nonce
* `scheme_acceptsOwn` — every candidate is in range and is valid
* `gost_signature_accepted` — what a signer returns is verified, for every source of nonces
-/

namespace PublicKeyCrypto.Gost

/-! ## The number of a message -/

/-- Zero is replaced. -/
theorem messageNumber_ne_zero (n : ℕ) (message : Bytes) : messageNumber n message ≠ 0 := by
  unfold messageNumber
  dsimp only
  split
  · exact one_ne_zero
  · next nonzero => exact nonzero

/-- The number that replaces zero is below the order as well. -/
theorem messageNumber_lt {n : ℕ} (large : 1 < n) (message : Bytes) :
    messageNumber n message < n := by
  unfold messageNumber
  dsimp only
  split
  · exact large
  · exact Nat.mod_lt _ (Nat.zero_lt_of_lt large)

/-! ## The signing equation -/

/-- With `s = k e + d r` and `v = 1 / e`, the exponents `s v` and `(n - r) v` of verification add up
to the nonce `k`, the second one counted `d` times. -/
theorem nonce_of_verification {n e k d r s v : ℕ} (hv : e * v ≡ 1 [MOD n]) (small : r ≤ n)
    (hs : s = (k * e + d * r) % n) : s * v % n + d * ((n - r) * v % n) ≡ k [MOD n] := by
  have signed : s ≡ k * e + d * r [MOD n] := by
    rw [hs]
    exact Nat.mod_modEq _ _
  have whole : r + (n - r) = n := Nat.add_sub_cancel' small
  calc s * v % n + d * ((n - r) * v % n)
      ≡ s * v + d * ((n - r) * v) [MOD n] :=
        (Nat.mod_modEq _ _).add ((Nat.mod_modEq _ _).mul_left d)
    _ ≡ (k * e + d * r) * v + d * ((n - r) * v) [MOD n] := (signed.mul_right v).add_right _
    _ = k * (e * v) + d * v * (r + (n - r)) := by ring
    _ = k * (e * v) + d * v * n := by rw [whole]
    _ ≡ k * 1 + 0 [MOD n] :=
        (hv.mul_left k).add (Nat.modEq_zero_iff_dvd.mpr (Nat.dvd_mul_left n (d * v)))
    _ = k := by rw [mul_one, add_zero]

variable {P : Type} [Curve P]

/-- The signature that a nonce gives: neither number is zero.  The nonce need not have an
inverse. -/
theorem candidate_eq_some_iff {k : Curve.PrivateKey P} {message : Bytes} {nonce : ℕ}
    {signature : Signature} :
    candidate k message nonce = some signature ↔
      signature.r = Curve.xCoordinate (Curve.mulGenerator nonce : P) % Curve.order P ∧
        signature.s = (nonce * messageNumber (Curve.order P) message + k.scalar * signature.r)
          % Curve.order P ∧
        signature.r ≠ 0 ∧ signature.s ≠ 0 := by
  obtain ⟨r, s⟩ := signature
  simp only [candidate, Option.bind_eq_bind, Option.bind_eq_some_iff, Option.guard_eq_some',
    Option.pure_def, Option.some.injEq, Signature.mk.injEq]
  constructor
  · rintro ⟨-, hr, -, hs, rfl, rfl⟩
    exact ⟨rfl, rfl, hr, hs⟩
  · rintro ⟨rfl, rfl, hr, hs⟩
    exact ⟨(), hr, (), hs, rfl, rfl⟩

variable {log : P → ZMod (Curve.order P)}

/-- A point whose first coordinate is not zero modulo the order is not the point at infinity. -/
theorem isNeutral_of_xCoordinate_ne_zero (laws : Curve.DiscreteLog log) {point : P}
    (nonzero : Curve.xCoordinate point % Curve.order P ≠ 0) : Curve.isNeutral point = false := by
  by_contra neutral
  rw [Bool.not_eq_false, laws.isNeutral_iff] at neutral
  apply nonzero
  rw [laws.xCoordinate_neutral point neutral, Nat.zero_mod]

/-- Every candidate is in range and is valid under every point for the private multiplier. -/
theorem scheme_acceptsOwn (laws : Curve.DiscreteLog log) {k : Curve.PrivateKey P}
    {pk : Curve.PublicKey P} (pair : log pk.point = k.scalar) :
    (scheme P).AcceptsOwn (Curve.order P) k pk := by
  intro message nonce signature suitable
  obtain ⟨hr, hs, r_ne, s_ne⟩ := candidate_eq_some_iff.mp suitable
  have inRange := Signature.inRange_of_mod laws.prime.pos hr hs r_ne s_ne
  have r_lt : signature.r < Curve.order P := hr ▸ Nat.mod_lt _ laws.prime.pos
  obtain ⟨v, found, hv⟩ := exists_invMod_of_prime laws.prime
    (messageNumber_ne_zero _ message) (messageNumber_lt laws.prime.one_lt message)
  have recovered := nonce_of_verification hv r_lt.le hs
  -- Counted in multiples of the generator, verification comes back to the point of the nonce.
  have back : log (Curve.mulAddGenerator pk.point
      ((Curve.order P - signature.r) * v % Curve.order P)
      (signature.s * v % Curve.order P)) = (nonce : ℕ) := by
    rw [laws.log_mulAddGenerator, pair, ← (ZMod.natCast_eq_natCast_iff _ _ _).mpr recovered]
    push_cast
    ring
  have coordinate := laws.xCoordinate_congr _ (Curve.mulGenerator nonce)
    (back.trans (laws.log_mulGenerator nonce).symm)
  have notInfinity := isNeutral_of_xCoordinate_ne_zero laws (coordinate ▸ hr ▸ r_ne)
  refine ⟨inRange, ?_⟩
  show verify _ message signature = true
  simp only [verify, inRange, found, notInfinity, coordinate, ← hr, Bool.not_true,
    Bool.not_false, Bool.false_eq_true, if_false, Bool.true_and, decide_true]

/-- **What a signer returns is verified.**  For every source of nonces and every answer of it,
every message, also one whose number is zero modulo the order, and signers in any earlier state: a
signer with a private key answers, if it does, with a signature in range that a verifier with the
public key accepts. -/
theorem gost_signature_accepted (laws : Curve.DiscreteLog log) {K K' : Type} [NonceSource K]
    (nonces : K) (nonces' : K') (old old' : Option (Curve.Key P)) (k : Curve.PrivateKey P)
    (message : Bytes) :
    let signer : Signer (Curve.PrivateKey P) (Curve.PublicKey P) K :=
      { scheme := scheme P, nonces, key := old }
    let verifier : Signer (Curve.PrivateKey P) (Curve.PublicKey P) K' :=
      { scheme := scheme P, nonces := nonces', key := old' }
    let pk : Curve.PublicKey P := { point := Curve.mulGenerator k.scalar }
    ((signer.init .sign (.ofPrivate k)).2.sign message).Yields fun reply =>
      ∃ signature, reply.1 = .ok signature ∧
        (1 ≤ signature.r ∧ signature.r ≤ Curve.order P - 1) ∧
        (1 ≤ signature.s ∧ signature.s ≤ Curve.order P - 1) ∧
        (verifier.init .verify (.ofPublic pk)).2.verify message signature = .ok true := by
  intro signer verifier pk
  have pair : log pk.point = k.scalar := laws.log_mulGenerator k.scalar
  exact signer.sign_accepted verifier rfl (scheme_acceptsOwn laws pair) message

/-- Two multiples of the order, which give `r = 0`, and a nonce that gives `s = 0` are passed over.
The message read as a little-endian number is a multiple of the order. -/
theorem gost_signature_accepted_after_unsuitable_nonces :
    let k : Curve.PrivateKey Ecdsa.smallCurve.Multiple := { scalar := 5 }
    let signer : Signer (Curve.PrivateKey Ecdsa.smallCurve.Multiple)
        (Curve.PublicKey Ecdsa.smallCurve.Multiple) ScriptedNonce :=
      { scheme := scheme Ecdsa.smallCurve.Multiple, nonces := { values := [0, 13, 3, 30] } }
    let pk : Curve.PublicKey Ecdsa.smallCurve.Multiple := { point := Curve.mulGenerator 5 }
    let signature : Signature := { r := 4, s := 11 }
    Curve.DiscreteLog (WeierstrassCurve.Multiple.log (c := Ecdsa.smallCurve)) ∧
      Bytes.value [0x01, 0x04] % Ecdsa.smallCurve.order = 0 ∧
      (∃ signer', ((signer.init .sign (.ofPrivate k)).2.sign [0x04, 0x01]).run (fun _ => 0) 4 0 =
        .ok ((.ok signature, signer'), 0)) ∧
      (signer.init .verify (.ofPublic pk)).2.verify [0x04, 0x01] signature = .ok true := by
  intro k signer pk signature
  have laws : Curve.DiscreteLog (WeierstrassCurve.Multiple.log (c := Ecdsa.smallCurve)) :=
    WeierstrassCurve.Multiple.discreteLog
  have signed : ∃ signer', ((signer.init .sign (.ofPrivate k)).2.sign [0x04, 0x01]).run
      (fun _ => 0) 4 0 = .ok ((.ok signature, signer'), 0) := ⟨_, by cbv⟩
  refine ⟨laws, rfl, signed, ?_⟩
  obtain ⟨signer', run⟩ := signed
  obtain ⟨signature', answered, -, -, valid⟩ :=
    (gost_signature_accepted laws signer.nonces signer.nonces none none k [0x04, 0x01]).value run
  cases answered
  exact valid

end PublicKeyCrypto.Gost
