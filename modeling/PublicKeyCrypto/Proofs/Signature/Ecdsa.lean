import PublicKeyCrypto.Curve.Ecdsa
import PublicKeyCrypto.Proofs.Curve.CyclicGroup
import PublicKeyCrypto.Proofs.Signature.Signing
import Mathlib

/-!
# ECDSA signatures are accepted

The point that verification computes stands for the multiplier `e w + d (r w)`, which is the nonce
modulo the order.  So it has the first coordinate of the nonce's point, and it is not the point at
infinity, since a nonce that is a multiple of the order has no inverse and is never taken.  The
argument does not ask how long the message is, whether its number exceeds the order, or whether
the nonce does.

## Main Results

* `candidate_eq_some_iff` — the signature that a nonce gives
* `scheme_acceptsOwn` — every candidate is in range and is valid
* `ecdsa_signature_accepted` — what a signer returns is verified, for every source of nonces
-/

namespace PublicKeyCrypto.Ecdsa

variable {P : Type} [Curve P]

/-- The signature that a nonce gives: the nonce has an inverse, and neither number is zero. -/
theorem candidate_eq_some_iff {k : Curve.PrivateKey P} {message : Bytes} {nonce : ℕ}
    {signature : Signature} :
    candidate k message nonce = some signature ↔
      ∃ inverse, invMod nonce (Curve.order P) = some inverse ∧
        signature.r = Curve.xCoordinate (Curve.mulGenerator nonce : P) % Curve.order P ∧
        signature.s = inverse * (leftmostBits (Curve.order P) message + k.scalar * signature.r)
          % Curve.order P ∧
        signature.r ≠ 0 ∧ signature.s ≠ 0 := by
  obtain ⟨r, s⟩ := signature
  simp only [candidate, Option.bind_eq_bind, Option.bind_eq_some_iff, Option.guard_eq_some',
    Option.pure_def, Option.some.injEq, Signature.mk.injEq]
  constructor
  · rintro ⟨-, hr, inverse, found, -, hs, rfl, rfl⟩
    exact ⟨inverse, found, rfl, rfl, hr, hs⟩
  · rintro ⟨inverse, found, rfl, rfl, hr, hs⟩
    exact ⟨(), hr, inverse, found, (), hs, rfl, rfl⟩

variable {log : P → ZMod (Curve.order P)}

/-- A nonce with an inverse does not lead to the point at infinity. -/
theorem isNeutral_of_log_eq (laws : Curve.DiscreteLog log) {point : P} {nonce inverse : ℕ}
    (inverts : nonce * inverse ≡ 1 [MOD Curve.order P]) (h : log point = nonce) :
    Curve.isNeutral point = false := by
  by_contra neutral
  rw [Bool.not_eq_false, laws.isNeutral_iff, h] at neutral
  have zero : nonce ≡ 0 [MOD Curve.order P] :=
    (ZMod.natCast_eq_natCast_iff _ _ _).mp (neutral.trans Nat.cast_zero.symm)
  have one : 0 ≡ 1 [MOD Curve.order P] := by
    calc 0 = 0 * inverse := (Nat.zero_mul _).symm
      _ ≡ nonce * inverse [MOD Curve.order P] := zero.symm.mul_right _
      _ ≡ 1 [MOD Curve.order P] := inverts
  exact laws.prime.one_lt.ne' (Nat.dvd_one.mp ((Nat.modEq_iff_dvd' zero_le_one).mp one))

/-- Every candidate is in range and is valid under every point for the private multiplier. -/
theorem scheme_acceptsOwn (laws : Curve.DiscreteLog log) {k : Curve.PrivateKey P}
    {pk : Curve.PublicKey P} (pair : log pk.point = k.scalar) :
    (scheme P).AcceptsOwn (Curve.order P) k pk := by
  intro message nonce signature suitable
  obtain ⟨inverse, found, hr, hs, r_ne, s_ne⟩ := candidate_eq_some_iff.mp suitable
  have inRange := Signature.inRange_of_mod laws.prime.pos hr hs r_ne s_ne
  have s_lt : signature.s < Curve.order P := hs ▸ Nat.mod_lt _ laws.prime.pos
  obtain ⟨w, found', hw⟩ := exists_invMod_of_prime laws.prime s_ne s_lt
  have inverts := (invMod_sound laws.prime.pos found).2
  have recovered := nonce_recovered inverts hs hw
  -- Counted in multiples of the generator, verification comes back to the point of the nonce.
  have back : log (Curve.mulAddGenerator pk.point (signature.r * w % Curve.order P)
      (leftmostBits (Curve.order P) message * w % Curve.order P)) = (nonce : ℕ) := by
    rw [laws.log_mulAddGenerator, pair, ← (ZMod.natCast_eq_natCast_iff _ _ _).mpr recovered]
    push_cast
    ring
  have notInfinity := isNeutral_of_log_eq laws inverts back
  have coordinate := laws.xCoordinate_congr _ (Curve.mulGenerator nonce)
    (back.trans (laws.log_mulGenerator nonce).symm)
  refine ⟨inRange, ?_⟩
  show verify _ message signature = true
  simp only [verify, inRange, found', notInfinity, coordinate, ← hr, Bool.not_true,
    Bool.not_false, Bool.false_eq_true, if_false, Bool.true_and, decide_true]

/-- **What a signer returns is verified.**  For every source of nonces and every answer of it,
every message, and signers in any earlier state: a signer with a private key answers, if it does,
with a signature in range that a verifier with the public key accepts. -/
theorem ecdsa_signature_accepted (laws : Curve.DiscreteLog log) {K K' : Type} [NonceSource K]
    (nonces : K) (nonces' : K') (old old' : Option (Curve.Key P)) (k : Curve.PrivateKey P)
    (message : Bytes) :
    let signer : Signer (Curve.PrivateKey P) (Curve.PublicKey P) K :=
      { scheme := scheme P, nonces, key := old }
    let verifier : Signer (Curve.PrivateKey P) (Curve.PublicKey P) K' :=
      { scheme := scheme P, nonces := nonces', key := old' }
    let pk : Curve.PublicKey P := { point := Curve.mulGenerator k.scalar }
    ((signer.init .sign (.ofPrivate k)).2.sign message).Yields fun reply =>
      ∃ signature, reply.1 = .ok signature ∧
        (1 ≤ signature.r ∧ signature.r ≤ Curve.order P - 1) ∧
        (1 ≤ signature.s ∧ signature.s ≤ Curve.order P - 1) ∧
        (verifier.init .verify (.ofPublic pk)).2.verify message signature = .ok true := by
  intro signer verifier pk
  have pair : log pk.point = k.scalar := laws.log_mulGenerator k.scalar
  exact signer.sign_accepted verifier rfl (scheme_acceptsOwn laws pair) message

/-! ## A signature over a small curve -/

/-- The curve `y² = x³ + 3` over seven elements, whose thirteen points are the multiples of
`(1, 2)`. -/
def smallCurve : WeierstrassCurve where
  name := "small"
  p := 7
  a := 0
  b := 3
  order := 13
  gx := 1
  gy := 2
  coordinateSize := 1

instance : smallCurve.IsCyclic where
  prime := by
    show Nat.Prime 13
    norm_num
  add_multiples := by decide_cbv
  ne_infinity := by decide_cbv

/-- Zero and two multiples of the order are passed over; the nonce that is taken exceeds the
order, and the number of the message is only a part of the message. -/
theorem ecdsa_signature_accepted_after_multiples_of_order :
    let k : Curve.PrivateKey smallCurve.Multiple := { scalar := 5 }
    let signer : Signer (Curve.PrivateKey smallCurve.Multiple)
        (Curve.PublicKey smallCurve.Multiple) ScriptedNonce :=
      { scheme := scheme smallCurve.Multiple, nonces := { values := [0, 13, 26, 30] } }
    let pk : Curve.PublicKey smallCurve.Multiple := { point := Curve.mulGenerator 5 }
    let signature : Signature := { r := 4, s := 1 }
    Curve.DiscreteLog (WeierstrassCurve.Multiple.log (c := smallCurve)) ∧
      (∃ signer', ((signer.init .sign (.ofPrivate k)).2.sign [0xAB, 0xCD]).run (fun _ => 0) 4 0 =
        .ok ((.ok signature, signer'), 0)) ∧
      (signer.init .verify (.ofPublic pk)).2.verify [0xAB, 0xCD] signature = .ok true := by
  intro k signer pk signature
  have laws : Curve.DiscreteLog (WeierstrassCurve.Multiple.log (c := smallCurve)) :=
    WeierstrassCurve.Multiple.discreteLog
  have signed : ∃ signer', ((signer.init .sign (.ofPrivate k)).2.sign [0xAB, 0xCD]).run
      (fun _ => 0) 4 0 = .ok ((.ok signature, signer'), 0) := ⟨_, by cbv⟩
  refine ⟨laws, signed, ?_⟩
  obtain ⟨signer', run⟩ := signed
  obtain ⟨signature', answered, -, -, valid⟩ :=
    (ecdsa_signature_accepted laws signer.nonces signer.nonces none none k [0xAB, 0xCD]).value run
  cases answered
  exact valid

end PublicKeyCrypto.Ecdsa
