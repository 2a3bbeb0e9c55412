import PublicKeyCrypto.Proofs.Signature.Ecdsa
import Mathlib

/-!
# ECDSA signatures come in pairs

With `n - s` in place of `s` verification divides by the negative, so that both of its multipliers
are negated, and the point that it computes is the opposite one.  Opposite points have one first
coordinate, and a point is at infinity exactly if its opposite is.  So verification cannot tell
`(r, s)` from `(r, n - s)`, whether it accepts or refuses them.

That opposite points have one first coordinate is a law of its own.  On a short Weierstrass curve
it follows from the formulas for the sum, which is at infinity only for points with one first
coordinate.

## Main Definitions

* `Curve.Symmetric` — opposite points have one first coordinate

## Main Results

* `WeierstrassCurve.Multiple.symmetric` — the multiples of a generator obey the law
* `ecdsa_verification_ignores_sign` — the answers for `s` and for `n - s` are the same
-/

namespace PublicKeyCrypto

/-- Opposite points have one first coordinate. -/
def Curve.Symmetric {P : Type} [Curve P] (log : P → ZMod (Curve.order P)) : Prop :=
  ∀ p q, log p = -log q → Curve.xCoordinate p = Curve.xCoordinate q

namespace WeierstrassCurve

variable {c : WeierstrassCurve}

/-- Only points with one first coordinate add up to infinity. -/
theorem Point.x_eq_of_add_eq_infinity {p q : Point c} (h : p.add q = .infinity) : p.x = q.x := by
  cases p with
  | infinity =>
      rw [show q = .infinity from h]
  | affine x₁ y₁ =>
      cases q with
      | infinity => cases h
      | affine x₂ y₂ =>
          by_contra distinct
          have chord : Point.add (.affine x₁ y₁) (.affine x₂ y₂) =
              chord c (c.div (c.sub y₂ y₁) (c.sub x₂ x₁)) x₁ y₁ x₂ := if_neg distinct
          rw [chord] at h
          cases h

/-- Opposite multiples of the generator add up to infinity. -/
theorem Multiple.symmetric [cyclic : IsCyclic c] :
    Curve.Symmetric (Multiple.log : Multiple c → _) := by
  intro p q opposite
  obtain ⟨i, hp⟩ := p.exists_val_eq
  obtain ⟨j, hq⟩ := q.exists_val_eq
  rw [Multiple.log_eq hp, Multiple.log_eq hq, eq_neg_iff_add_eq_zero] at opposite
  have zero : i + j ≡ 0 [MOD c.order] :=
    (ZMod.natCast_eq_natCast_iff _ _ _).mp (by
      rw [Nat.cast_add, Nat.cast_zero]
      exact opposite)
  have sum : p.val.add q.val = .infinity := by
    rw [hp, hq, IsCyclic.mul_add_mul]
    exact IsCyclic.mul_eq_infinity_iff.mpr zero
  exact Point.x_eq_of_add_eq_infinity sum

end WeierstrassCurve

/-- The range check does not tell the two forms apart. -/
theorem Signature.inRange_sub {order r s : ℕ} (positive : 1 ≤ s) (small : s ≤ order - 1) :
    Signature.inRange { r, s := order - s } order = Signature.inRange { r, s } order := by
  rw [Bool.eq_iff_iff, inRange_iff, inRange_iff]
  dsimp only
  omega

namespace Ecdsa

variable {P : Type} [Curve P] {log : P → ZMod (Curve.order P)}

/-- A multiplier that was divided by the negative is negated. -/
theorem cast_mul_sub_mod {n w : ℕ} (small : w ≤ n) (u : ℕ) :
    ((u * (n - w) % n : ℕ) : ZMod n) = -((u * w % n : ℕ) : ZMod n) := by
  rw [ZMod.natCast_mod, ZMod.natCast_mod]
  push_cast [Nat.cast_sub small]
  rw [ZMod.natCast_self]
  ring

/-- A point is at infinity exactly if its opposite is. -/
theorem isNeutral_eq_of_opposite (laws : Curve.DiscreteLog log) {p q : P}
    (opposite : log p = -log q) : Curve.isNeutral p = Curve.isNeutral q := by
  rw [Bool.eq_iff_iff, laws.isNeutral_iff, laws.isNeutral_iff, opposite, neg_eq_zero]

/-- Verification with the negated number gives the same answer. -/
theorem verify_sub (laws : Curve.DiscreteLog log) (symmetric : Curve.Symmetric log)
    (pk : Curve.PublicKey P) (message : Bytes) {r s : ℕ} (positive : 1 ≤ s)
    (small : s ≤ Curve.order P - 1) :
    verify pk message { r, s := Curve.order P - s } = verify pk message { r, s } := by
  have s_lt : s < Curve.order P := by
    have := laws.prime.pos
    omega
  have s_ne : s ≠ 0 := by omega
  obtain ⟨w, found, -⟩ := exists_invMod_of_prime laws.prime s_ne s_lt
  have w_le : w ≤ Curve.order P := (invMod_sound laws.prime.pos found).1.le
  -- The two points that verification computes are opposite.
  have opposite : log (Curve.mulAddGenerator pk.point (r * (Curve.order P - w) % Curve.order P)
        (leftmostBits (Curve.order P) message * (Curve.order P - w) % Curve.order P)) =
      -log (Curve.mulAddGenerator pk.point (r * w % Curve.order P)
        (leftmostBits (Curve.order P) message * w % Curve.order P)) := by
    rw [laws.log_mulAddGenerator, laws.log_mulAddGenerator, cast_mul_sub_mod w_le,
      cast_mul_sub_mod w_le]
    ring
  have neutral := isNeutral_eq_of_opposite laws opposite
  have coordinate := symmetric _ _ opposite
  simp only [verify, Signature.inRange_sub positive small, found, invMod_sub positive s_lt found,
    neutral, coordinate]

/-- **Signatures come in pairs.**  For every public key, also the point at infinity, every message
and every pair of numbers, valid or not: a verifier answers for `n - s` as it answers for `s`.  A
signer without a public key refuses both. -/
theorem ecdsa_verification_ignores_sign (laws : Curve.DiscreteLog log)
    (symmetric : Curve.Symmetric log) {K : Type} (nonces : K) (key : Option (Curve.Key P))
    (message : Bytes) (r : ℕ) {s : ℕ} (positive : 1 ≤ s) (small : s ≤ Curve.order P - 1) :
    let verifier : Signer (Curve.PrivateKey P) (Curve.PublicKey P) K :=
      { scheme := scheme P, nonces, key }
    verifier.verify message { r, s := Curve.order P - s } = verifier.verify message { r, s } := by
  intro verifier
  rcases key with _ | _ | pk
  · rfl
  · rfl
  · exact congrArg Except.ok (verify_sub laws symmetric pk message positive small)

/-- A valid signature over a small curve, and its other form. -/
theorem ecdsa_verification_ignores_sign_of_valid :
    let pk : Curve.PublicKey smallCurve.Multiple := { point := Curve.mulGenerator 5 }
    let verifier : Signer (Curve.PrivateKey smallCurve.Multiple)
        (Curve.PublicKey smallCurve.Multiple) RandomNonce :=
      { scheme := scheme smallCurve.Multiple, nonces := {}, key := some (.ofPublic pk) }
    Curve.DiscreteLog (WeierstrassCurve.Multiple.log (c := smallCurve)) ∧
      Curve.Symmetric (WeierstrassCurve.Multiple.log (c := smallCurve)) ∧
      verifier.verify [0xAB, 0xCD] { r := 4, s := 1 } = .ok true ∧
      verifier.verify [0xAB, 0xCD] { r := 4, s := 12 } = .ok true := by
  intro pk verifier
  have laws : Curve.DiscreteLog (WeierstrassCurve.Multiple.log (c := smallCurve)) :=
    WeierstrassCurve.Multiple.discreteLog
  have symmetric : Curve.Symmetric (WeierstrassCurve.Multiple.log (c := smallCurve)) :=
    WeierstrassCurve.Multiple.symmetric
  have valid : verifier.verify [0xAB, 0xCD] { r := 4, s := 1 } = .ok true := by cbv
  refine ⟨laws, symmetric, valid, ?_⟩
  rw [← valid]
  exact ecdsa_verification_ignores_sign laws symmetric verifier.nonces verifier.key [0xAB, 0xCD] 4
    le_rfl (by decide : 1 ≤ Curve.order smallCurve.Multiple - 1)

end Ecdsa

end PublicKeyCrypto
