import PublicKeyCrypto.Curve.Ecdh
import PublicKeyCrypto.Proofs.DiffieHellman.Degenerate
import PublicKeyCrypto.Proofs.Signature.Ecdsa
import Mathlib

/-!
# The two sides of the basic agreements

Two parties that use each other's public keys come to the same element: the power of the generator
to the product of both exponents, or the generator times both multipliers.  They refuse it or accept
it by looking at that element, and so they do the same.

Over a field of numbers the element may be one.  That depends on the order of the generator and on
the product of the exponents, for a prime modulus as for any other (`agree_publicKey`).  On a curve
the order is prime, so that no product of multipliers below it leads to the point at infinity
(`Ecdh.agree_publicKey`).

## Main Results

* `DiffieHellman.Agreement.agree_publicKey`, `Ecdh.agree_publicKey` — what a party gives
* `basic_agreements_symmetric` — both parties get the same result
-/

namespace PublicKeyCrypto

namespace DiffieHellman.Agreement

variable {a b : PrivateKey}

/-- A public key that passes the check belongs to the same group. -/
theorem group_eq_of_checkPeer (accepted : a.checkPeer b.publicKey = .ok ()) : b.group = a.group :=
  (PrivateKey.checkPeer_eq_ok_iff.mp accepted).1

/-- The power of a power of the generator. -/
theorem powMod_publicKey (same : b.group = a.group) :
    powMod b.publicKey.y a.x a.group.p = a.group.g ^ (a.x * b.x) % a.group.p := by
  rw [PrivateKey.publicKey, powMod_eq, powMod_eq, same, ← Nat.pow_mod, ← pow_mul, mul_comm]

/-- **What a party gives** for a public key that passes its check. -/
theorem agree_publicKey (accepted : a.checkPeer b.publicKey = .ok ()) :
    ({ key := some a } : Agreement).agree b.publicKey =
      if a.group.g ^ (a.x * b.x) % a.group.p = 1 then .error (.invalidAgreement .sharedOne)
      else .ok (a.group.g ^ (a.x * b.x) % a.group.p) := by
  rw [agree_of_checkPeer accepted, ← powMod_eq, powMod_publicKey (group_eq_of_checkPeer accepted)]

/-- The shared power is one if the product of the exponents is a multiple of the order. -/
theorem shared_eq_one_iff :
    a.group.g ^ (a.x * b.x) % a.group.p = 1 ↔
      orderOf (a.group.g : ZMod a.group.p) ∣ a.x * b.x := by
  rw [Group.mod_eq_one_iff, Nat.cast_pow, orderOf_dvd_iff_pow_eq_one]

end DiffieHellman.Agreement

namespace Ecdh

variable {P : Type} [Curve P] {log : P → ZMod (Curve.order P)} {a b : Curve.PrivateKey P}

/-- The shared point is the generator times both multipliers. -/
theorem log_mul_publicKey (laws : Curve.DiscreteLog log) :
    log (Curve.mul b.publicKey.point a.scalar) = a.scalar * b.scalar := by
  rw [laws.log_mul, Curve.PrivateKey.publicKey, laws.log_mulGenerator]

/-- Multipliers below the order, which is prime, do not lead to the point at infinity. -/
theorem isNeutral_mul_publicKey (laws : Curve.DiscreteLog log)
    (rangeA : 1 ≤ a.scalar ∧ a.scalar < Curve.order P)
    (rangeB : 1 ≤ b.scalar ∧ b.scalar < Curve.order P) :
    Curve.isNeutral (Curve.mul b.publicKey.point a.scalar) = false := by
  have : Fact (Curve.order P).Prime := ⟨laws.prime⟩
  have nonzero {k : ℕ} (range : 1 ≤ k ∧ k < Curve.order P) : (k : ZMod (Curve.order P)) ≠ 0 := by
    rw [Ne, ZMod.natCast_eq_zero_iff]
    exact Nat.not_dvd_of_pos_of_lt range.1 range.2
  rw [← Bool.not_eq_true, laws.isNeutral_iff, log_mul_publicKey laws]
  exact mul_ne_zero (nonzero rangeA) (nonzero rangeB)

/-- **What a party gives** for the public key of a peer. -/
theorem agree_publicKey (laws : Curve.DiscreteLog log)
    (rangeA : 1 ≤ a.scalar ∧ a.scalar < Curve.order P)
    (rangeB : 1 ≤ b.scalar ∧ b.scalar < Curve.order P) :
    ({ key := some a } : Ecdh P).agree b.publicKey =
      .ok (Curve.xCoordinate (Curve.mulGenerator (a.scalar * b.scalar) : P)) := by
  have finite := isNeutral_mul_publicKey laws rangeA rangeB
  have coordinate : Curve.xCoordinate (Curve.mul b.publicKey.point a.scalar) =
      Curve.xCoordinate (Curve.mulGenerator (a.scalar * b.scalar) : P) := by
    apply laws.xCoordinate_congr
    rw [log_mul_publicKey laws, laws.log_mulGenerator, Nat.cast_mul]
  unfold agree
  dsimp only
  rw [if_neg (by rw [finite]; exact Bool.false_ne_true), coordinate]

end Ecdh

open DiffieHellman in
/-- **Both parties get the same result**, whatever keys their agreements had before.

Over a field of numbers, when either public key passes the check of the other party, which includes
that the groups are equal, both get the power of the generator to the product of the exponents, or
both refuse, just when the order of the generator divides that product.  No modulus is assumed to be
prime.  On a curve of prime order nobody refuses: both get the first coordinate of the generator
times both multipliers, which is never the point at infinity. -/
theorem basic_agreements_symmetric :
    (∀ (s t : Agreement) (a b : PrivateKey),
      a.checkPeer b.publicKey = .ok () → b.checkPeer a.publicKey = .ok () →
      let byA := (s.init (.ofPrivate a)).2.agree b.publicKey
      let byB := (t.init (.ofPrivate b)).2.agree a.publicKey
      byA = byB ∧
        (byA = .error (.invalidAgreement .sharedOne) ↔
          orderOf (a.group.g : ZMod a.group.p) ∣ a.x * b.x) ∧
        (¬orderOf (a.group.g : ZMod a.group.p) ∣ a.x * b.x →
          byA = .ok (a.group.g ^ (a.x * b.x) % a.group.p))) ∧
      ∀ (P : Type) [Curve P] (log : P → ZMod (Curve.order P)) (s t : Ecdh P)
        (a b : Curve.PrivateKey P), Curve.DiscreteLog log →
        1 ≤ a.scalar ∧ a.scalar < Curve.order P → 1 ≤ b.scalar ∧ b.scalar < Curve.order P →
        let byA := (s.init (.ofPrivate a)).2.agree b.publicKey
        let byB := (t.init (.ofPrivate b)).2.agree a.publicKey
        byA = byB ∧
          byA = .ok (Curve.xCoordinate (Curve.mulGenerator (a.scalar * b.scalar) : P)) ∧
          Curve.isNeutral (Curve.mul b.publicKey.point a.scalar) = false ∧
          Curve.isNeutral (Curve.mul a.publicKey.point b.scalar) = false := by
  constructor
  · intro s t a b acceptedA acceptedB byA byB
    have forA : byA = _ := Agreement.agree_publicKey acceptedA
    have forB : byB = _ := Agreement.agree_publicKey acceptedB
    rw [mul_comm b.x, ← Agreement.group_eq_of_checkPeer acceptedB] at forB
    refine ⟨forA.trans forB.symm, ?_⟩
    rw [forA, ← Agreement.shared_eq_one_iff]
    split
    · next one => exact ⟨iff_of_true rfl one, fun other => absurd one other⟩
    · next other => exact ⟨iff_of_false nofun other, fun _ => rfl⟩
  · intro P _ log s t a b laws rangeA rangeB byA byB
    have forA : byA = _ := Ecdh.agree_publicKey laws rangeA rangeB
    have forB : byB = _ := Ecdh.agree_publicKey laws rangeB rangeA
    rw [mul_comm] at forB
    exact ⟨forA.trans forB.symm, forA, Ecdh.isNeutral_mul_publicKey laws rangeA rangeB,
      Ecdh.isNeutral_mul_publicKey laws rangeB rangeA⟩

/-- The powers of two modulo the composite number 21; two has the order six. -/
def DiffieHellman.compositeGroup : DiffieHellman.Group where
  p := 21
  g := 2
  order := none
  privateLength := 0
  p_size := by decide
  p_odd := by decide
  g_range := by decide
  order_range := by simp
  length_range := by decide

open DiffieHellman in
/-- Modulo 21 the exponents two and three are refused on both sides, and the exponents two and five
are not.  On the curve of thirteen points the multipliers five and seven give the first coordinate
four, which is that of the ninth multiple. -/
theorem basic_agreements_symmetric_modulo_composite :
    let key (x : ℕ) : PrivateKey := { x, group := compositeGroup }
    let agree (x y : ℕ) :=
      (({} : Agreement).init (.ofPrivate (key x))).2.agree (key y).publicKey
    let agreeOnCurve (d e : ℕ) :=
      (({} : Ecdh Ecdsa.smallCurve.Multiple).init (.ofPrivate ⟨d⟩)).2.agree
        (Curve.PrivateKey.publicKey ⟨e⟩)
    agree 2 3 = .error (.invalidAgreement .sharedOne) ∧
      agree 3 2 = .error (.invalidAgreement .sharedOne) ∧
      agree 2 5 = .ok 16 ∧ agree 5 2 = .ok 16 ∧
      Curve.DiscreteLog (WeierstrassCurve.Multiple.log (c := Ecdsa.smallCurve)) ∧
      agreeOnCurve 5 7 = .ok 4 ∧ agreeOnCurve 7 5 = .ok 4 := by
  intro key agree agreeOnCurve
  have refused : agree 2 3 = .error (.invalidAgreement .sharedOne) := by
    unfold agree
    cbv
  have given : agree 2 5 = .ok 16 := by
    unfold agree
    cbv
  obtain ⟨overNumbers, onCurves⟩ := basic_agreements_symmetric
  obtain ⟨sameRefused, -⟩ := overNumbers {} {} (key 2) (key 3) (by cbv) (by cbv)
  obtain ⟨sameGiven, -⟩ := overNumbers {} {} (key 2) (key 5) (by cbv) (by cbv)
  have laws : Curve.DiscreteLog (WeierstrassCurve.Multiple.log (c := Ecdsa.smallCurve)) :=
    WeierstrassCurve.Multiple.discreteLog
  have agreed : agreeOnCurve 5 7 = .ok 4 := by
    unfold agreeOnCurve
    cbv
  obtain ⟨sameAgreed, -⟩ :=
    onCurves Ecdsa.smallCurve.Multiple _ {} {} ⟨5⟩ ⟨7⟩ laws (by decide) (by decide)
  exact ⟨refused, sameRefused.symm.trans refused, given, sameGiven.symm.trans given, laws, agreed,
    sameAgreed.symm.trans agreed⟩

end PublicKeyCrypto
