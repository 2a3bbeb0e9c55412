import PublicKeyCrypto.Curve.Ecmqv
import PublicKeyCrypto.Proofs.Curve.CyclicGroup
import PublicKeyCrypto.Proofs.Signature.Ecdsa
import Mathlib

/-!
# The two sides of ECMQV

Each party computes a point from its implicit signature and the public keys of its peer.  Counted in
multiples of the generator, what it takes from the public keys is the implicit signature of the
peer, so that both come to the product of the two signatures (`log_sharedPoint`).

The parties reduce at different places, one its own signature and the other the associated value
times its signature.  Modulo the order that makes no difference.  The shared point is the point at
infinity just when the product of the signatures is zero modulo the order, and since that is prime,
just when one of them is.  So both parties refuse, or neither does.

## Main Definitions

* `Ecmqv.PrivateKeys.publicKeys` — what a party tells its peer
* `Ecmqv.sharedPoint` — the point that a party computes

## Main Results

* `Ecmqv.log_sharedPoint` — the point as a multiple of the generator
* `ecmqv_agreement_symmetric` — both parties get the same result
-/

namespace PublicKeyCrypto.Ecmqv

variable {P : Type} [Curve P] {log : P → ZMod (Curve.order P)}

namespace PrivateKeys

/-- What the party tells its peer. -/
def publicKeys (k : PrivateKeys P) : PublicKeys P where
  static := k.static.publicKey
  ephemeral := k.ephemeralPublic

theorem signature_lt (laws : Curve.DiscreteLog log) (k : PrivateKeys P) :
    k.signature < Curve.order P :=
  Nat.mod_lt _ laws.prime.pos

/-- Modulo the order a signature is the sum that it was reduced from. -/
theorem cast_signature (k : PrivateKeys P) :
    (k.signature : ZMod (Curve.order P)) =
      k.static.scalar * associatedValue k.ephemeralPublic + k.ephemeral.scalar := by
  rw [signature, ZMod.natCast_mod]
  push_cast
  rfl

/-- No signature but zero is zero modulo the order. -/
theorem cast_signature_eq_zero_iff (laws : Curve.DiscreteLog log) (k : PrivateKeys P) :
    (k.signature : ZMod (Curve.order P)) = 0 ↔ k.signature = 0 := by
  rw [ZMod.natCast_eq_zero_iff]
  constructor
  · exact fun divides => Nat.eq_zero_of_dvd_of_lt divides (k.signature_lt laws)
  · intro zero
    rw [zero]
    exact dvd_zero _

end PrivateKeys

/-- The point that a party with a signature computes from the public keys of its peer. -/
def sharedPoint (signature : ℕ) (peer : PublicKeys P) : P :=
  Curve.add
    (Curve.mul peer.static.point (associatedValue peer.ephemeral * signature % Curve.order P))
    (Curve.mul peer.ephemeral.point signature)

/-- What an agreement with keys gives, in terms of that point. -/
theorem agree_eq (k : PrivateKeys P) (peer : PublicKeys P) :
    ({ keys := some k } : Ecmqv P).agree peer =
      if Curve.isNeutral (sharedPoint k.signature peer) then
        .error (.invalidAgreement .ecmqvInfinity)
      else .ok (Curve.xCoordinate (sharedPoint k.signature peer)) := rfl

/-- **The shared point** is the generator times both signatures, if the peer tells the public key of
its ephemeral pair. -/
theorem log_sharedPoint (laws : Curve.DiscreteLog log) (signature : ℕ) {v : PrivateKeys P}
    (derived : v.ephemeralPublic = v.ephemeral.publicKey) :
    log (sharedPoint signature v.publicKeys) = signature * v.signature := by
  have static : log v.publicKeys.static.point = v.static.scalar := laws.log_mulGenerator _
  have ephemeral : log v.publicKeys.ephemeral.point = v.ephemeral.scalar := by
    rw [PrivateKeys.publicKeys, derived]
    exact laws.log_mulGenerator _
  calc log (sharedPoint signature v.publicKeys)
    _ = (associatedValue v.ephemeralPublic * signature % Curve.order P : ℕ) * v.static.scalar +
          signature * v.ephemeral.scalar := by
        rw [sharedPoint, laws.log_add, laws.log_mul, laws.log_mul, static, ephemeral]
        rfl
    _ = signature * (v.static.scalar * associatedValue v.ephemeralPublic + v.ephemeral.scalar) := by
        rw [ZMod.natCast_mod]
        push_cast
        ring
    _ = signature * v.signature := by rw [v.cast_signature]

/-- **What a party gives** depends on the two signatures only. -/
theorem agree_publicKeys (laws : Curve.DiscreteLog log) (k : PrivateKeys P) {v : PrivateKeys P}
    (derived : v.ephemeralPublic = v.ephemeral.publicKey) :
    ({ keys := some k } : Ecmqv P).agree v.publicKeys =
      if k.signature = 0 ∨ v.signature = 0 then .error (.invalidAgreement .ecmqvInfinity)
      else .ok (Curve.xCoordinate (Curve.mulGenerator (k.signature * v.signature) : P)) := by
  have : Fact (Curve.order P).Prime := ⟨laws.prime⟩
  have shared := log_sharedPoint laws k.signature derived
  have infinity : Curve.isNeutral (sharedPoint k.signature v.publicKeys) = true ↔
      k.signature = 0 ∨ v.signature = 0 := by
    rw [laws.isNeutral_iff, shared, mul_eq_zero, k.cast_signature_eq_zero_iff laws,
      v.cast_signature_eq_zero_iff laws]
  have coordinate : Curve.xCoordinate (sharedPoint k.signature v.publicKeys) =
      Curve.xCoordinate (Curve.mulGenerator (k.signature * v.signature) : P) := by
    apply laws.xCoordinate_congr
    rw [shared, laws.log_mulGenerator, Nat.cast_mul]
  rw [agree_eq, coordinate]
  exact if_congr infinity rfl rfl

/-- **Both parties get the same result**, whatever keys their agreements had before.  It is the
first coordinate of the generator times both signatures, unless one signature is zero; then both
refuse to agree. -/
theorem ecmqv_agreement_symmetric (laws : Curve.DiscreteLog log) (a b : Ecmqv P)
    (u₁ u₂ v₁ v₂ : Curve.PrivateKey P) :
    let u := PrivateKeys.ofPrivate u₁ u₂
    let v := PrivateKeys.ofPrivate v₁ v₂
    let byU := (a.init u).2.agree { static := v₁.publicKey, ephemeral := v₂.publicKey }
    let byV := (b.init v).2.agree { static := u₁.publicKey, ephemeral := u₂.publicKey }
    byU = byV ∧
      (byU = .error (.invalidAgreement .ecmqvInfinity) ↔ u.signature = 0 ∨ v.signature = 0) ∧
      (¬(u.signature = 0 ∨ v.signature = 0) →
        byU = .ok (Curve.xCoordinate (Curve.mulGenerator (u.signature * v.signature) : P))) := by
  intro u v byU byV
  have forU : byU = _ := agree_publicKeys laws u (v := v) rfl
  have forV : byV = _ := agree_publicKeys laws v (v := u) rfl
  by_cases degenerate : u.signature = 0 ∨ v.signature = 0
  · rw [if_pos degenerate] at forU
    rw [if_pos degenerate.symm] at forV
    exact ⟨forU.trans forV.symm, iff_of_true forU degenerate, fun other => absurd degenerate other⟩
  · rw [if_neg degenerate] at forU
    rw [if_neg fun other => degenerate other.symm, Nat.mul_comm] at forV
    refine ⟨forU.trans forV.symm, iff_of_false ?_ degenerate, fun _ => forU⟩
    rw [forU]
    exact nofun

/-- Two parties over the curve of thirteen points, and two of which one has the signature zero. -/
theorem ecmqv_agreement_symmetric_on_small_curve :
    let agree (own own' peer peer' : Curve.PrivateKey Ecdsa.smallCurve.Multiple) :=
      (({} : Ecmqv Ecdsa.smallCurve.Multiple).init (.ofPrivate own own')).2.agree
        { static := peer.publicKey, ephemeral := peer'.publicKey }
    Curve.DiscreteLog (WeierstrassCurve.Multiple.log (c := Ecdsa.smallCurve)) ∧
      agree ⟨2⟩ ⟨3⟩ ⟨5⟩ ⟨7⟩ = .ok 1 ∧ agree ⟨5⟩ ⟨7⟩ ⟨2⟩ ⟨3⟩ = .ok 1 ∧
      agree ⟨4⟩ ⟨6⟩ ⟨5⟩ ⟨7⟩ = .error (.invalidAgreement .ecmqvInfinity) ∧
      agree ⟨5⟩ ⟨7⟩ ⟨4⟩ ⟨6⟩ = .error (.invalidAgreement .ecmqvInfinity) := by
  intro agree
  have laws : Curve.DiscreteLog (WeierstrassCurve.Multiple.log (c := Ecdsa.smallCurve)) :=
    WeierstrassCurve.Multiple.discreteLog
  have signatures : (PrivateKeys.ofPrivate ⟨4⟩ ⟨6⟩ :
      PrivateKeys Ecdsa.smallCurve.Multiple).signature = 0 := by cbv
  have agreed : agree ⟨2⟩ ⟨3⟩ ⟨5⟩ ⟨7⟩ = .ok 1 := by
    unfold agree
    cbv
  obtain ⟨same, -⟩ := ecmqv_agreement_symmetric laws {} {} ⟨2⟩ ⟨3⟩ ⟨5⟩ ⟨7⟩
  obtain ⟨same', refused, -⟩ := ecmqv_agreement_symmetric laws {} {} ⟨4⟩ ⟨6⟩ ⟨5⟩ ⟨7⟩
  have first := refused.mpr (.inl signatures)
  exact ⟨laws, agreed, same.symm.trans agreed, first, same'.symm.trans first⟩

end PublicKeyCrypto.Ecmqv
