import PublicKeyCrypto.Curve.Key

/-!
# ECMQV

Each party holds a static and an ephemeral key pair (SEC 1, section 3.4). The associated value of
a point is the lower half of its first coordinate with a one before it. A party signs implicitly
with its ephemeral multiplier plus its static multiplier times the associated value of its
ephemeral point; the shared point is that signature times the peer's ephemeral point plus the
associated value of that point times the peer's static point.

## Main Definitions

* `associatedValue`, `Ecmqv.PrivateKeys.signature` — the parts of the computation
* `Ecmqv` — the agreement, with `init` and `agree`
-/

namespace PublicKeyCrypto

/-- The keys of the local party. -/
structure Ecmqv.PrivateKeys (P : Type) where
  static : Curve.PrivateKey P
  ephemeral : Curve.PrivateKey P
  ephemeralPublic : Curve.PublicKey P

/-- The keys of the peer. -/
structure Ecmqv.PublicKeys (P : Type) where
  static : Curve.PublicKey P
  ephemeral : Curve.PublicKey P

variable {P : Type} [Curve P]

/-- The lower half of the first coordinate, with a one before it. -/
def associatedValue (k : Curve.PublicKey P) : Nat :=
  let half := 1 <<< ((bitLength (Curve.order P) + 1) / 2)
  Curve.xCoordinate k.point % half + half

namespace Ecmqv.PrivateKeys

/-- The keys whose public part is computed from the ephemeral private key. -/
def ofPrivate (static ephemeral : Curve.PrivateKey P) : Ecmqv.PrivateKeys P :=
  { static, ephemeral, ephemeralPublic := ephemeral.publicKey }

/-- The implicit signature. -/
def signature (k : Ecmqv.PrivateKeys P) : Nat :=
  (k.static.scalar * associatedValue k.ephemeralPublic + k.ephemeral.scalar) % Curve.order P

end Ecmqv.PrivateKeys

/-- The agreement, with the keys once they have been set. -/
structure Ecmqv (P : Type) where
  keys : Option (Ecmqv.PrivateKeys P) := none

namespace Ecmqv

/-- Sets the keys. -/
def init (_ : Ecmqv P) (keys : Ecmqv.PrivateKeys P) : Reply (Ecmqv P) Unit :=
  (.ok (), { keys := some keys })

/-- Length of a shared value, in bytes. -/
def fieldSize (_ : Ecmqv P) : Nat := Curve.fieldSize P

/-- The value shared with a peer. -/
def agree (a : Ecmqv P) (peer : Ecmqv.PublicKeys P) : Except Error Nat :=
  match a.keys with
  | none => .error (.notInitialised .ecmqv)
  | some keys =>
    let s := keys.signature
    let u := associatedValue peer.ephemeral * s % Curve.order P
    let shared := Curve.add (Curve.mul peer.static.point u) (Curve.mul peer.ephemeral.point s)
    if Curve.isNeutral shared then .error (.invalidAgreement .ecmqvInfinity)
    else .ok (Curve.xCoordinate shared)

end Ecmqv

end PublicKeyCrypto
