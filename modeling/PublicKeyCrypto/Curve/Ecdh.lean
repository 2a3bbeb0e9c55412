import PublicKeyCrypto.Curve.Key

/-!
# Elliptic curve Diffie-Hellman

The shared value is the first coordinate of the peer's point times the private multiplier
(SEC 1, section 3.3.1).

## Main Definitions

* `Ecdh` — the agreement, with `init` and `agree`
-/

namespace PublicKeyCrypto

/-- The agreement, with the private key once it has been set. -/
structure Ecdh (P : Type) where
  key : Option (Curve.PrivateKey P) := none

namespace Ecdh

variable {P : Type}

/-- Sets the private key. A public key is refused and changes nothing. -/
def init (a : Ecdh P) : Curve.Key P → Reply (Ecdh P) Unit
  | .ofPrivate k => (.ok (), { key := some k })
  | .ofPublic _ => (.error (.invalidArgument .ecdhNeedsPrivate), a)

variable [Curve P]

/-- Length of a shared value, in bytes. -/
def fieldSize (_ : Ecdh P) : Nat := Curve.fieldSize P

/-- The value shared with a peer. -/
def agree (a : Ecdh P) (peer : Curve.PublicKey P) : Except Error Nat :=
  match a.key with
  | none => .error (.notInitialised .ecdh)
  | some k =>
    let shared := Curve.mul peer.point k.scalar
    if Curve.isNeutral shared then .error (.invalidAgreement .ecdhInfinity)
    else .ok (Curve.xCoordinate shared)

end Ecdh

end PublicKeyCrypto
