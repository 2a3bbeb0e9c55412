import PublicKeyCrypto.Curve.Key
import PublicKeyCrypto.Number.Modular
import PublicKeyCrypto.Signature.Signer

/-!
# GOST R 34.10

With the message as a number `e`, never zero, the signature for a nonce `k` is `r = x(k G) mod n`
and `s = (k e + d r) mod n`. A nonce with `r = 0` or `s = 0` is unsuitable.

## Main Definitions

* `Gost.messageNumber` — the number of a message
* `Gost.candidate`, `Gost.verify` — signing with a nonce, and verification
* `Gost.scheme` — the scheme over a curve
-/

namespace PublicKeyCrypto.Gost

variable {P : Type} [Curve P]

/-- The message as a little-endian number modulo the order, with one in place of zero. -/
def messageNumber (n : Nat) (message : Bytes) : Nat :=
  let e := Bytes.value message.reverse % n
  if e = 0 then 1 else e

/-- The signature with a nonce. -/
def candidate (k : Curve.PrivateKey P) (message : Bytes) (nonce : Nat) : Option Signature := do
  let n := Curve.order P
  let r := Curve.xCoordinate (Curve.mulGenerator nonce : P) % n
  guard (r ≠ 0)
  let s := (nonce * messageNumber n message + k.scalar * r) % n
  guard (s ≠ 0)
  return { r, s }

/-- Whether a signature is valid. -/
def verify (k : Curve.PublicKey P) (message : Bytes) (signature : Signature) : Bool :=
  let n := Curve.order P
  if !signature.inRange n then false
  else
    match invMod (messageNumber n message) n with
    | none => false
    | some v =>
      let z₁ := signature.s * v % n
      let z₂ := (n - signature.r) * v % n
      let point := Curve.mulAddGenerator k.point z₂ z₁
      !Curve.isNeutral point && Curve.xCoordinate point % n = signature.r

/-- GOST R 34.10 over the curve with points of type `P`. -/
def scheme (P : Type) [Curve P] : SignatureScheme (Curve.PrivateKey P) (Curve.PublicKey P) where
  name := "ECGOST3410"
  label := .gost
  order _ := Curve.order P
  secret k := k.scalar
  candidate := candidate
  verify := verify

end PublicKeyCrypto.Gost
