import PublicKeyCrypto.Curve.Key
import PublicKeyCrypto.Number.Modular
import PublicKeyCrypto.Signature.Signer

/-!
# ECDSA

With the message as a number `e`, the signature for a nonce `k` is `r = x(k G) mod n` and
`s = (e + d r) / k mod n` (SEC 1, section 4.1). A nonce with `r = 0`, `s = 0` or no inverse is
unsuitable.

## Main Definitions

* `Ecdsa.candidate`, `Ecdsa.verify` — signing with a nonce, and verification
* `Ecdsa.scheme` — the scheme over a curve
-/

namespace PublicKeyCrypto.Ecdsa

variable {P : Type} [Curve P]

/-- The signature with a nonce. -/
def candidate (k : Curve.PrivateKey P) (message : Bytes) (nonce : Nat) : Option Signature := do
  let n := Curve.order P
  let r := Curve.xCoordinate (Curve.mulGenerator nonce : P) % n
  guard (r ≠ 0)
  let inverse ← invMod nonce n
  let s := inverse * (leftmostBits n message + k.scalar * r) % n
  guard (s ≠ 0)
  return { r, s }

/-- Whether a signature is valid. -/
def verify (k : Curve.PublicKey P) (message : Bytes) (signature : Signature) : Bool :=
  let n := Curve.order P
  if !signature.inRange n then false
  else
    match invMod signature.s n with
    | none => false
    | some w =>
      let u₁ := leftmostBits n message * w % n
      let u₂ := signature.r * w % n
      let point := Curve.mulAddGenerator k.point u₂ u₁
      !Curve.isNeutral point && Curve.xCoordinate point % n = signature.r

/-- ECDSA over the curve with points of type `P`. -/
def scheme (P : Type) [Curve P] : SignatureScheme (Curve.PrivateKey P) (Curve.PublicKey P) where
  name := "ECDSA"
  label := .ecdsa
  order _ := Curve.order P
  secret k := k.scalar
  candidate := candidate
  verify := verify

end PublicKeyCrypto.Ecdsa
