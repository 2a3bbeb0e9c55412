import PublicKeyCrypto.Dsa.Key
import PublicKeyCrypto.Signature.Signer

/-!
# DSA

With the message as a number `e`, the signature for a nonce `k` is `r = (g ^ k mod p) mod q` and
`s = (e + x r) / k mod q` (FIPS 186). A nonce with `r = 0`, `s = 0` or no inverse is unsuitable.

## Main Definitions

* `Dsa.messageNumber` — the number of a message
* `Dsa.candidate`, `Dsa.verify` — signing with a nonce, and verification
* `Dsa.scheme` — the scheme
-/

namespace PublicKeyCrypto.Dsa

/-- The leftmost bytes of the message, as many as the order has whole bytes, as a number. -/
def messageNumber (q : Nat) (message : Bytes) : Nat :=
  Bytes.value (message.take (bitLength q / 8))

/-- The signature with a nonce. -/
def candidate (k : PrivateKey) (message : Bytes) (nonce : Nat) : Option Signature := do
  let group := k.group
  let r := powMod group.g nonce group.p % group.q
  guard (r ≠ 0)
  let inverse ← invMod nonce group.q
  let s := inverse * (messageNumber group.q message + k.x * r) % group.q
  guard (s ≠ 0)
  return { r, s }

/-- Whether a signature is valid. -/
def verify (k : PublicKey) (message : Bytes) (signature : Signature) : Bool :=
  let group := k.group
  if !signature.inRange group.q then false
  else
    match invMod signature.s group.q with
    | none => false
    | some w =>
      let u₁ := messageNumber group.q message * w % group.q
      let u₂ := signature.r * w % group.q
      powMod group.g u₁ group.p * powMod k.y u₂ group.p % group.p % group.q = signature.r

/-- DSA. -/
def scheme : SignatureScheme PrivateKey PublicKey where
  name := "DSA"
  label := .dsa
  order
    | .ofPrivate k => k.group.q
    | .ofPublic k => k.group.q
  secret k := k.x
  candidate := candidate
  verify := verify

end PublicKeyCrypto.Dsa
