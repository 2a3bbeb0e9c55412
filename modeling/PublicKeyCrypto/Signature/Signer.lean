import PublicKeyCrypto.Direction
import PublicKeyCrypto.KeyHalf
import PublicKeyCrypto.Signature.Basic
import PublicKeyCrypto.Signature.Nonce

/-!
# Signers

The signature schemes of the library differ in two functions: the signature that a nonce gives for
a message, unless the nonce is unsuitable, and the verification of a signature. A signer asks its
nonce source for candidates until one is suitable.

## Main Definitions

* `SignatureScheme` — what tells the schemes apart
* `Signer` — a signer and verifier, with `init`, `sign` and `verify`
-/

namespace PublicKeyCrypto

/-- A scheme with private keys of type `S` and public keys of type `P`. -/
structure SignatureScheme (S P : Type) where
  /-- Name of the algorithm. -/
  name : String
  /-- The scheme, as errors name it. -/
  label : PairScheme
  /-- The group order that belongs to a key. -/
  order : KeyHalf S P → Nat
  /-- The secret number of a private key. -/
  secret : S → Nat
  /-- The signature of a message with a nonce; none if the nonce is unsuitable. -/
  candidate : S → (message : Bytes) → (nonce : Nat) → Option Signature
  /-- Whether a signature of a message is valid. -/
  verify : P → (message : Bytes) → Signature → Bool

/-- A signer of a scheme, with a nonce source, and with the key once it has been set. -/
structure Signer (S P K : Type) where
  scheme : SignatureScheme S P
  nonces : K
  key : Option (KeyHalf S P) := none

namespace Signer

variable {S P K : Type}

/-- Sets the key: a private key to sign, a public key to verify. A key of the wrong role is
refused and changes nothing. -/
def init (s : Signer S P K) (task : Task) (key : KeyHalf S P) : Reply (Signer S P K) Unit :=
  match key, task with
  | .ofPrivate _, .sign | .ofPublic _, .verify => (.ok (), { s with key := some key })
  | .ofPublic _, .sign => (.error (.invalidArgument (.signingNeedsPrivate s.scheme.label)), s)
  | .ofPrivate _, .verify =>
    (.error (.invalidArgument (.verificationNeedsPublic s.scheme.label)), s)

/-- The group order, once a key has been set. -/
def order (s : Signer S P K) : Option Nat := s.key.map s.scheme.order

/-- The first suitable candidate of a nonce source, with the source after it. -/
def firstSuitable [NonceSource K] (candidate : Nat → Option Signature) (nonces : K) :
    Draw (Signature × K) :=
  Draw.untilDone (fun nonces => do
    let (nonce, nonces') ← NonceSource.next nonces
    return match candidate nonce with
      | some signature => .done (signature, nonces')
      | none => .again nonces') nonces

/-- The signature of a message. -/
def sign [NonceSource K] (s : Signer S P K) (message : Bytes) :
    Draw (Reply (Signer S P K) Signature) :=
  match s.key with
  | none => return (.error (.notInitialised (.signer s.scheme.label)), s)
  | some (.ofPublic _) => return (.error (.invalidState (.signerForVerification s.scheme.label)), s)
  | some (.ofPrivate k) => do
    let seeded :=
      NonceSource.init s.nonces (s.scheme.order (.ofPrivate k)) (s.scheme.secret k) message
    let (signature, nonces) ← firstSuitable (s.scheme.candidate k message) seeded
    return (.ok signature, { s with nonces })

/-- Whether a signature of a message is valid. -/
def verify (s : Signer S P K) (message : Bytes) (signature : Signature) : Except Error Bool :=
  match s.key with
  | none => .error (.notInitialised (.signer s.scheme.label))
  | some (.ofPrivate _) => .error (.invalidState (.signerForSigning s.scheme.label))
  | some (.ofPublic k) => .ok (s.scheme.verify k message signature)

end Signer

end PublicKeyCrypto
