import PublicKeyCrypto.DiffieHellman.Key

/-!
# Diffie-Hellman agreement

Two parties each hold a private key. In the basic agreement the shared value is the power of the
peer's public value. In the agreement MTI/A0 each party also draws a private exponent for the
session and sends the power of the generator; the shared value is the product of the message to
the static exponent and the peer's public value to the session's exponent. A session gives one
message and then one shared value.

Values of a peer are checked. The basic agreement refuses a shared value of one, since it shows that
a value was chosen in a small subgroup. MTI/A0 refuses if the second factor is one.

## Main Definitions

* `DiffieHellman.Agreement` — the basic agreement
* `DiffieHellman.MtiAgreement` — the agreement with a message in each direction
-/

namespace PublicKeyCrypto.DiffieHellman

/-- Refuses a peer from another group, and a public value out of range. -/
def PrivateKey.checkPeer (k : PrivateKey) (peer : PublicKey) : Except Error Unit :=
  if k.group ≠ peer.group then .error (.invalidArgument .foreignParameters)
  else k.group.checkValue peer.y

/-- The basic agreement, with the private key once it has been set. -/
structure Agreement where
  key : Option PrivateKey := none

namespace Agreement

/-- Sets the private key. A public key is refused and changes nothing. -/
def init (a : Agreement) : Key → Reply Agreement Unit
  | .ofPrivate k => (.ok (), { key := some k })
  | .ofPublic _ => (.error (.invalidArgument .diffieHellmanNeedsPrivate), a)

/-- Length of a shared value, in bytes; zero before the first key. -/
def fieldSize (a : Agreement) : Nat :=
  match a.key with
  | none => 0
  | some k => byteLength k.group.p

/-- The value shared with a peer. -/
def agree (a : Agreement) (peer : PublicKey) : Except Error Nat :=
  match a.key with
  | none => .error (.notInitialised .diffieHellman)
  | some k => do
    k.checkPeer peer
    let z := powMod peer.y k.x k.group.p
    if z = 1 then .error (.invalidAgreement .sharedOne) else return z

end Agreement

/-- The agreement MTI/A0, by how far its session has come. -/
inductive MtiAgreement
  /-- No private key has been set. -/
  | idle
  /-- A session has begun. -/
  | awaitingMessage (key : PrivateKey)
  /-- The message has been sent; the exponent of the session is kept, in its shortest encoding. -/
  | awaitingAgreement (key : PrivateKey) (ephemeral : Bytes)
  /-- The session has given its shared value. -/
  | done (key : PrivateKey)

namespace MtiAgreement

/-- Begins a session with a private key; a session that is under way is dropped. A public key is
refused and changes nothing. -/
def init (a : MtiAgreement) : Key → Reply MtiAgreement Unit
  | .ofPrivate k => (.ok (), awaitingMessage k)
  | .ofPublic _ => (.error (.invalidArgument .diffieHellmanNeedsPrivate), a)

/-- Draws the exponent of the session and gives the message for the peer. -/
def message (a : MtiAgreement) : Draw (Reply MtiAgreement Nat) :=
  match a with
  | idle => return (.error (.notInitialised .diffieHellman), a)
  | awaitingMessage k => do
    let ephemeral ← k.group.generate
    return (.ok ephemeral.publicKey.y, awaitingAgreement k (Bytes.minimal ephemeral.x))
  | awaitingAgreement _ _ | done _ => return (.error (.invalidState .messageAlreadySent), a)

/-- The value shared with a peer that sent a message; this ends the session. A refusal changes
nothing. -/
def agree (a : MtiAgreement) (peer : PublicKey) (message : Nat) : Reply MtiAgreement Nat :=
  match a with
  | idle => (.error (.notInitialised .diffieHellman), a)
  | awaitingMessage _ => (.error (.invalidState .messageNotSent), a)
  | done _ => (.error (.invalidState .agreementCompleted), a)
  | awaitingAgreement k ephemeral =>
    let p := k.group.p
    let shared : Except Error Nat := do
      k.checkPeer peer
      k.group.checkValue message
      let t := powMod peer.y ephemeral.value p
      if t = 1 then .error (.invalidAgreement .sharedOne)
      else return powMod message k.x p * t % p
    match shared with
    | .error e => (.error e, a)
    | .ok z => (.ok z, done k)

end MtiAgreement

end PublicKeyCrypto.DiffieHellman
