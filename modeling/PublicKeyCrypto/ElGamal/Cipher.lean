import PublicKeyCrypto.Cipher.Basic
import PublicKeyCrypto.ElGamal.Key

/-!
# ElGamal encryption

A number below the modulus is encrypted as the pair of a random power of the generator and the
number times the same power of the public value; both are written over the byte length of the
modulus. Encryption needs a public key and decryption a private one.

## Main Definitions

* `ElGamal.PublicKey.encrypt`, `ElGamal.PrivateKey.decrypt` — the operations on numbers
* `ElGamal.Cipher` — the cipher with its state, as an `AsymmetricCipher`
-/

namespace PublicKeyCrypto.ElGamal

/-- The pair for a number and a random exponent. -/
def PublicKey.encrypt (k : PublicKey) (m exponent : Nat) : Nat × Nat :=
  (powMod k.group.g exponent k.group.p,
   m * powMod k.y exponent k.group.p % k.group.p)

/-- The number of a pair. The power to `p - 1 - x` is the inverse of the power to `x`. -/
def PrivateKey.decrypt (k : PrivateKey) (gamma phi : Nat) : Except Fault Nat := do
  let exponent ← difference (k.group.p - 1) k.x
  return powMod gamma exponent k.group.p * phi % k.group.p

/-- ElGamal encryption in one direction, with the key once it has been set. -/
structure Cipher where
  key : Option Key := none
  direction : Direction := .decrypt
  /-- Length of the modulus, in bits; zero before the first key. -/
  keySize : Nat := 0

namespace Cipher

/-- The greatest length of bytes that are below every modulus of a size. -/
def plainSize (bits : Nat) : Nat := (bits - 1) / 8

/-- The length of a pair of numbers below a modulus of a size. -/
def pairSize (bits : Nat) : Nat := (bits + 7) / 8 * 2

/-- Greatest length of an input block. -/
def inputSize (e : Cipher) : Nat :=
  match e.direction with
  | .encrypt => plainSize e.keySize
  | .decrypt => pairSize e.keySize

/-- Greatest length of an output block. -/
def outputSize (e : Cipher) : Nat :=
  match e.direction with
  | .encrypt => pairSize e.keySize
  | .decrypt => plainSize e.keySize

/-- Sets the direction and the key. A key of the wrong role is refused and changes nothing. -/
def init (e : Cipher) (direction : Direction) (key : Key) :
    Reply Cipher Unit :=
  let accept (p : Nat) : Reply Cipher Unit :=
    (.ok (), { key := some key, direction, keySize := bitLength p })
  match key, direction with
  | .ofPublic k, .encrypt => accept k.group.p
  | .ofPrivate k, .decrypt => accept k.group.p
  | .ofPrivate _, .encrypt => (.error (.invalidArgument .elGamalNeedsPublic), e)
  | .ofPublic _, .decrypt => (.error (.invalidArgument .elGamalNeedsPrivate), e)

/-- The encrypted block. One byte more than the input size is taken, if the value allows. -/
def encryptBlock (e : Cipher) (k : PublicKey) (input : Bytes) : Call Bytes := do
  if input.length > e.inputSize + 1 then throw (.dataLength .elGamalInput)
  let m := input.value
  if k.group.p ≤ m then throw (.dataLength .elGamalInput)
  let exponent ← Draw.positiveBelow (k.group.p - 1)
  let (gamma, phi) := k.encrypt m exponent
  let half := e.outputSize / 2
  return (← Call.ofExcept (fixedBytes gamma half)) ++ (← Call.ofExcept (fixedBytes phi half))

/-- The decrypted block, in the shortest form. -/
def decryptBlock (e : Cipher) (k : PrivateKey) (input : Bytes) : Call Bytes := do
  let half := e.inputSize / 2
  if input.length ≠ 2 * half then throw (.dataLength .elGamalCiphertextLength)
  let gamma := Bytes.value (input.take half)
  let phi := Bytes.value (input.drop half)
  if k.group.p ≤ gamma ∨ k.group.p ≤ phi then
    throw (.dataLength .elGamalCiphertextValue)
  return Bytes.minimal (← Call.checked (k.decrypt gamma phi))

/-- The transformed block. -/
def process (e : Cipher) (input : Bytes) : Call Bytes :=
  match e.key with
  | none => throw (.notInitialised .elGamal)
  | some (.ofPublic k) => e.encryptBlock k input
  | some (.ofPrivate k) => e.decryptBlock k input

instance : AsymmetricCipher Cipher PrivateKey PublicKey where
  name _ := "ElGamal"
  init := init
  inputSize := inputSize
  outputSize := outputSize
  keySize := keySize
  process := process

end Cipher

end PublicKeyCrypto.ElGamal
