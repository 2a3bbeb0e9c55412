import PublicKeyCrypto.Cipher.Basic
import PublicKeyCrypto.Fault
import PublicKeyCrypto.Number.Modular
import PublicKeyCrypto.Random.Sampler
import PublicKeyCrypto.Rsa.Key

/-!
# The RSA permutation

Which operation is done depends on the role of the key alone: a public key raises to the public
exponent, a private key to the private one. The direction only sets the block sizes and the form
of the output: encrypting gives a whole block, decrypting the shortest encoding.

The private operation is blinded by a random factor, and its result is checked with the public
exponent, so that a wrong component of the key never shows in an output.

## Main Definitions

* `Rsa.PrivateKey.crtPower` — the private operation modulo the factors
* `Rsa.PrivateKey.blindedPower` — the private operation, blinded and checked
* `Rsa.Cipher` — the permutation with its state, as an `AsymmetricCipher`
-/

namespace PublicKeyCrypto.Rsa

namespace PrivateKey

/-- `c` to the private exponent, from its powers modulo `p` and `q`. -/
def crtPower (k : PrivateKey) (c : Nat) : Except Fault Nat := do
  let m₁ := powMod c k.dp k.p
  let m₂ := powMod c k.dq k.q
  let gap ← if m₂ % k.p ≤ m₁ then difference m₁ (m₂ % k.p)
    else (· + m₁) <$> difference k.p (m₂ % k.p)
  return m₂ + k.qinv * gap % k.p * k.q

/-- A blinding factor with its inverse modulo `n`. -/
def blinding (n : Nat) : Draw (Nat × Nat) :=
  Draw.firstAccepted (Draw.positiveBelow n) fun r => (invMod r n).map fun inverse => (r, inverse)

/-- The private operation on `c`, blinded, with its result checked. -/
def blindedPower (k : PrivateKey) (c : Nat) : Call Nat := do
  let n := k.modulus
  let (r, inverse) ← (blinding n : Draw _)
  let power ← Call.checked (k.crtPower (c * powMod r k.publicExponent n % n))
  let m := power * inverse % n
  if powMod m k.publicExponent n ≠ c then throw (.invalidState .rsaCheckFailed)
  return m

end PrivateKey

/-- The permutation in one direction, with the key once it has been set. -/
structure Cipher where
  key : Option Key := none
  direction : Direction := .decrypt

namespace Cipher

/-- Length of the modulus, in bits; zero before the first key. -/
def keySize (e : Cipher) : Nat :=
  match e.key with
  | none => 0
  | some k => bitLength (Key.modulus k)

/-- The greatest length of bytes that are below every modulus of a size. -/
def shortSize (bits : Nat) : Nat := (bits - 1) / 8

/-- The length of bytes that hold every number below a modulus of a size. -/
def fullSize (bits : Nat) : Nat := (bits + 7) / 8

/-- Greatest length of an input block. -/
def inputSize (e : Cipher) : Nat :=
  match e.direction with
  | .encrypt => shortSize e.keySize
  | .decrypt => fullSize e.keySize

/-- Greatest length of an output block. -/
def outputSize (e : Cipher) : Nat :=
  match e.direction with
  | .encrypt => fullSize e.keySize
  | .decrypt => shortSize e.keySize

/-- Sets the direction and the key; every key goes with every direction. -/
def init (_ : Cipher) (direction : Direction) (key : Key) : Reply Cipher Unit :=
  (.ok (), { key := some key, direction })

/-- The input as a number below the modulus. In the encrypting direction one byte more than
the input size is taken, if the value allows. -/
def readInput (e : Cipher) (modulus : Nat) (input : Bytes) : Except Error Nat :=
  let size := e.inputSize
  if input.length > size + 1 ∨ (input.length = size + 1 ∧ e.direction = .decrypt) then
    .error (.dataLength .rsaInput)
  else if modulus ≤ input.value then .error (.dataLength .rsaInput)
  else .ok input.value

/-- The result as bytes: a whole block when encrypting, the shortest form when decrypting. -/
def writeOutput (e : Cipher) (m : Nat) : Except Error Bytes :=
  match e.direction with
  | .encrypt => fixedBytes m e.outputSize
  | .decrypt => .ok (Bytes.minimal m)

/-- The transformed block. -/
def process (e : Cipher) (input : Bytes) : Call Bytes :=
  match e.key with
  | none => throw (.notInitialised .rsa)
  | some k => do
    let m ← Call.ofExcept (e.readInput (Key.modulus k) input)
    let power ← match k with
      | .ofPublic k => pure (powMod m k.exponent k.modulus)
      | .ofPrivate k => k.blindedPower m
    Call.ofExcept (e.writeOutput power)

instance : AsymmetricCipher Cipher PrivateKey PublicKey where
  name _ := "RSA"
  init := init
  inputSize := inputSize
  outputSize := outputSize
  keySize := keySize
  process := process

end Cipher

end PublicKeyCrypto.Rsa
