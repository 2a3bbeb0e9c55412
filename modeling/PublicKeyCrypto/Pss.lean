import PublicKeyCrypto.Cipher.Basic
import PublicKeyCrypto.Cipher.Block
import PublicKeyCrypto.Derivation.Mgf1
import PublicKeyCrypto.Random.Sampler

/-!
# PSS signatures

The digest of a message is hashed again together with a random salt; the encoded message holds
this second digest, and the salt masked with it (RFC 8017, sections 8.1 and 9.1). The top bits of
the encoded message are cleared, so that it is one bit shorter than the modulus. The message may
be given in pieces. An invalid signature is not an error.

The length of the salt is chosen freely, so that it is a word of the machine here, and so is the sum
that a key is compared with. Nothing guards that sum against wrapping around, nor the verifier
against a key that was taken because it did.

## Main Definitions

* `Pss.leastBits` — the size that a key is compared with
* `Pss.encode`, `Pss.isConsistent` — the encoded message, and its check
* `Pss` — the signer and verifier, with `init`, `update`, `sign` and `verify`
-/

namespace PublicKeyCrypto

/-- A signer and verifier over a cipher. -/
structure Pss (E : Type) where
  cipher : E
  /-- The hash function of the message. -/
  content : Hash
  /-- The hash function of the masks. -/
  maskHash : Hash
  /-- Length of the salt, in bytes. -/
  saltLength : BitVec 64
  /-- The last byte of the encoded message. -/
  trailer : UInt8 := 0xBC
  /-- The message so far. -/
  message : Bytes := []
  /-- Length of the encoded message, in bits. -/
  emBits : Nat := 0
  initialised : Bool := false

namespace Pss

variable {E S P : Type}

/-- How many bits an encoded message has to have for the digest and the salt, as a word. -/
def leastBits (s : Pss E) : BitVec 64 := 8 * s.content.size + 8 * s.saltLength + 9

/-- Length of the encoded message, in bytes. -/
def emLength (s : Pss E) : Nat := (s.emBits + 7) / 8

/-- The digest that binds a message digest and a salt together. -/
def saltedDigest (s : Pss E) (messageDigest salt : Bytes) : Bytes :=
  s.content.digest (Bytes.zeros 8 ++ messageDigest ++ salt)

/-- The mask of the bits of the first byte that belong to the encoded message. -/
def topMask (s : Pss E) : Except Fault UInt8 := do
  let surplus ← difference (8 * s.emLength) s.emBits
  if surplus < 8 then return 0xFF >>> surplus.toUInt8 else .error .shiftTooFar

/-- The string with its first byte reduced to the given bits. -/
def maskFirst (bits : UInt8) : Bytes → Except Fault Bytes
  | [] => .error .outOfBounds
  | first :: rest => .ok ((first &&& bits) :: rest)

/-- The encoded message for a message digest and a salt. -/
def encode (s : Pss E) (messageDigest salt : Bytes) : Except Fault Bytes := do
  let digest := s.saltedDigest messageDigest salt
  let dataLength ← difference s.emLength (s.content.size + 1)
  let zeros ← difference dataLength (salt.length + 1)
  let masked := s.maskHash.mask digest (Bytes.zeros zeros ++ 0x01 :: salt)
  return (← maskFirst (← s.topMask) masked) ++ digest ++ [s.trailer]

/-- Whether an encoded message belongs to a message digest. -/
def isConsistent (s : Pss E) (messageDigest encoded : Bytes) : Except Fault Bool := do
  let len := s.emLength
  if encoded.length > len then return false
  let block := Bytes.zeros (len - encoded.length) ++ encoded
  let bits ← s.topMask
  if (← block.byteAt 0) &&& ~~~bits ≠ 0 then return false
  if (← block.byteAt (← difference len 1)) ≠ s.trailer then return false
  let dataLength ← difference len (s.content.size + 1)
  let masked ← block.slice 0 dataLength
  let digest ← block.slice dataLength (dataLength + s.content.size)
  let data ← maskFirst bits (s.maskHash.mask digest masked)
  -- The key was tested with words only, so that the salt may be longer than the data here.
  let zeros := wrappedDifference dataLength (s.saltLength.toNat + 1)
  if (← data.slice 0 zeros).any (· ≠ 0) then return false
  if (← data.byteAt zeros) ≠ 0x01 then return false
  let salt ← data.slice (zeros + 1) data.length
  return s.saltedDigest messageDigest salt = digest

/-- More message data. -/
def update (s : Pss E) (data : Bytes) : Pss E := { s with message := s.message ++ data }

variable [AsymmetricCipher E S P]

/-- Sets the task and the key, and drops the message so far. A key that is too small for the
digest and the salt is refused. -/
def init (s : Pss E) (task : Task) (key : KeyHalf S P) : Reply (Pss E) Unit :=
  match AsymmetricCipher.init s.cipher task.direction key with
  | (.error e, cipher) => (.error e, { s with cipher })
  | (.ok (), cipher) =>
    let emBits := AsymmetricCipher.keySize cipher - 1
    if emBits < s.leastBits.toNat then
      (.error .keyTooSmall, { s with cipher, message := [], initialised := false })
    else (.ok (), { s with cipher, message := [], emBits, initialised := true })

/-- The signature of the message so far, which is then dropped. -/
def sign (s : Pss E) : Draw (Reply (Pss E) Bytes) :=
  if !s.initialised then return (.error (.notInitialised .pss), s)
  else do
    let salt ← Draw.bytes s.saltLength.toNat
    let encoded ← Draw.checked (s.encode (s.content.digest s.message) salt)
    let answer ← (AsymmetricCipher.process s.cipher encoded).run
    return (answer, { s with message := [] })

/-- Whether a signature belongs to the message so far, which is then dropped. A signature of an
impossible length or value is invalid; any other refusal of the cipher is an error. -/
def verify (s : Pss E) (signature : Bytes) : Draw (Reply (Pss E) Bool) :=
  if !s.initialised then return (.error (.notInitialised .pss), s)
  else do
    let dropped := { s with message := [] }
    match ← (AsymmetricCipher.process s.cipher signature).run with
    | .error (.dataLength _) => return (.ok false, dropped)
    | .error e => return (.error e, dropped)
    | .ok encoded =>
      let valid ← Draw.checked (s.isConsistent (s.content.digest s.message) encoded)
      return (.ok valid, dropped)

end Pss

end PublicKeyCrypto
