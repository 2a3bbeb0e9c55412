import PublicKeyCrypto.Cipher.Block
import PublicKeyCrypto.Cipher.View
import PublicKeyCrypto.Derivation.Mgf1

/-!
# OAEP

A message is encoded together with the digest of a label (RFC 8017, section 7.1). The data block
is the label digest, zeros, a byte 1, and the message; it is masked with a random seed, and the
seed is masked with the masked data block. The zero byte before the seed is left to the cipher,
whose input blocks are one byte shorter than its modulus.

All rules of a block are checked without branches and combined into one mask; only the mask
decides, and there is one error for all of them.

## Main Definitions

* `Oaep` — the state of the encoding
* `Oaep.pad`, `Oaep.unpad` — the block of a message, and the message of a block
* `Oaep.encode`, `Oaep.decode` — its operations over a cipher
-/

namespace PublicKeyCrypto

/-- The encoding, with the direction that it was last told of. -/
structure Oaep where
  /-- The hash function of the label. -/
  content : Hash
  /-- The hash function of the masks. -/
  maskHash : Hash
  label : Bytes := []
  direction : Direction := .decrypt

namespace Oaep

/-- Number of bytes around a message: seed, label digest, and a byte 1. -/
def overhead (l : Oaep) : Nat := 2 * l.content.size + 1

/-- Greatest length of an input block over a cipher of the given one. -/
def inputSize (l : Oaep) (below : Nat) : Nat :=
  match l.direction with
  | .encrypt => below - l.overhead
  | .decrypt => below

/-- Greatest length of an output block over a cipher of the given one. -/
def outputSize (l : Oaep) (below : Nat) : Nat :=
  match l.direction with
  | .encrypt => below
  | .decrypt => below - l.overhead

/-- The digest of the label. -/
def labelDigest (l : Oaep) : Bytes := l.content.digest l.label

/-- A block of `len` bytes with room for a seed, and the data block of a message after it. -/
def frame (l : Oaep) (len : Nat) (message : Bytes) : Except Fault Bytes := do
  let block ← (Bytes.zeros len).write (← difference len message.length) message
  let block ← block.write (← difference len (message.length + 1)) [0x01]
  block.write l.content.size l.labelDigest

/-- The frame with a seed, both masked. -/
def maskFrame (l : Oaep) (frame seed : Bytes) : Bytes :=
  let data := l.maskHash.mask seed (frame.drop l.content.size)
  l.maskHash.mask data seed ++ data

/-- The message encoded and transformed. -/
def encode (l : Oaep) (below : CipherView) (message : Bytes) : Call Bytes := do
  if message.length > l.inputSize below.inputSize then throw (.dataLength .oaepInput)
  let frame ← Call.checked (l.frame (below.blockSize l.direction) message)
  let seed ← (Draw.bytes l.content.size : Draw _)
  below.process (l.maskFrame frame seed)

/-- What a scan over the bytes after the label digest has found, with positions as words of `w`
bits. -/
structure Scan (w : Nat) where
  /-- Whether a nonzero byte has been seen. -/
  found : Mask
  /-- Position of the first nonzero byte. -/
  start : BitVec w
  /-- Whether all rules have been kept so far. -/
  good : Mask

/-- The scan after one more byte. The first nonzero byte must be 1. -/
def Scan.step {w : Nat} (s : Scan w) (b : UInt8) (position : Nat) : Scan w :=
  let nonzero := ~~~Mask.equalByte b 0x00
  let first := nonzero &&& ~~~s.found
  { found := s.found ||| nonzero
    start := Mask.select first (BitVec.ofNat w position) s.start
    good := s.good &&& (~~~first ||| Mask.equalByte b 0x01) }

/-- The scan over bytes, the first of which has the given position. -/
def Scan.steps {w : Nat} (s : Scan w) : (position : Nat) → Bytes → Scan w
  | _, [] => s
  | position, b :: rest => Scan.steps (s.step b position) (position + 1) rest

/-- The message of a data block, if `good` holds and the data block keeps all rules. -/
def readData (l : Oaep) (good : Mask) (data : Bytes) : Except Fault (Except Error Bytes) := do
  let digest ← data.slice 0 l.content.size
  let rest ← data.slice l.content.size data.length
  let scan : Scan (bitLength data.length) := Scan.steps
    { found := Mask.no
      start := 0
      good := good &&& Mask.sameBytes digest l.labelDigest } l.content.size rest
  if scan.good &&& scan.found = Mask.no then return .error .invalidCipherText
  else return .ok (← data.slice (scan.start.toNat + 1) data.length)

/-- The message of a decrypted block. The cipher drops leading zeros, so that the block is first
brought to its full length; a longer one is cut and refused. -/
def unpad (l : Oaep) (len : Nat) (decrypted : Bytes) : Except Fault (Except Error Bytes) :=
  if len < l.overhead then .ok (.error .invalidCipherText)
  else do
    let fits := decrypted.length ≤ len
    let block ← if fits then
        (Bytes.zeros len).write (← difference len decrypted.length) decrypted
      else decrypted.slice 0 len
    let seed ← block.slice 0 l.content.size
    let masked ← block.slice l.content.size len
    let data := l.maskHash.mask (l.maskHash.mask masked seed) masked
    l.readData (Mask.ofBool fits) data

/-- The message of a transformed block. -/
def decode (l : Oaep) (below : CipherView) (input : Bytes) : Call Bytes := do
  let decrypted ← below.process input
  Call.ofExcept (← Call.checked (l.unpad (below.blockSize l.direction) decrypted))

/-- The transformed block. -/
def process (l : Oaep) (below : CipherView) (input : Bytes) : Call Bytes :=
  match l.direction with
  | .encrypt => l.encode below input
  | .decrypt => l.decode below input

end Oaep

end PublicKeyCrypto
