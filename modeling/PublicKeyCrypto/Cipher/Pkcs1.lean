import PublicKeyCrypto.Cipher.Block
import PublicKeyCrypto.Cipher.View
import PublicKeyCrypto.Random.Sampler
import PublicKeyCrypto.Text.Blank

/-!
# PKCS #1 v1.5 padding

A block is a type byte, padding of at least eight bytes, a zero byte, and the payload (RFC 8017,
sections 7.2 and 9.2). With a private key the type is 1 and the padding is all ones; with a public
key the type is 2 and the padding is random without zeros. The zero byte before the type is left
to the cipher, whose input blocks are one byte shorter than its modulus.

All rules of a block are checked without branches and combined into one mask; only the mask
decides, and there is one error for all of them. A decoder for payloads of a known length never
refuses a block: where the padding is wrong it gives random bytes that were drawn before the block
was seen.

## Main Definitions

* `Pkcs1` — the state of the encoding
* `Pkcs1.encode`, `Pkcs1.decode`, `Pkcs1.decodeOrRandom` — its operations over a cipher
* `Pkcs1.strictFor` — whether the environment asks for blocks of full length
-/

namespace PublicKeyCrypto

/-- The encoding, with the direction and the role of the key that it was last told of. -/
structure Pkcs1 where
  /-- Whether decoded blocks must have the full output size of the cipher. -/
  strictLength : Bool := true
  /-- Length of the payload, for a decoder that never refuses a block. -/
  expectedLength : Option Nat := none
  direction : Direction := .decrypt
  withPrivateKey : Bool := false

namespace Pkcs1

/-- Name of the environment variable that controls whether lengths are strict. -/
def strictVariable : String := "PKCORE_PKCS1_STRICT"

/-- Whether a text switches strictness off: `0`, or `false` or `no` in any case, between blanks. -/
def isDisabling (text : String) : Bool :=
  let word := Text.trimBlank text.toList
  word = ['0'] || Text.equalsIgnoringAsciiCase word "false".toList ||
    Text.equalsIgnoringAsciiCase word "no".toList

/-- Whether lengths are strict for a value of the environment variable, if it is set. -/
def strictFor : (value : Option String) → Bool
  | none => true
  | some text => !isDisabling text

/-- Least number of bytes around a payload: type, eight bytes of padding, and zero byte. -/
def headerLength : Nat := 10

/-- Greatest length of an input block over a cipher of the given one. -/
def inputSize (l : Pkcs1) (below : Nat) : Nat :=
  match l.direction with
  | .encrypt => below - headerLength
  | .decrypt => below

/-- Greatest length of an output block over a cipher of the given one. -/
def outputSize (l : Pkcs1) (below : Nat) : Nat :=
  match l.direction with
  | .encrypt => below
  | .decrypt => below - headerLength

/-- The bytes with every zero drawn again, until it is no longer zero. -/
def withoutZeros : Bytes → Draw Bytes
  | [] => pure []
  | b :: rest => do
    let b' ← if b ≠ 0 then pure b
      else Draw.untilDone (fun _ => do
        let drawn ← Draw.bytes 1
        return match drawn with
          | [c] => if c ≠ 0 then .done c else .again ()
          | _ => .again ()) ()
    return b' :: (← withoutZeros rest)

/-- `count` bytes of padding. -/
def padding (l : Pkcs1) (count : Nat) : Draw Bytes :=
  if l.withPrivateKey then pure (List.replicate count 0xFF)
  else do withoutZeros (← Draw.bytes count)

/-- The type of the blocks that are written. -/
def writtenType (l : Pkcs1) : UInt8 := if l.withPrivateKey then 0x01 else 0x02

/-- The type of the blocks that are read: those written with the other half of the key pair. -/
def readType (l : Pkcs1) : UInt8 := if l.withPrivateKey then 0x02 else 0x01

/-- The payload padded and transformed. -/
def encode (l : Pkcs1) (below : CipherView) (payload : Bytes) : Call Bytes := do
  let len := below.inputSize
  if payload.length + headerLength > len then throw (.invalidArgument .paddedInputTooLarge)
  let separator ← Call.checked (difference len (payload.length + 1))
  let count ← Call.checked (difference separator 1)
  let filler ← (l.padding count : Draw _)
  below.process (l.writtenType :: filler ++ 0x00 :: payload)

/-- What a scan over the bytes after the type has found, with positions as words of `w` bits. -/
structure Scan (w : Nat) where
  /-- Whether a zero byte has been seen. -/
  found : Mask
  /-- Position of the first zero byte. -/
  separator : BitVec w
  /-- Whether all rules have been kept so far. -/
  good : Mask

/-- The scan after one more byte. Before a zero byte, blocks of type 1 have only ones. -/
def Scan.step {w : Nat} (type : UInt8) (s : Scan w) (b : UInt8) (position : Nat) : Scan w :=
  let zero := Mask.equalByte b 0x00
  { found := s.found ||| zero
    separator := Mask.select (zero &&& ~~~s.found) (BitVec.ofNat w position) s.separator
    good :=
      if type = 0x01 then s.good &&& (s.found ||| zero ||| Mask.equalByte b 0xFF) else s.good }

/-- The scan over bytes, the first of which has the given position. -/
def Scan.steps {w : Nat} (type : UInt8) (s : Scan w) : (position : Nat) → Bytes → Scan w
  | _, [] => s
  | position, b :: rest => Scan.steps type (s.step type b position) (position + 1) rest

/-- The position of the zero byte of a block, and whether the block keeps all rules, for a cipher
with the given output size. The words are wide enough for every position and for the header. -/
def inspect (l : Pkcs1) (outputSize : Nat) (type : UInt8) (rest : Bytes) : Mask × Nat :=
  let len := rest.length + 1
  let w := bitLength (len + headerLength)
  let lengthGood :=
    if l.strictLength then Mask.equalSizes len outputSize else Mask.yes
  let scan : Scan w := Scan.steps l.readType
    { found := Mask.no
      separator := 0
      good := lengthGood &&& Mask.equalByte type l.readType } 1 rest
  let early := Mask.less scan.separator (BitVec.ofNat w (headerLength - 1))
  (scan.good &&& (scan.found &&& ~~~early), scan.separator.toNat)

/-- The payload of a decrypted block. -/
def unpad (l : Pkcs1) (outputSize : Nat) (block : Bytes) : Except Fault (Except Error Bytes) :=
  match block with
  | [] => .ok (.error .invalidCipherText)
  | type :: rest =>
    let (good, separator) := l.inspect outputSize type rest
    if good = Mask.no then .ok (.error .invalidCipherText)
    else do return .ok (← Bytes.slice block (separator + 1) block.length)

/-- The payload of a transformed block. -/
def decode (l : Pkcs1) (below : CipherView) (input : Bytes) : Call Bytes := do
  let block ← below.process input
  Call.ofExcept (← Call.checked (l.unpad below.outputSize block))

/-- Whether none of the bytes is zero. -/
def noneZero : Bytes → Mask
  | [] => Mask.yes
  | b :: rest => ~~~Mask.equalByte b 0x00 &&& noneZero rest

/-- The payload of a decrypted block if the block keeps all rules for a payload of the length of
the random bytes, and the random bytes otherwise. -/
def unpadOr (l : Pkcs1) (outputSize : Nat) (random block : Bytes) : Except Fault Bytes :=
  if block.length < random.length + headerLength then .ok random
  else do
    let separator ← difference block.length (random.length + 1)
    let typeGood := Mask.equalByte (← block.byteAt 0) 0x02
    let lengthGood :=
      if l.strictLength then Mask.equalSizes block.length outputSize else Mask.yes
    let fillerGood := noneZero (← block.slice 1 separator)
    let separatorGood := Mask.equalByte (← block.byteAt separator) 0x00
    let good := typeGood &&& lengthGood &&& fillerGood &&& separatorGood
    let payload ← block.slice (separator + 1) block.length
    return List.zipWith (Mask.selectByte good) payload random

/-- A payload of a known length, or random bytes of that length. -/
def decodeOrRandom (l : Pkcs1) (below : CipherView) (length : Nat) (input : Bytes) :
    Call Bytes := do
  if !l.withPrivateKey then throw (.invalidArgument .randomPayloadNeedsPrivate)
  let random ← (Draw.bytes length : Draw _)
  let block ← below.process input
  Call.checked (l.unpadOr below.outputSize random block)

/-- The transformed block. -/
def process (l : Pkcs1) (below : CipherView) (input : Bytes) : Call Bytes :=
  match l.direction with
  | .encrypt => l.encode below input
  | .decrypt =>
    match l.expectedLength with
    | none => l.decode below input
    | some length => l.decodeOrRandom below length input

end Pkcs1

end PublicKeyCrypto
