import PublicKeyCrypto.Mask
import PublicKeyCrypto.Symmetric.Basic

/-!
# Key wrap

The wrapping of keys of RFC 3394. An eight-byte register passes six times over the eight-byte
blocks of the key. In each step the register and the block are encrypted together; the step
number, which counts from one over all passes, goes into the register. Unwrapping undoes the
steps in reverse order, and then the register must hold the initial value again.

## Main Definitions

* `KeyWrap.wrapPass`, `KeyWrap.unwrapPass` — one pass in either direction
* `KeyWrap` — the wrapping with its state, with `init`, `wrap` and `unwrap`
-/

namespace PublicKeyCrypto

/-- Key wrap over a block cipher. -/
structure KeyWrap (C : Type) where
  cipher : C
  /-- The initial value. -/
  iv : Bytes := List.replicate 8 0xA6
  /-- Wrapping is the encrypting direction. -/
  direction : Direction := .encrypt
  initialised : Bool := false

namespace KeyWrap

variable {C : Type} [BlockCipher C]

/-- The default initial value. -/
def defaultIv : Bytes := List.replicate 8 0xA6

/-- One wrapping step: the register and the block encrypted, with the step number in the
register. -/
def wrapStep (c : C) (number : Nat) (register block : Bytes) : Except Error (Bytes × Bytes) := do
  let out ← BlockCipher.process c (register ++ block)
  return (Bytes.xorOver (out.take 8) (Bytes.ofWord64 number.toUInt64), out.drop 8)

/-- The inverse of a wrapping step. -/
def unwrapStep (c : C) (number : Nat) (register block : Bytes) : Except Error (Bytes × Bytes) := do
  let numbered := Bytes.xorOver register (Bytes.ofWord64 number.toUInt64)
  let out ← BlockCipher.process c (numbered ++ block)
  return (out.take 8, out.drop 8)

/-- One pass over the blocks, first block first; `number` is the number of the first step. -/
def wrapPass (c : C) (number : Nat) (register : Bytes) :
    List Bytes → Except Error (Bytes × List Bytes)
  | [] => .ok (register, [])
  | block :: rest => do
    let (register', block') ← wrapStep c number register block
    let (register'', rest') ← wrapPass c (number + 1) register' rest
    return (register'', block' :: rest')

/-- The inverse of a pass, last block first. -/
def unwrapPass (c : C) (number : Nat) (register : Bytes) :
    List Bytes → Except Error (Bytes × List Bytes)
  | [] => .ok (register, [])
  | block :: rest => do
    let (register', rest') ← unwrapPass c (number + 1) register rest
    let (register'', block') ← unwrapStep c number register' block
    return (register'', block' :: rest')

/-- `passes` passes; `number` is the number of the first step. -/
def wrapPasses (c : C) : (passes number : Nat) → Bytes → List Bytes →
    Except Error (Bytes × List Bytes)
  | 0, _, register, blocks => .ok (register, blocks)
  | passes + 1, number, register, blocks => do
    let (register', blocks') ← wrapPass c number register blocks
    wrapPasses c passes (number + blocks.length) register' blocks'

/-- The inverse of `passes` passes. -/
def unwrapPasses (c : C) : (passes number : Nat) → Bytes → List Bytes →
    Except Error (Bytes × List Bytes)
  | 0, _, register, blocks => .ok (register, blocks)
  | passes + 1, number, register, blocks => do
    let (register', blocks') ← unwrapPasses c passes (number + blocks.length) register blocks
    unwrapPass c number register' blocks'

/-- Sets the direction, the key and the initial value, which has eight bytes. The initial value
is taken over before the cipher sees the key. -/
def init (w : KeyWrap C) (direction : Direction) (key : Bytes) (iv : Option Bytes) :
    Reply (KeyWrap C) Unit :=
  if BlockCipher.blockSize C ≠ 16 then (.error (.invalidArgument .wrapBlockSize), w)
  else
    let iv' := iv.getD defaultIv
    if iv'.length ≠ 8 then (.error (.invalidArgument .wrapIvLength), w)
    else
      match BlockCipher.init w.cipher direction key with
      | (.error e, cipher) => (.error e, { w with cipher, iv := iv' })
      | (.ok (), cipher) => (.ok (), { cipher, iv := iv', direction, initialised := true })

/-- The wrapped key: the register, then the blocks. -/
def wrap (w : KeyWrap C) (input : Bytes) : Except Error Bytes :=
  if !w.initialised || w.direction = .decrypt then .error (.invalidState .notWrapping)
  else if input.length < 16 then .error (.dataLength .wrapTooShort)
  else if input.length % 8 ≠ 0 then .error (.dataLength .wrapNotWhole)
  else do
    let (register, blocks) ← wrapPasses w.cipher 6 1 w.iv (chunks 8 input)
    return register ++ blocks.flatten

/-- The unwrapped key; a register other than the initial value at the end is refused. -/
def unwrap (w : KeyWrap C) (input : Bytes) : Except Error Bytes :=
  if !w.initialised || w.direction = .encrypt then .error (.invalidState .notUnwrapping)
  else if input.length < 24 || input.length % 8 ≠ 0 then .error .invalidCipherText
  else do
    let (register, blocks) ← unwrapPasses w.cipher 6 1 (input.take 8) (chunks 8 (input.drop 8))
    if Mask.sameBytes register w.iv = Mask.no then .error .invalidCipherText
    else return blocks.flatten

/-- Name of the underlying cipher. -/
def name (_ : KeyWrap C) : String := BlockCipher.name C

end KeyWrap

end PublicKeyCrypto
