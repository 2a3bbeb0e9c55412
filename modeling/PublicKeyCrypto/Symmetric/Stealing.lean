import PublicKeyCrypto.Symmetric.Basic

/-!
# Ciphertext stealing

Messages of at least one block are encrypted by block chaining without growing. All blocks before
the last two are chained as usual. The last full block gives a ciphertext block `e`; the rest of
the message is laid over the beginning of `e`, and the result is encrypted again and written
first; then follows as much of `e` as the rest is long (RFC 2040, RFC 3962). A message of one
block is chained as usual.

## Main Definitions

* `Stealing.encryptChain`, `Stealing.decryptChain` — block chaining
* `Stealing` — the mode, with `init` and `process`
-/

namespace PublicKeyCrypto

/-- The mode over a block cipher. -/
structure Stealing (C : Type) where
  cipher : C
  /-- The initial value of the chain. -/
  iv : Bytes := []
  direction : Direction := .encrypt
  initialised : Bool := false

namespace Stealing

variable {C : Type} [BlockCipher C]

/-- The chained encryption of blocks, with the value that the chain reaches. -/
def encryptChain (c : C) (chain : Bytes) : List Bytes → Except Error (Bytes × Bytes)
  | [] => .ok ([], chain)
  | block :: rest => do
    let e ← BlockCipher.process c (Bytes.xorOver block chain)
    let (out, chain') ← encryptChain c e rest
    return (e ++ out, chain')

/-- The chained decryption of blocks, with the value that the chain reaches. -/
def decryptChain (c : C) (chain : Bytes) : List Bytes → Except Error (Bytes × Bytes)
  | [] => .ok ([], chain)
  | block :: rest => do
    let d ← BlockCipher.process c block
    let (out, chain') ← decryptChain c block rest
    return (Bytes.xorOver d chain ++ out, chain')

/-- How much of a message of `len` bytes is left for the last step: one block if there is only
one, otherwise one block and the rest, which is not empty. -/
def tailLength (size len : Nat) : Nat :=
  if len = size then size else size + (len - 1) % size + 1

/-- The encryption of the last block and the rest. -/
def encryptTail (c : C) (chain block rest : Bytes) : Except Error Bytes := do
  let e ← BlockCipher.process c (Bytes.xorOver block chain)
  if rest = [] then return e
  else
    let last ← BlockCipher.process c (Bytes.xorOver e rest)
    return last ++ e.take rest.length

/-- The decryption of the last block and the rest. -/
def decryptTail (c : C) (chain block rest : Bytes) : Except Error Bytes := do
  let d ← BlockCipher.process c block
  if rest = [] then return Bytes.xorOver d chain
  else
    let e ← BlockCipher.process c (rest ++ d.drop rest.length)
    return Bytes.xorOver e chain ++ Bytes.xorOver (d.take rest.length) rest

/-- Sets the direction, the key and the initial value, which has the length of a block and is zero
if absent. The initial value is taken over before the cipher sees the key. -/
def init (s : Stealing C) (direction : Direction) (key : Bytes) (iv : Option Bytes) :
    Reply (Stealing C) Unit :=
  let iv' := iv.getD (Bytes.zeros (BlockCipher.blockSize C))
  if iv'.length ≠ BlockCipher.blockSize C then (.error (.invalidArgument .stealingIvLength), s)
  else
    match BlockCipher.init s.cipher direction key with
    | (.error e, cipher) => (.error e, { s with cipher, iv := iv' })
    | (.ok (), cipher) => (.ok (), { cipher, iv := iv', direction, initialised := true })

/-- The encrypted or decrypted message. -/
def process (s : Stealing C) (input : Bytes) : Except Error Bytes :=
  let size := BlockCipher.blockSize C
  if !s.initialised then .error (.notInitialised .stealing)
  else if input.length < size then .error (.dataLength .stealingTooShort)
  else do
    let split := input.length - tailLength size input.length
    let head := chunks size (input.take split)
    let tail := input.drop split
    match s.direction with
    | .encrypt => do
      let (out, chain) ← encryptChain s.cipher s.iv head
      return out ++ (← encryptTail s.cipher chain (tail.take size) (tail.drop size))
    | .decrypt => do
      let (out, chain) ← decryptChain s.cipher s.iv head
      return out ++ (← decryptTail s.cipher chain (tail.take size) (tail.drop size))

end Stealing

end PublicKeyCrypto
