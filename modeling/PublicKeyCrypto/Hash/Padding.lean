import PublicKeyCrypto.Bytes

/-!
# Message blocks

The message of an iterated hash function is closed by a single one bit, zeros, and its length in
bits, so that it fills whole blocks.

## Main Definitions

* `Hash.closedBlocks` — the blocks of a closed message
* `Hash.words32`, `Hash.words64` — a block as big-endian words
-/

namespace PublicKeyCrypto.Hash

/-- The blocks of `blockSize` bytes of the message, closed by its length in bits over `lengthSize`
bytes. -/
def closedBlocks (blockSize lengthSize : Nat) (message : Bytes) : List Bytes :=
  let used := (message.length + 1 + lengthSize) % blockSize
  let gap := (blockSize - used) % blockSize
  chunks blockSize
    (message ++ 0x80 :: Bytes.zeros gap ++ Bytes.wide lengthSize (8 * message.length))

/-- The big-endian 32-bit words of a block; a last incomplete word is dropped. -/
def words32 : Bytes → List UInt32
  | a :: b :: c :: d :: rest =>
    ((a.toUInt32 <<< 24) ||| (b.toUInt32 <<< 16) ||| (c.toUInt32 <<< 8) ||| d.toUInt32)
      :: words32 rest
  | _ => []

/-- Pairs of 32-bit words as 64-bit words, the upper half first. -/
def joinWords : List UInt32 → List UInt64
  | hi :: lo :: rest => ((hi.toUInt64 <<< 32) ||| lo.toUInt64) :: joinWords rest
  | _ => []

/-- The big-endian 64-bit words of a block. -/
def words64 (block : Bytes) : List UInt64 := joinWords (words32 block)

end PublicKeyCrypto.Hash
