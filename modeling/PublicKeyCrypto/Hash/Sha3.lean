import PublicKeyCrypto.Hash.Basic

/-!
# SHA3-256

The digest of 32 bytes over blocks of 136 bytes. The state is a table of 25 lanes; the
lane in column `x` and row `y` has index `x + 5 * y`.

## Main Definitions

* `Sha3.permute` — the permutation of the state
* `Hash.sha3_256` — the hash function
-/

namespace PublicKeyCrypto

namespace Sha3

/-- Length of a digest, in bytes. -/
def size : Nat := 32

/-- The constants that tell the 24 rounds apart. -/
def roundConstants : List UInt64 :=
  [0x0000000000000001, 0x0000000000008082, 0x800000000000808a, 0x8000000080008000,
   0x000000000000808b, 0x0000000080000001, 0x8000000080008081, 0x8000000000008009,
   0x000000000000008a, 0x0000000000000088, 0x0000000080008009, 0x000000008000000a,
   0x000000008000808b, 0x800000000000008b, 0x8000000000008089, 0x8000000000008003,
   0x8000000000008002, 0x8000000000000080, 0x000000000000800a, 0x800000008000000a,
   0x8000000080008081, 0x8000000000008080, 0x0000000080000001, 0x8000000080008008]

/-- By how much each lane is rotated. -/
def rotations : Array UInt64 :=
  #[0, 1, 62, 28, 27, 36, 44, 6, 55, 20, 3, 10, 43, 25, 39, 41, 45, 15, 21, 8, 18, 2, 61, 56, 14]

/-- The lane rotated to the left. -/
def rotl (x n : UInt64) : UInt64 := if n = 0 then x else (x <<< n) ||| (x >>> (64 - n))

/-- The lane at an index. -/
def lane (s : Array UInt64) (i : Nat) : UInt64 := s.getD i 0

/-- One round: every column takes in the parities of two others, the lanes are rotated and moved,
each row is mixed, and the round constant goes into the first lane. -/
def round (s : Array UInt64) (constant : UInt64) : Array UInt64 :=
  let parity := (Array.range 5).map fun x =>
    lane s x ^^^ lane s (x + 5) ^^^ lane s (x + 10) ^^^ lane s (x + 15) ^^^ lane s (x + 20)
  let shift := (Array.range 5).map fun x =>
    lane parity ((x + 4) % 5) ^^^ rotl (lane parity ((x + 1) % 5)) 1
  let moved := (Array.range 25).map fun j =>
    let y := j % 5
    let i := (y + 3 * (j / 5)) % 5 + 5 * y
    rotl (lane s i ^^^ lane shift (i % 5)) (lane rotations i)
  (Array.range 25).map fun i =>
    let row := 5 * (i / 5)
    let mixed := lane moved i ^^^
      (~~~lane moved (row + (i + 1) % 5) &&& lane moved (row + (i + 2) % 5))
    if i = 0 then mixed ^^^ constant else mixed

/-- The permutation of the state: 24 rounds. -/
def permute (s : Array UInt64) : Array UInt64 := roundConstants.foldl round s

/-- The little-endian lanes of a block; a last incomplete lane is dropped. -/
def lanes (block : Bytes) : Array UInt64 :=
  ((chunks 8 block).map fun piece =>
    piece.foldr (fun b acc => (acc <<< 8) ||| b.toUInt64) (0 : UInt64)).toArray

/-- The state after a block of 136 bytes. -/
def absorb (s : Array UInt64) (block : Bytes) : Array UInt64 :=
  let input := lanes block
  permute ((Array.range 25).map fun i => lane s i ^^^ lane input i)

/-- The message, closed by the bits that mark the function, zeros, and a last one bit. -/
def closed (message : Bytes) : Bytes :=
  let gap := 135 - message.length % 136
  if gap = 0 then message ++ [0x86]
  else message ++ 0x06 :: Bytes.zeros (gap - 1) ++ [0x80]

/-- Eight bytes of a lane, least significant first. -/
def ofLane (x : UInt64) : Bytes := (Bytes.ofWord64 x).reverse

/-- The digest of a message. -/
def digest (message : Bytes) : Bytes :=
  let s := (chunks 136 (closed message)).foldl absorb (Array.replicate 25 0)
  [lane s 0, lane s 1, lane s 2, lane s 3].flatMap ofLane

theorem length_digest (message : Bytes) : (digest message).length = size := by
  simp [digest, ofLane, size]

end Sha3

/-- SHA3-256. -/
def Hash.sha3_256 : Hash where
  size := Sha3.size
  blockSize := 136
  digest := Sha3.digest
  size_pos := by decide
  length_digest := Sha3.length_digest

end PublicKeyCrypto
