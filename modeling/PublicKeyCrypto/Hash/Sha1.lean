import PublicKeyCrypto.Hash.Basic
import PublicKeyCrypto.Hash.Padding

/-!
# SHA-1

The digest of 20 bytes over blocks of 64 bytes.

## Main Definitions

* `Sha1.compress` — the state after one more block
* `Hash.sha1` — the hash function
-/

namespace PublicKeyCrypto

namespace Sha1

/-- Length of a digest, in bytes. -/
def size : Nat := 20

/-- The chaining value: five words. -/
structure State where
  a : UInt32
  b : UInt32
  c : UInt32
  d : UInt32
  e : UInt32

/-- The initial state. -/
def initial : State := ⟨0x67452301, 0xefcdab89, 0x98badcfe, 0x10325476, 0xc3d2e1f0⟩

/-- The word rotated to the left. -/
def rotl (x n : UInt32) : UInt32 := (x <<< n) ||| (x >>> (32 - n))

/-- The schedule with `count` more words, each from four earlier ones. -/
def extend : (count : Nat) → Array UInt32 → Array UInt32
  | 0, w => w
  | count + 1, w =>
    let back (k : Nat) := w.getD (w.size - k) 0
    extend count (w.push (rotl (back 3 ^^^ back 8 ^^^ back 14 ^^^ back 16) 1))

/-- The mixing function and the constant of a quarter of the rounds. -/
def quarter (i : Nat) (b c d : UInt32) : UInt32 × UInt32 :=
  if i < 20 then ((b &&& c) ||| (~~~b &&& d), 0x5a827999)
  else if i < 40 then (b ^^^ c ^^^ d, 0x6ed9eba1)
  else if i < 60 then ((b &&& c) ||| (b &&& d) ||| (c &&& d), 0x8f1bbcdc)
  else (b ^^^ c ^^^ d, 0xca62c1d6)

/-- Round number `i`, with its word of the schedule. -/
def round (s : State) (i : Nat) (w : UInt32) : State :=
  let (f, k) := quarter i s.b s.c s.d
  ⟨rotl s.a 5 + f + s.e + k + w, s.a, rotl s.b 30, s.c, s.d⟩

/-- The words of two states added one by one. -/
def State.add (s t : State) : State := ⟨s.a + t.a, s.b + t.b, s.c + t.c, s.d + t.d, s.e + t.e⟩

/-- The state after a block of 64 bytes. -/
def compress (s : State) (block : Bytes) : State :=
  let schedule := (extend 64 (Hash.words32 block).toArray).toList
  s.add (schedule.zipIdx.foldl (fun t (w, i) => round t i w) s)

/-- The digest of a message. -/
def digest (message : Bytes) : Bytes :=
  let s := (Hash.closedBlocks 64 8 message).foldl compress initial
  [s.a, s.b, s.c, s.d, s.e].flatMap Bytes.ofWord32

end Sha1

/-- SHA-1. -/
def Hash.sha1 : Hash where
  size := Sha1.size
  blockSize := 64
  digest := Sha1.digest
  size_pos := by decide
  length_digest _ := rfl

end PublicKeyCrypto
