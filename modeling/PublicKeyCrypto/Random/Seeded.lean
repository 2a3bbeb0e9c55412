import PublicKeyCrypto.Hash.Sha256
import PublicKeyCrypto.Random.Draw

/-!
# Reproducible tapes

A seeded tape begins with a script of given bytes and goes on with digests of a key, which is the
digest of the seed, and of a block number.

## Main Definitions

* `SeededTape.ofSeed` — the description of a tape
* `SeededTape.tape` — the tape itself
-/

namespace PublicKeyCrypto

/-- A script followed by digests. The first blocks are kept once they have been computed. -/
structure SeededTape where
  /-- The bytes at the beginning. -/
  script : Array UInt8
  /-- The key of the digests. -/
  key : Bytes
  /-- The first blocks. -/
  first : Array (Thunk Bytes)

namespace SeededTape

/-- Block number `i` of the digests of a key: the number is written over eight bytes, least
significant first. -/
def block (key : Bytes) (i : Nat) : Bytes :=
  Hash.sha256.digest (key ++ (Bytes.wide 8 i).reverse)

/-- The tape with a script and a seed. -/
def ofSeed (script seed : Bytes) : SeededTape :=
  let key := Hash.sha256.digest seed
  { script := script.toArray
    key
    first := (Array.range 512).map fun i => Thunk.mk fun _ => block key i }

/-- The byte at each position. -/
def tape (s : SeededTape) : Tape := fun position =>
  if h : position < s.script.size then s.script[position]
  else
    let i := (position - s.script.size) / 32
    let bytes := if h : i < s.first.size then s.first[i].get else block s.key i
    bytes.getD ((position - s.script.size) % 32) 0

end SeededTape

end PublicKeyCrypto
