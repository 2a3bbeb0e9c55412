import PublicKeyCrypto.Error
import PublicKeyCrypto.Hash.Basic

/-!
# Key derivation with a counter

The derived bytes are the digests of the shared secret, a 32-bit counter and context information,
one after another, cut to the length asked for. The counter of KDF1 starts at zero, that of KDF2
at one (ISO 18033-2, ANSI X9.63).

## Main Definitions

* `counterBlocks` — consecutive blocks of a counter
* `Derivation` — a generator, with `init` and `generate`
-/

namespace PublicKeyCrypto

/-- `count` blocks, one for each value of a counter that wraps around. -/
def counterBlocks (block : UInt32 → Bytes) : (count : Nat) → (counter : UInt32) → Bytes
  | 0, _ => []
  | count + 1, counter => block counter ++ counterBlocks block count (counter + 1)

/-- The first `len` bytes of the digests of what `block` gives for each value of the counter, for
at most `2 ^ 32 - 1` digests. -/
def counterBytes (H : Hash) (block : UInt32 → Bytes) (start : UInt32) (len : Nat) :
    Except Error Bytes :=
  if len > 0xFFFFFFFF * H.size then .error (.dataLength .derivedOutput)
  else .ok
    ((counterBlocks (fun c => H.digest (block c)) ((len + H.size - 1) / H.size) start).take len)

/-- What bytes are derived from. -/
structure DerivationInput where
  /-- The shared secret. -/
  shared : Bytes
  /-- Context information. -/
  info : Bytes

/-- A generator over a hash function, with the first value of its counter. -/
structure Derivation where
  hash : Hash
  start : UInt32
  input : Option DerivationInput := none

namespace Derivation

/-- KDF1: the counter starts at zero. -/
def kdf1 (H : Hash) : Derivation := { hash := H, start := 0 }

/-- KDF2: the counter starts at one. -/
def kdf2 (H : Hash) : Derivation := { hash := H, start := 1 }

/-- The generator with the given input. -/
def init (d : Derivation) (input : DerivationInput) : Derivation := { d with input := some input }

/-- `len` derived bytes. -/
def generate (d : Derivation) (len : Nat) : Except Error Bytes :=
  match d.input with
  | none => .error (.notInitialised .derivation)
  | some i =>
    counterBytes d.hash (fun c => i.shared ++ Bytes.ofWord32 c ++ i.info) d.start len

end Derivation

end PublicKeyCrypto
