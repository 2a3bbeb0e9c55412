import PublicKeyCrypto.Der.Basic
import PublicKeyCrypto.Error

/-!
# Object identifiers

An object identifier is a path of numbers in a tree whose root has three branches; the first two
branches have forty branches each. The first two numbers share one encoded number.

## Main Definitions

* `ObjectIdentifier`, `ObjectIdentifier.ofArcs` — identifiers, and the ones with given arcs
* `ObjectIdentifier.encode` — the encoding
-/

namespace PublicKeyCrypto

/-- An object identifier: its first two arcs and the others. -/
structure ObjectIdentifier where
  /-- The branch of the root. -/
  first : UInt32
  /-- The arc below it. -/
  second : UInt32
  /-- The other arcs. -/
  rest : List UInt32
  /-- The root has three branches. -/
  first_le : first ≤ 2
  /-- The first two branches of the root have forty branches each. -/
  second_lt : first < 2 → second < 40

namespace ObjectIdentifier

/-- The identifier with the given arcs; there must be at least two, and they must exist. -/
def ofArcs : List UInt32 → Except Error ObjectIdentifier
  | first :: second :: rest =>
    if h : first ≤ 2 ∧ (first < 2 → second < 40) then .ok ⟨first, second, rest, h.1, h.2⟩
    else .error (.invalidArgument .objectIdentifier)
  | _ => .error (.invalidArgument .objectIdentifier)

/-- The arcs in order. -/
def arcs (id : ObjectIdentifier) : List UInt32 := id.first :: id.second :: id.rest

/-- Digits to base 128 before the last one, each marked by its top bit. -/
def leadingDigits (n : Nat) : Bytes :=
  if n = 0 then [] else leadingDigits (n / 128) ++ [0x80 ||| (n % 128).toUInt8]
termination_by n

/-- The shortest form to base 128; the top bit of every digit but the last is set. -/
def base128 (n : Nat) : Bytes := leadingDigits (n / 128) ++ [(n % 128).toUInt8]

/-- The contents: the first two arcs as one number, then the others. -/
def contents (id : ObjectIdentifier) : Bytes :=
  base128 (40 * id.first.toNat + id.second.toNat) ++
    id.rest.flatMap fun arc => base128 arc.toNat

/-- The complete encoding. -/
def encode (id : ObjectIdentifier) : Bytes := Der.tagged 0x06 id.contents

end ObjectIdentifier

end PublicKeyCrypto
