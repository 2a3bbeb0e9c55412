import PublicKeyCrypto.Der.Tree
import PublicKeyCrypto.Derivation.Counter

/-!
# Key-encryption keys

A key-encryption key is derived from a shared secret together with a description of its use: the
algorithm that will use it, its size, and optional information on the parties. RFC 2631 puts the
counter into the description; RFC 3278 uses KDF2 over a description without counter.

## Main Definitions

* `KeyEncryptionInput` — the secret and the use of the key
* `DhKeyEncryption`, `EcdhKeyEncryption` — the two generators
-/

namespace PublicKeyCrypto

/-- What a key-encryption key is derived from. -/
structure KeyEncryptionInput where
  /-- The algorithm that will use the key. -/
  algorithm : ObjectIdentifier
  /-- Size of the key, in bits. -/
  keySize : UInt32
  /-- The shared secret. -/
  shared : Bytes
  /-- Information on the parties, if any. -/
  party : Option Bytes

namespace KeyEncryptionInput

/-- The parts that follow the key information: the party information under tag 0 when there is
any, and the key size under tag 2. -/
def useInfo (i : KeyEncryptionInput) : List Der.Tree :=
  (match i.party with
    | some info => [.explicit 0 (.octetString info)]
    | none => []) ++
  [.explicit 2 (.octetString (Bytes.ofWord32 i.keySize))]

/-- The description of RFC 2631, which holds the counter. -/
def otherInfo (i : KeyEncryptionInput) (counter : UInt32) : Bytes :=
  let keyInfo := Der.Tree.sequence
    [.objectIdentifier i.algorithm, .octetString (Bytes.ofWord32 counter)]
  (Der.Tree.sequence (keyInfo :: i.useInfo)).encode

/-- The description of RFC 3278; the algorithm has the parameters NULL. -/
def sharedInfo (i : KeyEncryptionInput) : Bytes :=
  let keyInfo := Der.Tree.sequence [.objectIdentifier i.algorithm, .null]
  (Der.Tree.sequence (keyInfo :: i.useInfo)).encode

end KeyEncryptionInput

/-- The generator of RFC 2631. -/
structure DhKeyEncryption where
  hash : Hash
  input : Option KeyEncryptionInput := none

namespace DhKeyEncryption

/-- The generator with the given input. -/
def init (d : DhKeyEncryption) (input : KeyEncryptionInput) : DhKeyEncryption :=
  { d with input := some input }

/-- `len` derived bytes. -/
def generate (d : DhKeyEncryption) (len : Nat) : Except Error Bytes :=
  match d.input with
  | none => .error (.notInitialised .dhKeyEncryption)
  | some i => counterBytes d.hash (fun c => i.shared ++ i.otherInfo c) 1 len

end DhKeyEncryption

/-- The generator of RFC 3278. -/
structure EcdhKeyEncryption where
  hash : Hash
  input : Option KeyEncryptionInput := none

namespace EcdhKeyEncryption

/-- The generator with the given input. -/
def init (d : EcdhKeyEncryption) (input : KeyEncryptionInput) : EcdhKeyEncryption :=
  { d with input := some input }

/-- `len` derived bytes. -/
def generate (d : EcdhKeyEncryption) (len : Nat) : Except Error Bytes :=
  match d.input with
  | none => .error (.notInitialised .ecdhKeyEncryption)
  | some i => ((Derivation.kdf2 d.hash).init ⟨i.shared, i.sharedInfo⟩).generate len

end EcdhKeyEncryption

end PublicKeyCrypto
