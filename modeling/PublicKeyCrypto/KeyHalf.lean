/-!
# Halves of key pairs

Ciphers, signers and agreements take a key without knowing in advance which half of a pair it is,
and refuse the half that they cannot use.

## Main Definitions

* `KeyHalf` — the private or the public half of a key pair
-/

namespace PublicKeyCrypto

/-- One half of a key pair, with private keys of type `S` and public keys of type `P`. -/
inductive KeyHalf (S P : Type)
  | ofPrivate (k : S)
  | ofPublic (k : P)
  deriving DecidableEq, Repr

namespace KeyHalf

variable {S P : Type}

/-- Whether the key is the private half. -/
def isPrivate : KeyHalf S P → Bool
  | ofPrivate _ => true
  | ofPublic _ => false

/-- The public key of the pair, given how a private key determines it. -/
def toPublic (publicKey : S → P) : KeyHalf S P → P
  | ofPrivate k => publicKey k
  | ofPublic k => k

@[simp] theorem isPrivate_ofPrivate (k : S) : (ofPrivate k : KeyHalf S P).isPrivate = true := rfl

@[simp] theorem isPrivate_ofPublic (k : P) : (ofPublic k : KeyHalf S P).isPrivate = false := rfl

end KeyHalf

end PublicKeyCrypto
