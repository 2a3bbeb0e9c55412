/-!
# Directions

## Main Definitions

* `Direction` — whether a cipher encrypts or decrypts
* `Task` — whether a signer signs or verifies
-/

namespace PublicKeyCrypto

/-- Which way a cipher transforms its blocks. -/
inductive Direction
  | encrypt
  | decrypt
  deriving DecidableEq, Repr

/-- What a signer has been set up for. -/
inductive Task
  | sign
  | verify
  deriving DecidableEq, Repr

/-- The direction in which the cipher under a signer works: signing is done in the encrypting
direction. -/
def Task.direction : Task → Direction
  | sign => .encrypt
  | verify => .decrypt

end PublicKeyCrypto
