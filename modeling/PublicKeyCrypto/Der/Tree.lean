import PublicKeyCrypto.Der.ObjectIdentifier

/-!
# Trees of encoded values

## Main Definitions

* `Der.Tree` — the values that the encoder can write
* `Der.Tree.encode` — the encoding of a whole tree
-/

namespace PublicKeyCrypto.Der

/-- A value to be encoded. -/
inductive Tree
  | sequence (items : List Tree)
  | octetString (data : Bytes)
  | null
  | explicit (number : UInt8) (inner : Tree)
  | objectIdentifier (id : ObjectIdentifier)

namespace Tree

mutual

/-- The encoding of a value. -/
def encode : Tree → Bytes
  | sequence items => Der.sequence (encodeAll items)
  | octetString data => Der.octetString data
  | null => Der.null
  | explicit number inner => Der.explicit number inner.encode
  | objectIdentifier id => id.encode

/-- The encodings of several values. -/
def encodeAll : List Tree → List Bytes
  | [] => []
  | t :: rest => t.encode :: encodeAll rest

end

end Tree

end PublicKeyCrypto.Der
