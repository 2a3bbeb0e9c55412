import PublicKeyCrypto.Bytes

/-!
# DER encoding

The few constructs that the key derivations need, in the distinguished encoding of X.690: a tag,
the length of the contents, and the contents. The encodings of the parts of a sequence follow one
another in its contents.

## Main Definitions

* `Der.lengthOctets` — the length octets
* `Der.sequence`, `Der.octetString`, `Der.null`, `Der.explicit` — one encoding per construct
-/

namespace PublicKeyCrypto.Der

/-- The length octets: one octet below 128, otherwise the number of octets and the shortest
big-endian form. -/
def lengthOctets (len : Nat) : Bytes :=
  if len < 0x80 then [len.toUInt8]
  else
    let octets := Bytes.minimal len
    (0x80 ||| octets.length.toUInt8) :: octets

/-- A tag with contents. -/
def tagged (tag : UInt8) (contents : Bytes) : Bytes :=
  tag :: lengthOctets contents.length ++ contents

/-- A SEQUENCE of encoded parts. -/
def sequence (parts : List Bytes) : Bytes := tagged 0x30 parts.flatten

/-- An OCTET STRING. -/
def octetString (data : Bytes) : Bytes := tagged 0x04 data

/-- A NULL. -/
def null : Bytes := tagged 0x05 []

/-- An encoded value under an explicit context-specific tag; tag numbers count modulo 32. -/
def explicit (number : UInt8) (inner : Bytes) : Bytes :=
  tagged (0xA0 ||| (number &&& 0x1F)) inner

end PublicKeyCrypto.Der
