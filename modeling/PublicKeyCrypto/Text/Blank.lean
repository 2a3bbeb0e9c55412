/-!
# Blank characters

## Main Definitions

* `isBlank` — the characters with the property White_Space
* `trimBlank` — a text without blanks at both ends
* `equalsIgnoringAsciiCase` — equality that takes ASCII letters of both cases as one
-/

namespace PublicKeyCrypto.Text

/-- The characters with the property White_Space of the Unicode character database. -/
def isBlank (c : Char) : Bool :=
  let n := c.toNat
  (9 ≤ n && n ≤ 13) || n = 0x20 || n = 0x85 || n = 0xA0 || n = 0x1680 ||
    (0x2000 ≤ n && n ≤ 0x200A) || n = 0x2028 || n = 0x2029 || n = 0x202F || n = 0x205F ||
    n = 0x3000

/-- The text without blanks at its beginning and end. -/
def trimBlank (text : List Char) : List Char :=
  ((text.dropWhile isBlank).reverse.dropWhile isBlank).reverse

/-- Equality up to the case of ASCII letters. -/
def equalsIgnoringAsciiCase (a b : List Char) : Bool :=
  a.map Char.toLower = b.map Char.toLower

end PublicKeyCrypto.Text
