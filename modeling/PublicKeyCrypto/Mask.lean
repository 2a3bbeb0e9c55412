/-!
# Branch-free masks

A mask is a 32-bit word that is all ones for "true" and zero for "false". Masks are computed and
combined without branches, so that the time taken does not depend on the data compared. The
helpers work on words of any width; positions in a block are words wide enough for its length.

## Main Definitions

* `Mask.isZero`, `Mask.equal`, `Mask.less`, `Mask.sameBytes` — comparisons
* `Mask.folded` — a word brought to 32 bits, zero only if the word is
* `Mask.select` — one of two words
-/

namespace PublicKeyCrypto

/-- All ones for "true", zero for "false". -/
abbrev Mask := BitVec 32

namespace Mask

/-- The mask for "true". -/
def yes : Mask := 0xFFFFFFFF#32

/-- The mask for "false". -/
def no : Mask := 0#32

/-- The mask of a truth value that need not be kept secret. -/
def ofBool (b : Bool) : Mask := -(BitVec.ofBool b).setWidth 32

/-- The top bit of a word, as a 32-bit word. -/
def top {w : Nat} (x : BitVec w) : Mask := (x >>> (w - 1)).setWidth 32

/-- Whether the word is zero: a nonzero word or its negation has the top bit set. -/
def isZero {w : Nat} (x : BitVec w) : Mask := top (x ||| -x) - 1#32

/-- The pieces of 32 bits of a word, laid over each other. -/
def folded {w : Nat} (x : BitVec w) : BitVec 32 :=
  (List.range ((w + 31) / 32)).foldr (fun i rest => (x >>> (32 * i)).setWidth 32 ||| rest) 0#32

/-- Whether the words are equal. -/
def equal {w : Nat} (a b : BitVec w) : Mask := isZero (folded (a ^^^ b))

/-- Whether the first word is below the second, as unsigned numbers: the borrow of their
difference. -/
def less {w : Nat} (a b : BitVec w) : Mask :=
  let c := a - b
  0#32 - top (c ^^^ ((a ^^^ b) &&& (b ^^^ c)))

/-- The first word for "true" and the second for "false". -/
def select {w : Nat} (ctl : Mask) (a b : BitVec w) : BitVec w :=
  let m := -((ctl &&& 1#32).setWidth w)
  b ^^^ (m &&& (a ^^^ b))

/-- The bits in which two byte strings differ, over all positions. -/
def differences : List UInt8 → List UInt8 → BitVec 32
  | a :: as, b :: bs => ((a ^^^ b).toBitVec.setWidth 32) ||| differences as bs
  | _, _ => 0#32

/-- Whether the byte strings are equal; their lengths need not be kept secret. -/
def sameBytes (a b : List UInt8) : Mask :=
  if a.length ≠ b.length then no else isZero (differences a b)

end Mask

end PublicKeyCrypto
