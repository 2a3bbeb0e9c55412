import PublicKeyCrypto.Symmetric.Basic

/-!
# AES

The block cipher of FIPS 197 with keys of 16, 24 or 32 bytes. Bytes are elements of the field of
256 elements whose product is taken modulo `x⁸ + x⁴ + x³ + x + 1`; the substitution table is
computed from that field. A state of 16 bytes is read column by column.

## Main Definitions

* `Aes.encryptBlock`, `Aes.decryptBlock` — the cipher under expanded round keys
* `Aes.Cipher` — the cipher as a `BlockCipher`
-/

namespace PublicKeyCrypto

namespace Aes

/-- A block of 16 bytes. -/
abbrev Block := Vector UInt8 16

/-- The product with `x`. -/
def double (a : UInt8) : UInt8 := (a <<< 1) ^^^ (if a ≥ 0x80 then 0x1B else 0)

/-- The product in the field, over the lowest `bits` bits of the second factor. -/
def productOver : (bits : Nat) → UInt8 → UInt8 → UInt8
  | 0, _, _ => 0
  | bits + 1, a, b =>
    (if b &&& 1 = 1 then a else 0) ^^^ productOver bits (double a) (b >>> 1)

/-- The product in the field. -/
def product (a b : UInt8) : UInt8 := productOver 8 a b

/-- The inverse in the field, with zero for zero: the 254th power, whose exponent is
`2 + 4 + 8 + 16 + 32 + 64 + 128`. -/
def inverse (a : UInt8) : UInt8 :=
  let step (acc : UInt8 × UInt8) (_ : Nat) :=
    let square := product acc.2 acc.2
    (product acc.1 square, square)
  ((List.range 7).foldl step (1, a)).1

/-- The byte rotated to the left. -/
def rotl (a n : UInt8) : UInt8 := (a <<< n) ||| (a >>> (8 - n))

/-- The substitute of every byte: an affine image of its inverse. -/
def substitutes : Array UInt8 :=
  (Array.range 256).map fun i =>
    let x := inverse i.toUInt8
    x ^^^ rotl x 1 ^^^ rotl x 2 ^^^ rotl x 3 ^^^ rotl x 4 ^^^ 0x63

/-- The byte of which each byte is the substitute. -/
def preimages : Array UInt8 :=
  (Array.range 256).map fun i => (substitutes.idxOf i.toUInt8).toUInt8

/-- The substitute of a byte. -/
def substitute (a : UInt8) : UInt8 := substitutes.getD a.toNat 0

/-- The byte with the given substitute. -/
def unsubstitute (a : UInt8) : UInt8 := preimages.getD a.toNat 0

/-- The byte of a block at a position, which is taken modulo 16. -/
def byteAt (s : Block) (i : Nat) : UInt8 := s.get ⟨i % 16, Nat.mod_lt _ (by decide)⟩

/-- The block whose byte at each position is given. -/
def build (f : Nat → UInt8) : Block := Vector.ofFn fun i : Fin 16 => f i

/-- The blocks combined with exclusive or. -/
def addKey (s k : Block) : Block := build fun i => byteAt s i ^^^ byteAt k i

/-- Each row moved to the left by its number. -/
def shiftRows (s : Block) : Block := build fun i => byteAt s (i + 4 * (i % 4))

/-- Each row moved to the right by its number. -/
def unshiftRows (s : Block) : Block := build fun i => byteAt s (i + 12 * (i % 4))

/-- Each column multiplied by a fixed circulant matrix, given by its first row. -/
def mixColumns (a b c d : UInt8) (s : Block) : Block := build fun i =>
  let column := i / 4 * 4
  let row := i % 4
  let entry (k : Nat) := byteAt s (column + (row + k) % 4)
  product (entry 0) a ^^^ product (entry 1) b ^^^ product (entry 2) c ^^^ product (entry 3) d

/-- A word of the key schedule. -/
abbrev Word := List UInt8

/-- The word with every byte substituted. -/
def substituteWord (w : Word) : Word := w.map substitute

/-- The word rotated by one byte to the left. -/
def rotateWord (w : Word) : Word := w.drop 1 ++ w.take 1

/-- The schedule with `count` more words, for a key of `keyWords` words; `constant` is the next
round constant. -/
def extend (keyWords : Nat) : (count : Nat) → (constant : UInt8) → Array Word → Array Word
  | 0, _, w => w
  | count + 1, constant, w =>
    let last := w.getD (w.size - 1) []
    let base := w.getD (w.size - keyWords) []
    if w.size % keyWords = 0 then
      let mixed := Bytes.xorOver (substituteWord (rotateWord last)) [constant]
      extend keyWords count (double constant) (w.push (Bytes.xorOver base mixed))
    else if keyWords > 6 ∧ w.size % keyWords = 4 then
      extend keyWords count constant (w.push (Bytes.xorOver base (substituteWord last)))
    else
      extend keyWords count constant (w.push (Bytes.xorOver base last))

/-- The block whose bytes are the given ones, filled up with zeros. -/
def blockOf (bytes : List UInt8) : Block := build fun i => bytes.getD i 0

/-- The round keys of a key of 16, 24 or 32 bytes: one more than there are rounds. -/
def roundKeys (key : Bytes) : List Block :=
  let keyWords := key.length / 4
  let words := extend keyWords (4 * (keyWords + 7) - keyWords) 1 (chunks 4 key).toArray
  (chunks 16 words.toList.flatten).map blockOf

/-- The rounds after the first key: the last round mixes no columns. -/
def encryptRounds (s : Block) : List Block → Block
  | [] => s
  | [k] => addKey (shiftRows (s.map substitute)) k
  | k :: rest => encryptRounds (addKey (mixColumns 2 3 1 1 (shiftRows (s.map substitute))) k) rest

/-- The encrypted block. -/
def encryptBlock (keys : List Block) (s : Block) : Block :=
  match keys with
  | [] => s
  | k :: rest => encryptRounds (addKey s k) rest

/-- The inverse of `encryptRounds`, last round first. -/
def decryptRounds (s : Block) : List Block → Block
  | [] => s
  | [k] => (unshiftRows (addKey s k)).map unsubstitute
  | k :: rest =>
    (unshiftRows (mixColumns 14 11 13 9 (addKey (decryptRounds s rest) k))).map unsubstitute

/-- The decrypted block. -/
def decryptBlock (keys : List Block) (s : Block) : Block :=
  match keys with
  | [] => s
  | k :: rest => addKey (decryptRounds s rest) k

end Aes

/-- AES with its round keys, once a key has been set. -/
structure Aes.Cipher where
  roundKeys : Option (List Aes.Block) := none
  direction : Direction := .decrypt

namespace Aes.Cipher

/-- Sets the direction and the key; a key of a wrong length is refused and changes nothing. -/
def init (c : Aes.Cipher) (direction : Direction) (key : Bytes) : Reply Aes.Cipher Unit :=
  if key.length = 16 ∨ key.length = 24 ∨ key.length = 32 then
    (.ok (), { roundKeys := some (Aes.roundKeys key), direction })
  else (.error (.invalidArgument .aesKeyLength), c)

/-- The transformed block. -/
def process (c : Aes.Cipher) (block : Bytes) : Except Error Bytes :=
  match c.roundKeys with
  | none => .error (.notInitialised .aes)
  | some keys =>
    if block.length ≠ 16 then .error (.dataLength .aesBlock)
    else
      match c.direction with
      | .encrypt => .ok (Aes.encryptBlock keys (Aes.blockOf block)).toList
      | .decrypt => .ok (Aes.decryptBlock keys (Aes.blockOf block)).toList

theorem length_process {c : Aes.Cipher} {block out : Bytes} (h : c.process block = .ok out) :
    out.length = block.length := by
  unfold process at h
  split at h
  · cases h
  · split at h
    · cases h
    · split at h <;> cases h <;> simp <;> omega

instance : BlockCipher Aes.Cipher where
  name := "AES"
  blockSize := 16
  init := init
  process := process
  length_process := length_process

end Aes.Cipher

end PublicKeyCrypto
