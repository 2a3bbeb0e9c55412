import PublicKeyCrypto.Bytes
import PublicKeyCrypto.Error

/-!
# Sizes and weights of numbers

## Main Definitions

* `bitLength`, `byteLength` — the size of a number
* `fixedBytes` — a number over a given number of bytes, refused when it does not fit
* `nafWeight` — the number of nonzero digits of the non-adjacent form
-/

namespace PublicKeyCrypto

/-- The number of binary digits; zero has none. -/
def bitLength (n : Nat) : Nat := if n = 0 then 0 else n.log2 + 1

/-- The number of bytes that hold the binary digits. -/
def byteLength (n : Nat) : Nat := (bitLength n + 7) / 8

/-- The number of ones among the binary digits. -/
def popCount (n : Nat) : Nat :=
  if n = 0 then 0 else n % 2 + popCount (n / 2)
termination_by n

/-- The number of nonzero digits in the non-adjacent form. The form of `x` has a nonzero digit at
place `i` exactly where `3 * x` and `x` differ at place `i + 1`. -/
def nafWeight (x : Nat) : Nat := popCount ((3 * x) ^^^ x)

/-- The big-endian encoding over exactly `len` bytes, with leading zeros as needed. -/
def fixedBytes (n len : Nat) : Except Error Bytes :=
  let shortest := Bytes.minimal n
  if shortest.length > len then .error (.dataLength .numberTooLarge)
  else .ok (Bytes.zeros (len - shortest.length) ++ shortest)

/-- A number that fits is written over the whole length, and read back as it was. -/
theorem fixedBytes_eq_ok {n len : Nat} {b : Bytes} (h : fixedBytes n len = .ok b) :
    b.length = len ∧ b.value = n := by
  unfold fixedBytes at h
  dsimp only at h
  split at h
  · cases h
  · cases h
    refine ⟨?_, by simp⟩
    simp
    omega

end PublicKeyCrypto
