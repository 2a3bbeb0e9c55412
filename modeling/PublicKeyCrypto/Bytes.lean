/-!
# Byte strings

Every message, key, block and encoding of the library is a list of bytes.

## Main Definitions

* `Bytes.value`, `Bytes.minimal` — a byte string as a big-endian number, and the shortest
  string for a number
* `Bytes.xorOver` — one byte string laid over the beginning of another
* `chunks` — a list cut into pieces of one size, the last piece possibly shorter
-/

namespace PublicKeyCrypto

/-- A byte string, first byte first. -/
abbrev Bytes := List UInt8

/-- The list cut into pieces of `size` elements; the last piece holds what is left.
A size of zero cuts nothing. -/
def chunks {α : Type} (size : Nat) (xs : List α) : List (List α) :=
  if _h : size = 0 ∨ xs = [] then []
  else xs.take size :: chunks size (xs.drop size)
termination_by xs.length
decreasing_by
  have hx : xs.length ≠ 0 := fun e => _h (Or.inr (List.length_eq_zero_iff.mp e))
  simp only [List.length_drop]
  omega

/-- An empty list has no pieces. -/
@[simp] theorem chunks_nil {α : Type} (size : Nat) : chunks size ([] : List α) = [] := by
  rw [chunks, dif_pos (Or.inr rfl)]

/-- The first piece of a list that is not empty, and the pieces of the rest. -/
theorem chunks_of_ne_nil {α : Type} {size : Nat} {xs : List α} (hs : size ≠ 0) (hx : xs ≠ []) :
    chunks size xs = xs.take size :: chunks size (xs.drop size) := by
  rw [chunks, dif_neg (not_or.mpr ⟨hs, hx⟩)]

/-- Nothing is lost by cutting. -/
theorem flatten_chunks {α : Type} {size : Nat} (hs : size ≠ 0) (xs : List α) :
    (chunks size xs).flatten = xs := by
  induction xs using chunks.induct size with
  | case1 xs h =>
    have hx : xs = [] := h.resolve_left hs
    subst hx
    simp
  | case2 xs h ih =>
    rw [chunks_of_ne_nil hs (not_or.mp h).2, List.flatten_cons, ih, List.take_append_drop]

/-- All pieces have full length when the size divides the length of the list. -/
theorem length_of_mem_chunks {α : Type} {size : Nat} {xs piece : List α}
    (hd : xs.length % size = 0) (hp : piece ∈ chunks size xs) : piece.length = size := by
  induction xs using chunks.induct size with
  | case1 xs h =>
    rw [chunks, dif_pos h] at hp
    cases hp
  | case2 xs h ih =>
    obtain ⟨hs, hx⟩ := not_or.mp h
    have hpos : 0 < xs.length := List.length_pos_iff.mpr hx
    have hle : size ≤ xs.length := Nat.le_of_dvd hpos (Nat.dvd_of_mod_eq_zero hd)
    rw [chunks_of_ne_nil hs hx, List.mem_cons] at hp
    rcases hp with hp | hp
    · rw [hp, List.length_take]
      omega
    · have hd' : (xs.drop size).length % size = 0 := by
        rw [List.length_drop, ← Nat.mod_eq_sub_mod hle]
        exact hd
      exact ih hd' hp

namespace Bytes

/-- `count` zero bytes. -/
def zeros (count : Nat) : Bytes := List.replicate count 0

/-- The string read as a number, most significant byte first; the empty string is zero. -/
def value (b : Bytes) : Nat := b.foldl (fun acc x => acc * 256 + x.toNat) 0

/-- The shortest string whose `value` is the number; zero is the empty string. -/
def minimal (n : Nat) : Bytes :=
  if n = 0 then [] else minimal (n / 256) ++ [(n % 256).toUInt8]
termination_by n

/-- The number modulo `256 ^ len` over exactly `len` bytes, most significant first. -/
def wide : Nat → Nat → Bytes
  | 0, _ => []
  | len + 1, n => wide len (n / 256) ++ [(n % 256).toUInt8]

/-- The bytes of `upper` laid over the beginning of `lower` with exclusive or. The result has the
length of `lower`; what `upper` does not reach stays, and what hangs over is ignored. -/
def xorOver : (lower upper : Bytes) → Bytes
  | [], _ => []
  | lower, [] => lower
  | a :: lower, b :: upper => (a ^^^ b) :: xorOver lower upper

/-- Four bytes of a 32-bit word, most significant first. -/
def ofWord32 (w : UInt32) : Bytes :=
  [(w >>> 24).toUInt8, (w >>> 16).toUInt8, (w >>> 8).toUInt8, w.toUInt8]

/-- Eight bytes of a 64-bit word, most significant first. -/
def ofWord64 (w : UInt64) : Bytes :=
  ofWord32 (w >>> 32).toUInt32 ++ ofWord32 w.toUInt32

@[simp] theorem length_zeros (n : Nat) : (zeros n).length = n := by simp [zeros]

@[simp] theorem length_ofWord32 (w : UInt32) : (ofWord32 w).length = 4 := rfl

@[simp] theorem length_ofWord64 (w : UInt64) : (ofWord64 w).length = 8 := rfl

@[simp] theorem length_wide (len n : Nat) : (wide len n).length = len := by
  induction len generalizing n with
  | zero => rfl
  | succ len ih => simp [wide, ih]

@[simp] theorem length_xorOver (lower upper : Bytes) :
    (xorOver lower upper).length = lower.length := by
  induction lower generalizing upper with
  | nil => cases upper <;> rfl
  | cons a lower ih => cases upper <;> simp [xorOver, ih]

/-- Laying the same bytes over a string twice changes nothing. -/
@[simp] theorem xorOver_xorOver (lower upper : Bytes) :
    xorOver (xorOver lower upper) upper = lower := by
  induction lower generalizing upper with
  | nil => cases upper <;> rfl
  | cons a lower ih =>
    cases upper with
    | nil => rfl
    | cons b upper => rw [xorOver, xorOver, ih, UInt8.xor_assoc, UInt8.xor_self, UInt8.xor_zero]

@[simp] theorem value_nil : value [] = 0 := rfl

/-- A last byte makes up the lowest eight bits. -/
theorem value_concat (b : Bytes) (x : UInt8) : value (b ++ [x]) = value b * 256 + x.toNat := by
  simp [value, List.foldl_append]

/-- Leading zeros do not count. -/
@[simp] theorem value_zeros_append (count : Nat) (b : Bytes) :
    value (zeros count ++ b) = value b := by
  induction count with
  | zero => rfl
  | succ count ih =>
    rw [zeros, List.replicate_succ, List.cons_append]
    exact ih

@[simp] theorem minimal_zero : minimal 0 = [] := by rw [minimal, if_pos rfl]

/-- Reading undoes writing. -/
@[simp] theorem value_minimal (n : Nat) : value (minimal n) = n := by
  induction n using minimal.induct with
  | case1 => rw [minimal_zero, value_nil]
  | case2 n hn ih =>
    rw [minimal, if_neg hn, value_concat, ih, UInt8.toNat_ofNat']
    omega

end Bytes

end PublicKeyCrypto
