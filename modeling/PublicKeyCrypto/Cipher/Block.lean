import PublicKeyCrypto.Fault
import PublicKeyCrypto.Mask
import PublicKeyCrypto.Number.Bits

/-!
# Parts of a block

The encodings cut blocks at computed positions. A position outside the block is a fault, so that
it can be shown that none occurs.

## Main Definitions

* `Bytes.byteAt`, `Bytes.slice`, `Bytes.write` — access to a part of a block
* `Mask.equalSizes`, `Mask.equalByte`, `Mask.selectByte` — masks over sizes and bytes
-/

namespace PublicKeyCrypto

namespace Bytes

/-- The byte at a position. -/
def byteAt (b : Bytes) (i : Nat) : Except Fault UInt8 :=
  match b[i]? with
  | some x => .ok x
  | none => .error .outOfBounds

/-- The bytes from `start` up to `stop`. -/
def slice (b : Bytes) (start stop : Nat) : Except Fault Bytes :=
  if start ≤ stop ∧ stop ≤ b.length then .ok ((b.take stop).drop start) else .error .outOfBounds

/-- The block with the data written at a position. -/
def write (b : Bytes) (start : Nat) (data : Bytes) : Except Fault Bytes :=
  if start + data.length ≤ b.length then
    .ok (b.take start ++ data ++ b.drop (start + data.length))
  else .error .outOfBounds

/-- A byte that was found has its position inside the block. -/
theorem lt_length_of_byteAt_eq_ok {b : Bytes} {i : Nat} {x : UInt8} (h : b.byteAt i = .ok x) :
    i < b.length := by
  unfold byteAt at h
  split at h
  · next found => exact (List.getElem?_eq_some_iff.mp found).1
  · cases h

/-- A slice exists exactly when its bounds are in order and inside the block. -/
theorem slice_eq_ok_iff {b part : Bytes} {start stop : Nat} :
    b.slice start stop = .ok part ↔
      start ≤ stop ∧ stop ≤ b.length ∧ part = (b.take stop).drop start := by
  unfold slice
  constructor
  · intro h
    split at h
    · next bounds => exact ⟨bounds.1, bounds.2, (Except.ok.inj h).symm⟩
    · cases h
  · rintro ⟨ordered, inside, rfl⟩
    rw [if_pos ⟨ordered, inside⟩]

/-- A slice has the length that its bounds say. -/
theorem length_slice {b part : Bytes} {start stop : Nat} (h : b.slice start stop = .ok part) :
    part.length = stop - start := by
  obtain ⟨ordered, inside, rfl⟩ := slice_eq_ok_iff.mp h
  rw [List.length_drop, List.length_take, Nat.min_eq_left inside]

end Bytes

namespace Mask

/-- Whether two sizes are equal. -/
def equalSizes (a b : Nat) : Mask :=
  let w := bitLength (max a b)
  equal (BitVec.ofNat w a) (BitVec.ofNat w b)

/-- Whether a byte has a given value. -/
def equalByte (a b : UInt8) : Mask := equal a.toBitVec b.toBitVec

/-- The first byte for "true" and the second for "false": the lowest byte of the mask covers the
bits in which they differ. -/
def selectByte (ctl : Mask) (a b : UInt8) : UInt8 :=
  let m : UInt8 := ⟨ctl.setWidth 8⟩
  b ^^^ (m &&& (a ^^^ b))

end Mask

end PublicKeyCrypto
