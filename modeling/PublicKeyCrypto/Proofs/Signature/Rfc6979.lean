import PublicKeyCrypto.Proofs.Number.Encoding
import PublicKeyCrypto.Signature.Nonce

/-!
# Deterministic nonces in the standard

RFC 6979 derives a nonce from the private key and the hashed message (section 3.2).  The procedure
is written down here step by step, without a look at the source of nonces that follows it: bits are
lists of Booleans, a sequence of bits is cut or filled up to the length of the order, residues are
taken by division, and strings are joined until they are long enough.

A candidate is given for every index, whether or not the ones before it are suitable; the nonce is
the first suitable one.

## Main Definitions

* `bits2int`, `int2octets`, `bits2octets` — the conversions (section 2.3)
* `hmac` — the keyed hash
* `seeded`, `candidate`, `renew` — the steps of the generator
* `trial`, `IsNonce` — the sequence of candidates, and the nonce
-/

namespace PublicKeyCrypto.Rfc6979

/-! ## Conversions -/

/-- The bits of a byte, highest first. -/
def byteBits (x : UInt8) : List Bool := (List.range 8).map fun i => x.toNat.testBit (7 - i)

/-- The bits of a byte string. -/
def bits (b : Bytes) : List Bool := b.flatMap byteBits

/-- The number with the given bits, highest first. -/
def number : List Bool → ℕ
  | [] => 0
  | bit :: rest => bit.toNat * 2 ^ rest.length + number rest

/-- A sequence of bits as a number of `qlen` bits (section 2.3.2): its leftmost bits, or all of them
after zeros. -/
def bits2int (qlen : ℕ) (sequence : List Bool) : ℕ :=
  if qlen < sequence.length then number (sequence.take qlen)
  else number (List.replicate (qlen - sequence.length) false ++ sequence)

/-- A number below `q` over as many bytes as the length of `q` takes (section 2.3.3). -/
def int2octets (q x : ℕ) : Bytes :=
  let rolen := (q.size + 7) / 8
  (List.range rolen).map fun i => UInt8.ofNat (x / 256 ^ (rolen - 1 - i))

/-- A sequence of bits as a residue modulo `q`, written as such numbers are (section 2.3.4). -/
def bits2octets (q : ℕ) (sequence : List Bool) : Bytes :=
  int2octets q (bits2int q.size sequence % q)

/-! ## The keyed hash -/

variable (H : Hash)

/-- The key over exactly one block.  A longer key is hashed first, and zeros follow a shorter one.
The standard only speaks of functions whose digests are no longer than a block; with others a key is
cut. -/
def blockKey (key : Bytes) : Bytes :=
  let short := if H.blockSize < key.length ∧ H.size ≤ H.blockSize then H.digest key else key
  short.take H.blockSize ++ Bytes.zeros (H.blockSize - short.length)

/-- The keyed hash HMAC. -/
def hmac (key message : Bytes) : Bytes :=
  let inner := (blockKey H key).map (· ^^^ 0x36)
  let outer := (blockKey H key).map (· ^^^ 0x5C)
  H.digest (outer ++ H.digest (inner ++ message))

@[simp] theorem length_hmac (key message : Bytes) : (hmac H key message).length = H.size :=
  H.length_digest _

/-! ## The generator -/

/-- The variables `K` and `V` of the procedure. -/
structure State where
  key : Bytes
  value : Bytes

/-- The state after steps b to g, for the order `q`, the private key `x` and the hashed message. -/
def seeded (q x : ℕ) (h1 : Bytes) : State :=
  let seed := int2octets q x ++ bits2octets q (bits h1)
  let v₀ : Bytes := List.replicate H.size 0x01 -- b
  let k₀ : Bytes := List.replicate H.size 0x00 -- c
  let k₁ := hmac H k₀ (v₀ ++ [0x00] ++ seed) -- d
  let v₁ := hmac H k₁ v₀ -- e
  let k₂ := hmac H k₁ (v₁ ++ [0x01] ++ seed) -- f
  { key := k₂, value := hmac H k₂ v₁ } -- g

/-- Step h.2: the value is renewed and joined to `t` while `t` has less than `qlen` bits. -/
def fill (qlen : ℕ) (key t value : Bytes) : Bytes × Bytes :=
  if 8 * t.length < qlen then fill qlen key (t ++ hmac H key value) (hmac H key value)
  else (t, value)
termination_by qlen - 8 * t.length
decreasing_by
  have positive := H.size_pos
  rw [List.length_append, length_hmac]
  omega

/-- Steps h.1 and h.2, and the number that is computed in step h.3. -/
def candidate (q : ℕ) (s : State) : ℕ × State :=
  let (t, value) := fill H q.size s.key [] s.value
  (bits2int q.size (bits t), { s with value })

/-- The end of step h.3, after an unsuitable candidate. -/
def renew (s : State) : State :=
  let key := hmac H s.key (s.value ++ [0x00])
  { key, value := hmac H key s.value }

/-- The state before each candidate. -/
def state (q x : ℕ) (h1 : Bytes) : ℕ → State
  | 0 => seeded H q x h1
  | i + 1 => renew H (candidate H q (state q x h1 i)).2

/-- The candidate with a given index. -/
def trial (q x : ℕ) (h1 : Bytes) (i : ℕ) : ℕ := (candidate H q (state H q x h1 i)).1

/-- The candidate is in the range of nonces. -/
def Suitable (q k : ℕ) : Prop := 1 ≤ k ∧ k ≤ q - 1

instance (q k : ℕ) : Decidable (Suitable q k) := inferInstanceAs (Decidable (_ ∧ _))

/-- The nonce: the first suitable candidate. -/
def IsNonce (q x : ℕ) (h1 : Bytes) (k : ℕ) : Prop :=
  ∃ i, trial H q x h1 i = k ∧ Suitable q k ∧ ∀ j < i, ¬ Suitable q (trial H q x h1 j)

/-- There is only one nonce. -/
theorem IsNonce.unique {H : Hash} {q x k k' : ℕ} {h1 : Bytes} (h : IsNonce H q x h1 k)
    (h' : IsNonce H q x h1 k') : k = k' := by
  obtain ⟨i, rfl, suitable, others⟩ := h
  obtain ⟨j, rfl, suitable', others'⟩ := h'
  rcases lt_trichotomy i j with before | rfl | behind
  · exact absurd suitable (others' i before)
  · rfl
  · exact absurd suitable' (others j behind)

end PublicKeyCrypto.Rfc6979
