import PublicKeyCrypto.Derivation.KeyEncryption
import PublicKeyCrypto.Proofs.Derivation.Mgf1
import Mathlib

/-!
# Derived bytes as streams

What is derived from a secret does not depend on how much of it is asked for.  There is one endless
stream of bytes, the digests of successive blocks, and every request gets its beginning.  The
generators differ only in the place of the counter in the block, and all of them are read off from
one statement about counters (`counterBytes_eq_take`).

The counter has 32 bits and starts again after the last one.  In terms of blocks that are numbered
without end it is a remainder, so that to begin with a later counter is to leave out the blocks
before it (`Hash.drop_stream`).

## Main Definitions

* `Hash.stream` — the digests of numbered blocks, one after the other
* `DerivationInput.stream`, `KeyEncryptionInput.stream`, `Hash.maskStream` — what is derived from
  an input
* `FollowsStream` — a generator that gives the beginning of a stream

## Main Results

* `Hash.take_stream_mul` — the beginning of a stream consists of digests
* `derived_bytes_follow_streams` — every generator follows its stream, and so does the mask
-/

namespace PublicKeyCrypto

namespace Hash

variable (H : Hash)

/-- The digests of numbered blocks, one after the other without end. -/
def stream (block : ℕ → Bytes) : Stream' UInt8 := fun i =>
  (H.digest (block (i / H.size))).get
    ⟨i % H.size, (H.length_digest _).symm ▸ Nat.mod_lt _ H.size_pos⟩

/-- The bytes of the stream are those of the digests. -/
theorem getElem?_digest (block : ℕ → Bytes) (i : ℕ) :
    (H.digest (block (i / H.size)))[i % H.size]? = some (H.stream block i) := by
  rw [stream, List.get_eq_getElem, ← List.getElem?_eq_getElem]

/-- Without its first digests, the stream is that of the blocks behind them. -/
theorem drop_stream (block : ℕ → Bytes) (j : ℕ) :
    (H.stream block).drop (j * H.size) = H.stream fun i => block (j + i) := by
  funext i
  have later := H.getElem?_digest block (i + j * H.size)
  rw [Nat.add_mul_div_right _ _ H.size_pos, Nat.add_mul_mod_self_right,
    Nat.add_comm (i / _)] at later
  exact Option.some.inj (later.symm.trans (H.getElem?_digest (fun i => block (j + i)) i))

/-- The stream begins with the digest of the first block. -/
theorem take_stream_size (block : ℕ → Bytes) :
    (H.stream block).take H.size = H.digest (block 0) := by
  apply List.ext_getElem?
  intro i
  by_cases inside : i < H.size
  · have byte := H.getElem?_digest block i
    rw [Nat.div_eq_of_lt inside, Nat.mod_eq_of_lt inside] at byte
    rw [Stream'.getElem?_take inside, byte]
    rfl
  · rw [List.getElem?_eq_none (by rw [Stream'.length_take]; omega),
      List.getElem?_eq_none (by rw [H.length_digest]; omega)]

/-- One digest more: the others are those of the blocks behind the first one. -/
theorem take_stream_succ_mul (block : ℕ → Bytes) (count : ℕ) :
    (H.stream block).take ((count + 1) * H.size) =
      H.digest (block 0) ++ (H.stream fun i => block (1 + i)).take (count * H.size) := by
  rw [Nat.succ_mul, Nat.add_comm, Stream'.take_add, take_stream_size, ← drop_stream, Nat.one_mul]

/-- **The beginning of a stream** consists of digests. -/
theorem take_stream_mul (block : ℕ → Bytes) (count : ℕ) :
    (H.stream block).take (count * H.size) =
      (List.range count).flatMap fun i => H.digest (block i) := by
  induction count generalizing block with
  | zero => rw [Nat.zero_mul, Stream'.take_zero, List.range_zero, List.flatMap_nil]
  | succ count ih =>
      rw [take_stream_succ_mul, ih, List.range_succ_eq_map, List.flatMap_cons, List.flatMap_map]
      simp only [Nat.succ_eq_one_add]

/-- As many digests as a length takes are not shorter than it. -/
theorem le_digests_mul_size (len : ℕ) : len ≤ (len + H.size - 1) / H.size * H.size := by
  have positive := H.size_pos
  have parts := Nat.div_add_mod (len + H.size - 1) H.size
  have below := Nat.mod_lt (len + H.size - 1) positive
  rw [Nat.mul_comm] at parts
  omega

end Hash

/-! ## Counters -/

/-- A word that is counted on, as a number. -/
theorem add_ofNat_eq (start : UInt32) (i : ℕ) :
    start + UInt32.ofNat i = UInt32.ofNat ((start.toNat + i) % 2 ^ 32) := by
  apply UInt32.toNat_inj.mp
  simp

/-- Four bytes hold a remainder. -/
theorem Bytes.wide_mod (n : ℕ) : Bytes.wide 4 (n % 2 ^ 32) = Bytes.wide 4 n := by
  rw [← Bytes.ofWord32_ofNat, ← Bytes.ofWord32_ofNat]
  congr 1
  apply UInt32.toNat_inj.mp
  simp

/-- The blocks of a counter are the beginning of their stream. -/
theorem counterBlocks_eq_take (H : Hash) (block : UInt32 → Bytes) (count : ℕ) (start : UInt32) :
    counterBlocks (fun c => H.digest (block c)) count start =
      (H.stream fun i => block (start + UInt32.ofNat i)).take (count * H.size) := by
  induction count generalizing start with
  | zero => rw [counterBlocks, Nat.zero_mul, Stream'.take_zero]
  | succ count ih =>
      have next (i : ℕ) : start + 1 + UInt32.ofNat i = start + UInt32.ofNat (1 + i) := by
        rw [UInt32.ofNat_add, UInt32.add_assoc]
        rfl
      rw [counterBlocks, ih, H.take_stream_succ_mul]
      simp only [next]
      congr 3
      simp

/-- **A request** up to the limit is the beginning of the stream. -/
theorem counterBytes_eq_take {H : Hash} {block : UInt32 → Bytes} {start : UInt32} {len : ℕ}
    (short : len ≤ (2 ^ 32 - 1) * H.size) :
    counterBytes H block start len =
      .ok ((H.stream fun i => block (start + UInt32.ofNat i)).take len) := by
  have allowed : ¬len > 0xFFFFFFFF * H.size := by omega
  rw [counterBytes, if_neg allowed, counterBlocks_eq_take, Stream'.take_take,
    Nat.min_eq_right (H.le_digests_mul_size len)]

/-! ## The streams -/

/-- What KDF1 and KDF2 derive, with the counter between the secret and the information. -/
def DerivationInput.stream (i : DerivationInput) (H : Hash) (start : UInt32) : Stream' UInt8 :=
  H.stream fun k => i.shared ++ Bytes.wide 4 ((start.toNat + k) % 2 ^ 32) ++ i.info

/-- What the generator of RFC 2631 derives, with the counter in the description. -/
def KeyEncryptionInput.stream (i : KeyEncryptionInput) (H : Hash) : Stream' UInt8 :=
  H.stream fun k => i.shared ++ i.otherInfo (UInt32.ofNat (1 + k))

/-- The mask of a seed, with the counter behind the seed. -/
def Hash.maskStream (H : Hash) (seed : Bytes) : Stream' UInt8 :=
  H.stream fun k => seed ++ Bytes.wide 4 (k % 2 ^ 32)

/-- The generator gives the beginning of the stream, for every length of at most `2 ^ 32 - 1`
digests. -/
structure FollowsStream (H : Hash) (generate : ℕ → Except Error Bytes) (stream : Stream' UInt8) :
    Prop where
  generate_eq : ∀ len ≤ (2 ^ 32 - 1) * H.size, generate len = .ok (stream.take len)
  /-- A longer request goes on where a shorter one ends. -/
  exists_prefix : ∀ m n, m ≤ n → n ≤ (2 ^ 32 - 1) * H.size →
    ∃ short long, generate m = .ok short ∧ generate n = .ok long ∧ short <+: long

theorem FollowsStream.of_generate_eq {H : Hash} {generate : ℕ → Except Error Bytes}
    {stream : Stream' UInt8}
    (h : ∀ len ≤ (2 ^ 32 - 1) * H.size, generate len = .ok (stream.take len)) :
    FollowsStream H generate stream where
  generate_eq := h
  exists_prefix m n order limit :=
    ⟨_, _, h m (order.trans limit), h n limit, Stream'.take_prefix_take_left m n stream order⟩

/-- KDF1, KDF2 and the generators that begin with any other counter. -/
theorem Derivation.followsStream (d : Derivation) (i : DerivationInput) :
    FollowsStream d.hash (d.init i).generate (i.stream d.hash d.start) := by
  refine .of_generate_eq fun len short => ?_
  show counterBytes d.hash _ d.start len = _
  rw [counterBytes_eq_take short, DerivationInput.stream]
  simp only [add_ofNat_eq, Bytes.ofWord32_ofNat]

/-- Masking lays the beginning of the stream over the data. -/
theorem Hash.mask_eq_zipWith_stream (H : Hash) (seed data : Bytes) :
    H.mask seed data =
      List.zipWith (· ^^^ ·) data ((H.maskStream seed).take data.length) := by
  have stream : H.maskStream seed = H.stream fun k => seed ++ Bytes.wide 4 k := by
    simp only [maskStream, Bytes.wide_mod]
  rw [mask_eq_zipWith, mgf1, maskDigests, ← List.range_eq_range', stream,
    ← H.take_stream_mul fun k => seed ++ Bytes.wide 4 k, Stream'.take_take,
    Nat.min_eq_right (H.le_digests_mul_size _)]

/-- **Derived bytes are the beginning of a stream**, which is given by the hash function and the
input: for the generators with a counter between the secret and the information, for that of RFC
2631, whose counter stands in the description, and for that of RFC 3278, which is KDF2 over a
description.  To begin with a later counter, all counters being remainders modulo `2 ^ 32`, is to
leave out the digests before it.  A mask is laid over the data from the beginning of its stream,
whatever the length, and masking again restores them. -/
theorem derived_bytes_follow_streams :
    (∀ (d : Derivation) (i : DerivationInput),
      FollowsStream d.hash (d.init i).generate (i.stream d.hash d.start)) ∧
    (∀ (d : DhKeyEncryption) (i : KeyEncryptionInput),
      FollowsStream d.hash (d.init i).generate (i.stream d.hash)) ∧
    (∀ (d : EcdhKeyEncryption) (i : KeyEncryptionInput),
      FollowsStream d.hash (d.init i).generate
        (DerivationInput.stream ⟨i.shared, i.sharedInfo⟩ d.hash 1)) ∧
    (∀ (H : Hash) (i : DerivationInput) (start : UInt32) (j : ℕ),
      i.stream H (UInt32.ofNat ((start.toNat + j) % 2 ^ 32)) =
        (i.stream H start).drop (j * H.size)) ∧
    ∀ (H : Hash) (seed data : Bytes),
      H.mask seed data = List.zipWith (· ^^^ ·) data ((H.maskStream seed).take data.length) ∧
        H.mask seed (H.mask seed data) = data := by
  refine ⟨Derivation.followsStream, fun d i => ?_, fun d i => ?_, fun H i start j => ?_,
    fun H seed data => ⟨H.mask_eq_zipWith_stream seed data, H.mask_mask seed data⟩⟩
  · refine .of_generate_eq fun len short => ?_
    show counterBytes d.hash _ 1 len = _
    rw [counterBytes_eq_take short, KeyEncryptionInput.stream]
    simp only [UInt32.ofNat_add]
    rfl
  · exact (Derivation.kdf2 d.hash).followsStream ⟨i.shared, i.sharedInfo⟩
  · rw [DerivationInput.stream, DerivationInput.stream, H.drop_stream]
    have counted (k : ℕ) : ((UInt32.ofNat ((start.toNat + j) % 2 ^ 32)).toNat + k) % 2 ^ 32 =
        (start.toNat + (j + k)) % 2 ^ 32 := by
      rw [UInt32.toNat_ofNat', Nat.mod_mod, Nat.mod_add_mod, Nat.add_assoc]
    simp only [counted]

end PublicKeyCrypto
