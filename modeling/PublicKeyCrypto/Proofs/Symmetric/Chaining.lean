import PublicKeyCrypto.Proofs.Symmetric.Stealing
import Mathlib

/-!
# Ciphertext stealing and ordinary block chaining

Ordinary block chaining knows whole blocks only, and treats all of them alike.  A message that does
not fill its last block is brought to whole blocks by zeros.  Stealing is the same encryption, with
the last two ciphertext blocks exchanged and the surplus cut off: it encrypts the same blocks in the
same order, and what it does differently at the end is to write the last block first and the one
before it as far as the message reaches.

The rest of the message is laid over the beginning of the ciphertext block before it.  That is the
same as to lay the block over the rest and its zeros (`Bytes.xorOver_eq_zipWith_zeros`).  A message
of whole blocks has a rest of one block, and no zeros; its last two blocks are exchanged as well.

A block that the cipher refuses is refused in both at the same place, so that the equations hold of
errors too.

## Main Definitions

* `BlockCipher.chained` — the ciphertext blocks of ordinary block chaining
* `Stealing.padded`, `Stealing.swapLastTwo` — the message with zeros, and the exchange

## Main Results

* `Stealing.encryptChain_eq`, `Stealing.encryptTail_eq` — both parts of a message are chained
* `Stealing.stealing_encrypts_as_chaining` — a message is encrypted by chaining
-/

namespace PublicKeyCrypto

namespace BlockCipher

variable {C : Type} [BlockCipher C] {c : C} {size : ℕ}

/-- Ordinary block chaining: each block is encrypted with the ciphertext block before it laid over
it. -/
def chained (c : C) : (previous : Bytes) → List Bytes → Except Error (List Bytes)
  | _, [] => .ok []
  | previous, block :: rest => do
    let e ← process c (List.zipWith (· ^^^ ·) block previous)
    return e :: (← chained c e rest)

/-- More blocks are chained to the last ciphertext block. -/
theorem chained_append (previous : Bytes) (first second : List Bytes) :
    chained c previous (first ++ second) = do
      let out ← chained c previous first
      return out ++ (← chained c (out.getLastD previous) second) := by
  induction first generalizing previous with
  | nil =>
      show _ = (chained c previous second >>= pure)
      rw [bind_pure]
      rfl
  | cons block rest ih =>
      simp only [List.cons_append, chained, ih, bind_assoc, pure_bind, List.getLastD_cons]

/-- A ciphertext block has the length of the blocks that it is made of. -/
theorem length_chained_block {block previous e : Bytes} (hblock : block.length = size)
    (hprevious : previous.length = size)
    (encrypted : process c (List.zipWith (· ^^^ ·) block previous) = .ok e) : e.length = size := by
  rw [length_process encrypted, List.length_zipWith, hblock, hprevious, Nat.min_self]

/-- As many blocks come out as go in, all of the same length. -/
theorem chained_lengths {previous : Bytes} {blocks out : List Bytes}
    (hprevious : previous.length = size) (full : ∀ block ∈ blocks, block.length = size)
    (encrypted : chained c previous blocks = .ok out) :
    out.length = blocks.length ∧ (∀ e ∈ out, e.length = size) ∧
      (out.getLastD previous).length = size := by
  induction blocks generalizing previous out with
  | nil =>
      cases encrypted
      exact ⟨rfl, by simp, hprevious⟩
  | cons block rest ih =>
      obtain ⟨hblock, hrest⟩ := List.forall_mem_cons.mp full
      rw [chained] at encrypted
      cases first : process c (List.zipWith (· ^^^ ·) block previous) with
      | error e =>
          rw [first] at encrypted
          cases encrypted
      | ok e =>
          rw [first] at encrypted
          have he : e.length = size := length_chained_block hblock hprevious first
          cases others : chained c e rest with
          | error e' =>
              simp only [others, bind, Except.bind] at encrypted
              cases encrypted
          | ok out' =>
              simp only [others, bind, Except.bind, pure, Except.pure] at encrypted
              cases encrypted
              obtain ⟨count, lengths, last⟩ := ih he hrest others
              refine ⟨congrArg (· + 1) count, List.forall_mem_cons.mpr ⟨he, lengths⟩, ?_⟩
              rwa [List.getLastD_cons]

end BlockCipher

namespace Stealing

open BlockCipher (chained)

variable {C : Type} [BlockCipher C] {c : C} {size : ℕ}

/-! ## The parts of a message -/

/-- The blocks before the tail are chained; the chain is the last ciphertext block. -/
theorem encryptChain_eq {previous : Bytes} {blocks : List Bytes}
    (hprevious : previous.length = size) (full : ∀ block ∈ blocks, block.length = size) :
    encryptChain c previous blocks =
      (fun out => (out.flatten, out.getLastD previous)) <$> chained c previous blocks := by
  induction blocks generalizing previous with
  | nil => rfl
  | cons block rest ih =>
      obtain ⟨hblock, hrest⟩ := List.forall_mem_cons.mp full
      rw [encryptChain, chained, Bytes.xorOver_eq_zipWith (by rw [hblock, hprevious])]
      cases encrypted : BlockCipher.process c (List.zipWith (· ^^^ ·) block previous) with
      | error e => rfl
      | ok e =>
          have he : e.length = size :=
            BlockCipher.length_chained_block hblock hprevious encrypted
          show (encryptChain c e rest >>= _) = _ <$> (chained c e rest >>= _)
          rw [ih he hrest]
          simp only [map_eq_pure_bind, bind_assoc, pure_bind, List.flatten_cons,
            List.getLastD_cons]

/-- A tail of one block is chained. -/
theorem encryptTail_nil {previous block : Bytes} (length : block.length = previous.length) :
    encryptTail c previous block [] = List.flatten <$> chained c previous [block] := by
  rw [encryptTail, chained, Bytes.xorOver_eq_zipWith length.le]
  cases BlockCipher.process c (List.zipWith (· ^^^ ·) block previous) with
  | error e => rfl
  | ok e => exact congrArg Except.ok (List.append_nil e).symm

/-- **The tail** of a block and a rest is chained with zeros behind the rest; the second block is
written first, and of the first one as much as the rest is long. -/
theorem encryptTail_eq {previous block rest : Bytes} (hprevious : previous.length = size)
    (hblock : block.length = size) (nonempty : rest ≠ []) (short : rest.length ≤ size) :
    encryptTail c previous block rest =
      (fun out => out.reverse.flatten.take (size + rest.length)) <$>
        chained c previous [block, rest ++ Bytes.zeros (size - rest.length)] := by
  rw [encryptTail, chained, Bytes.xorOver_eq_zipWith (by rw [hblock, hprevious])]
  cases encrypted : BlockCipher.process c (List.zipWith (· ^^^ ·) block previous) with
  | error e => rfl
  | ok e =>
      have he : e.length = size := BlockCipher.length_chained_block hblock hprevious encrypted
      simp only [bind, Except.bind, if_neg nonempty, chained]
      rw [Bytes.xorOver_eq_zipWith_zeros (by rw [he]; exact short), he]
      cases encrypted' : BlockCipher.process c
          (List.zipWith (· ^^^ ·) (rest ++ Bytes.zeros (size - rest.length)) e) with
      | error e' => rfl
      | ok last =>
          have hlast : last.length = size := by
            refine BlockCipher.length_chained_block ?_ he encrypted'
            rw [List.length_append, Bytes.length_zeros, Nat.add_sub_cancel' short]
          show Except.ok (last ++ e.take rest.length) =
            .ok ((last ++ (e ++ [])).take (size + rest.length))
          rw [List.append_nil, ← hlast, List.take_length_add_append]

/-! ## Messages -/

/-- The message with zeros after it, up to whole blocks. -/
def padded (size : ℕ) (input : Bytes) : Bytes :=
  input ++ Bytes.zeros ((size - input.length % size) % size)

/-- The list with its last two elements exchanged. -/
def swapLastTwo {α : Type} (xs : List α) : List α :=
  xs.take (xs.length - 2) ++ (xs.drop (xs.length - 2)).reverse

theorem swapLastTwo_append {α : Type} (front : List α) {tail : List α} (two : tail.length = 2) :
    swapLastTwo (front ++ tail) = front ++ tail.reverse := by
  rw [swapLastTwo, List.length_append, two, Nat.add_sub_cancel, List.take_left, List.drop_left]

/-- Zeros for a rest of at most one block, which is not empty, behind whole blocks. -/
theorem padding_count {whole rest : ℕ} (hwhole : whole % size = 0) (positive : 0 < rest)
    (short : rest ≤ size) : (size - (whole + size + rest) % size) % size = size - rest := by
  have same : (whole + size + rest) % size = rest % size := by
    rw [Nat.add_assoc, Nat.add_mod, hwhole, Nat.zero_add, Nat.mod_mod, Nat.add_mod_left]
  rw [same]
  rcases short.lt_or_eq with less | rfl
  · rw [Nat.mod_eq_of_lt less, Nat.mod_eq_of_lt (by omega)]
  · rw [Nat.mod_self, Nat.sub_zero, Nat.mod_self, Nat.sub_self]

/-- **The cut** of a message of more than one block: the message with zeros consists of the blocks
before the tail, the block of the tail, and its rest with zeros. -/
theorem exists_cut {input : Bytes} (positive : size ≠ 0) (long : size < input.length) :
    ∃ (blocks : List Bytes) (block rest : Bytes), input = blocks.flatten ++ (block ++ rest) ∧
      (∀ b ∈ blocks, b.length = size) ∧ block.length = size ∧ rest ≠ [] ∧ rest.length ≤ size ∧
      input.length - tailLength size input.length = blocks.flatten.length ∧
      chunks size (padded size input) =
        blocks ++ [block, rest ++ Bytes.zeros (size - rest.length)] := by
  obtain ⟨whole, room, last⟩ := split_spec positive long.le
  set split := input.length - tailLength size input.length with hsplit
  have behind : split + size < input.length := by
    rw [hsplit, tailLength, if_neg long.ne']
    omega
  obtain ⟨head, tail, rfl, hhead, htail⟩ :=
    Bytes.exists_join (b := input) (m := split) (n := input.length - split) (by omega)
  obtain ⟨block, rest, rfl, hblock, hrest⟩ :=
    Bytes.exists_join (m := size) (n := (head ++ tail).length - split - size) (b := tail) (by omega)
  have hpositive : 0 < rest.length := by omega
  have full : ∀ b ∈ chunks size head, b.length = size :=
    fun _ => length_of_mem_chunks (by rw [hhead, whole])
  have length : (head ++ (block ++ rest)).length = split + size + rest.length := by
    rw [List.length_append, List.length_append, hhead, hblock, Nat.add_assoc]
  have tailFull : ∀ b ∈ [block, rest ++ Bytes.zeros (size - rest.length)], b.length = size := by
    simp only [List.mem_cons, List.not_mem_nil, or_false, forall_eq_or_imp, forall_eq]
    refine ⟨hblock, ?_⟩
    rw [List.length_append, Bytes.length_zeros]
    omega
  refine ⟨chunks size head, block, rest, ?_, full, hblock, List.length_pos_iff.mp hpositive,
    by omega, ?_, ?_⟩
  · rw [flatten_chunks positive]
  · rw [flatten_chunks positive, hhead]
  · rw [padded, length, padding_count whole hpositive (by omega), List.append_assoc,
      List.append_assoc, ← flatten_chunks positive head, chunks_flatten_append positive full,
      flatten_chunks positive]
    congr 1
    rw [← chunks_flatten positive tailFull]
    simp

/-- A message that is cut at its tail, encrypted. -/
theorem assemble_cut {iv : Bytes} {blocks : List Bytes} {block rest : Bytes} (positive : size ≠ 0)
    (full : ∀ b ∈ blocks, b.length = size) (hblock : block.length = size)
    (cut : (blocks.flatten ++ (block ++ rest)).length -
      tailLength size (blocks.flatten ++ (block ++ rest)).length = blocks.flatten.length) :
    assemble size (encryptChain c) (encryptTail c) iv (blocks.flatten ++ (block ++ rest)) = do
      let (out, chain) ← encryptChain c iv blocks
      return out ++ (← encryptTail c chain block rest) := by
  simp only [assemble, cut, List.take_left, List.drop_left, chunks_flatten positive full,
    List.take_left' hblock, List.drop_left' hblock]

/-- **A message of more than one block** is encrypted by chaining. -/
theorem process_of_long {iv input : Bytes} (positive : BlockCipher.blockSize C ≠ 0)
    (hiv : iv.length = BlockCipher.blockSize C) (long : BlockCipher.blockSize C < input.length) :
    (keyed c iv .encrypt).process input =
      (fun out => (swapLastTwo out).flatten.take input.length) <$>
        chained c iv (chunks (BlockCipher.blockSize C)
          (padded (BlockCipher.blockSize C) input)) := by
  obtain ⟨blocks, block, rest, rfl, full, hblock, nonempty, short, cut, pieces⟩ :=
    exists_cut positive long
  rw [process_encrypt long.le, assemble_cut positive full hblock cut, pieces,
    BlockCipher.chained_append, encryptChain_eq hiv full]
  cases before : chained c iv blocks with
  | error e => rfl
  | ok out =>
      obtain ⟨count, lengths, hchain⟩ := BlockCipher.chained_lengths hiv full before
      show (encryptTail c (out.getLastD iv) block rest >>= _) = _ <$> (chained c _ _ >>= _)
      rw [encryptTail_eq hchain hblock nonempty short]
      cases after : chained c (out.getLastD iv)
          [block, rest ++ Bytes.zeros (BlockCipher.blockSize C - rest.length)] with
      | error e => rfl
      | ok tail =>
          have two : tail.length = 2 :=
            (BlockCipher.chained_lengths hchain (by simp [hblock, short]) after).1
          have hout : out.flatten.length = blocks.flatten.length := by
            rw [length_flatten_of_full lengths, length_flatten_of_full full, count]
          show Except.ok (out.flatten ++ tail.reverse.flatten.take _) =
            .ok ((swapLastTwo (out ++ tail)).flatten.take _)
          rw [swapLastTwo_append out two, List.flatten_append, List.length_append, ← hout,
            List.take_length_add_append, List.length_append, hblock]

/-- A message of one block is encrypted by chaining. -/
theorem process_of_block {iv input : Bytes} (hiv : iv.length = BlockCipher.blockSize C)
    (one : input.length = BlockCipher.blockSize C) :
    (keyed c iv .encrypt).process input = List.flatten <$> chained c iv [input] := by
  rw [process_encrypt one.ge, assemble, tailLength, if_pos one, one, Nat.sub_self, List.take_zero,
    List.drop_zero, chunks_nil, List.take_of_length_le one.le, List.drop_of_length_le one.le]
  show (encryptTail c iv input [] >>= pure) = _
  rw [bind_pure, encryptTail_nil (one.trans hiv.symm)]

/-- **Encryption with stealing is ordinary block chaining** of the message with zeros up to whole
blocks, the last two ciphertext blocks exchanged and the result cut to the length of the message.
For a message of one block it is ordinary block chaining.  The key is taken if the cipher takes it
and the initial value, the default one or another one, has the length of a block. -/
theorem stealing_encrypts_as_chaining (positive : 1 ≤ BlockCipher.blockSize C) (s : Stealing C)
    {key : Bytes} {c : C} (taken : BlockCipher.init s.cipher .encrypt key = (.ok (), c))
    {iv : Option Bytes}
    (hiv : (iv.getD (Bytes.zeros (BlockCipher.blockSize C))).length = BlockCipher.blockSize C) :
    (s.init .encrypt key iv).1 = .ok () ∧ ∀ input : Bytes,
      (input.length = BlockCipher.blockSize C →
        (s.init .encrypt key iv).2.process input = List.flatten <$>
          chained c (iv.getD (Bytes.zeros (BlockCipher.blockSize C))) [input]) ∧
      (BlockCipher.blockSize C < input.length →
        (s.init .encrypt key iv).2.process input =
          (fun out => (swapLastTwo out).flatten.take input.length) <$>
            chained c (iv.getD (Bytes.zeros (BlockCipher.blockSize C)))
              (chunks (BlockCipher.blockSize C) (padded (BlockCipher.blockSize C) input))) := by
  have set := init_eq_ok_iff.mpr ⟨hiv, c, taken, rfl⟩
  rw [set]
  exact ⟨rfl, fun input =>
    ⟨process_of_block hiv, process_of_long (Nat.one_le_iff_ne_zero.mp positive) hiv⟩⟩

/-- Messages of two blocks and two bytes, of two blocks and of one block, under an initial value of
the caller's.  The two blocks are exchanged as well. -/
theorem stealing_encrypts_as_chaining_two_blocks :
    let s : Stealing (ToyCipher 3) := { cipher := {} }
    let c : ToyCipher 3 := { key := [0x01, 0x20] }
    let iv : Bytes := [0x10, 0x20, 0x30]
    let process (input : Bytes) := (s.init .encrypt [0x01, 0x20] (some iv)).2.process input
    1 ≤ BlockCipher.blockSize (ToyCipher 3) ∧
      BlockCipher.init s.cipher .encrypt [0x01, 0x20] = (.ok (), c) ∧
      iv.length = BlockCipher.blockSize (ToyCipher 3) ∧
      chained c iv [[1, 2, 3], [4, 5, 6], [7, 8, 0]] =
        .ok [[50, 2, 16], [23, 39, 55], [54, 15, 17]] ∧
      process [1, 2, 3, 4, 5, 6, 7, 8] = .ok [50, 2, 16, 54, 15, 17, 23, 39] ∧
      process [1, 2, 3, 4, 5, 6] = .ok [23, 39, 55, 50, 2, 16] ∧
      process [1, 2, 3] = .ok [50, 2, 16] := by
  intro s c iv process
  have taken : BlockCipher.init s.cipher .encrypt [0x01, 0x20] = (.ok (), c) := rfl
  have positive : 1 ≤ BlockCipher.blockSize (ToyCipher 3) := by decide
  have length : ((some iv).getD (Bytes.zeros 3)).length = 3 := rfl
  obtain ⟨-, encrypts⟩ := stealing_encrypts_as_chaining positive s taken length
  exact ⟨positive, taken, rfl, by cbv,
    ((encrypts [1, 2, 3, 4, 5, 6, 7, 8]).2 (by decide)).trans (by cbv),
    ((encrypts [1, 2, 3, 4, 5, 6]).2 (by decide)).trans (by cbv),
    ((encrypts [1, 2, 3]).1 rfl).trans (by cbv)⟩

end Stealing

end PublicKeyCrypto
