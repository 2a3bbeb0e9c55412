import PublicKeyCrypto.Proofs.Symmetric.Inverses
import PublicKeyCrypto.Symmetric.Stealing
import Mathlib

/-!
# Ciphertext stealing is a permutation of the messages of each length

A message is cut into whole blocks, which are chained, and a tail of one block and a rest.  The
place of the cut depends on the length of the message only, and neither direction changes the
length, so both directions cut at the same place.

* **The chain** (`chain_undone`, `chain_undone_back`).  Both directions thread the ciphertext blocks
  through the chain, which is the output of one of them and the input of the other, and so they
  leave the same chain to the tail.
* **The tail** (`tail_undone`, `tail_undone_back`).  The rest is laid over the beginning of a block
  whose beginning is then written out; what is not written out is found under the second block.

## Main Definitions

* `ChainUndone`, `TailUndone` — what one direction owes to the other on either part
* `assemble` — a message processed in its two parts

## Main Results

* `assemble_undone` — messages are undone if their parts are
* `stealing_permutes` — the directions undo each other on every message that is long enough
-/

namespace PublicKeyCrypto.Stealing

variable {C : Type} [BlockCipher C] {e d : C} {size : ℕ}

/-! ## The chain -/

/-- On whole blocks the first operation gives as many blocks and a chain, from which the second one
leads back to the blocks and to the same chain. -/
def ChainUndone (size : ℕ) (f g : Bytes → List Bytes → Except Error (Bytes × Bytes)) : Prop :=
  ∀ (chain : Bytes) (blocks : List Bytes), chain.length = size →
    (∀ block ∈ blocks, block.length = size) →
    ∃ out chain', chain'.length = size ∧ out.length = blocks.flatten.length ∧
      f chain blocks = .ok (out, chain') ∧
      g chain (chunks size out) = .ok (blocks.flatten, chain')

/-- Encryption of whole blocks is undone; the chain is the last block that was written. -/
theorem chain_undone (positive : size ≠ 0)
    (cipher : Inverses (·.length = size) (BlockCipher.process e) (BlockCipher.process d)) :
    ChainUndone size (encryptChain e) (decryptChain d) := by
  intro chain blocks hchain full
  induction blocks generalizing chain with
  | nil => exact ⟨[], chain, hchain, rfl, rfl, by rw [chunks_nil]; rfl⟩
  | cons block rest ih =>
      obtain ⟨hblock, hrest⟩ := List.forall_mem_cons.mp full
      obtain ⟨c, hc, encrypted, decrypted⟩ :=
        cipher.there (Bytes.xorOver block chain) ((Bytes.length_xorOver _ _).trans hblock)
      obtain ⟨out, chain', hchain', hout, chained, unchained⟩ := ih c hc hrest
      refine ⟨c ++ out, chain', hchain', ?_, ?_, ?_⟩
      · rw [List.length_append, List.flatten_cons, List.length_append, hc, hblock, hout]
      · simp only [encryptChain, encrypted, chained, bind, Except.bind, pure, Except.pure]
      · rw [chunks_append_of_length positive hc]
        simp only [decryptChain, decrypted, unchained, bind, Except.bind, pure, Except.pure,
          Bytes.xorOver_xorOver, List.flatten_cons]

/-- Decryption of whole blocks is undone; the chain is the last block that was read. -/
theorem chain_undone_back (positive : size ≠ 0)
    (cipher : Inverses (·.length = size) (BlockCipher.process e) (BlockCipher.process d)) :
    ChainUndone size (decryptChain d) (encryptChain e) := by
  intro chain blocks hchain full
  induction blocks generalizing chain with
  | nil => exact ⟨[], chain, hchain, rfl, rfl, by rw [chunks_nil]; rfl⟩
  | cons block rest ih =>
      obtain ⟨hblock, hrest⟩ := List.forall_mem_cons.mp full
      obtain ⟨p, hp, decrypted, encrypted⟩ := cipher.back block hblock
      obtain ⟨out, chain', hchain', hout, unchained, chained⟩ := ih block hblock hrest
      have hp' : (Bytes.xorOver p chain).length = size := (Bytes.length_xorOver _ _).trans hp
      refine ⟨Bytes.xorOver p chain ++ out, chain', hchain', ?_, ?_, ?_⟩
      · rw [List.length_append, List.flatten_cons, List.length_append, hp', hblock, hout]
      · simp only [decryptChain, decrypted, unchained, bind, Except.bind, pure, Except.pure]
      · rw [chunks_append_of_length positive hp']
        simp only [encryptChain, Bytes.xorOver_xorOver, encrypted, chained, bind, Except.bind, pure,
          Except.pure, List.flatten_cons]

/-! ## The tail -/

/-- On a block and a rest that is not longer, the first operation gives a block and a rest of the
same lengths, from which the second one leads back. -/
def TailUndone (size : ℕ) (f g : Bytes → Bytes → Bytes → Except Error Bytes) : Prop :=
  ∀ chain block rest : Bytes, chain.length = size → block.length = size → rest.length ≤ size →
    ∃ block' rest' : Bytes, block'.length = size ∧ rest'.length = rest.length ∧
      f chain block rest = .ok (block' ++ rest') ∧ g chain block' rest' = .ok (block ++ rest)

/-- The encrypted block is cut where the rest ends; its beginning is written out, and its end is
found again in what the decryption of the other block leaves uncovered. -/
theorem tail_undone
    (cipher : Inverses (·.length = size) (BlockCipher.process e) (BlockCipher.process d)) :
    TailUndone size (encryptTail e) (decryptTail d) := by
  intro chain block rest hchain hblock hrest
  obtain ⟨c, hc, encrypted, decrypted⟩ :=
    cipher.there (Bytes.xorOver block chain) ((Bytes.length_xorOver _ _).trans hblock)
  by_cases single : rest = []
  · subst single
    refine ⟨c, [], hc, rfl, ?_, ?_⟩
    · simp only [encryptTail, encrypted, bind, Except.bind, pure, Except.pure, if_true,
        List.append_nil]
    · simp only [decryptTail, decrypted, bind, Except.bind, pure, Except.pure, if_true,
        Bytes.xorOver_xorOver, List.append_nil]
  · obtain ⟨last, hlast, encrypted', decrypted'⟩ :=
      cipher.there (Bytes.xorOver c rest) ((Bytes.length_xorOver _ _).trans hc)
    have hstolen : (c.take rest.length).length = rest.length := List.length_take_of_le (by omega)
    have written : c.take rest.length ≠ [] := by
      rw [← List.length_pos_iff, hstolen]
      exact List.length_pos_iff.mpr single
    have covered : Bytes.xorOver c rest =
        Bytes.xorOver (c.take rest.length) rest ++ c.drop rest.length := by
      conv_lhs => rw [← List.take_append_drop rest.length c]
      exact Bytes.xorOver_append _ _ _ hstolen.ge
    have hcovered : (Bytes.xorOver (c.take rest.length) rest).length = rest.length :=
      (Bytes.length_xorOver _ _).trans hstolen
    refine ⟨last, c.take rest.length, hlast, hstolen, ?_, ?_⟩
    · simp only [encryptTail, encrypted, encrypted', bind, Except.bind, pure, Except.pure,
        if_neg single]
    · simp only [decryptTail, decrypted', bind, Except.bind, pure, Except.pure, if_neg written,
        hstolen, covered, List.drop_left' hcovered, List.take_left' hcovered,
        List.take_append_drop, decrypted, Bytes.xorOver_xorOver]
      rw [Bytes.xorOver_comm hstolen, Bytes.xorOver_xorOver]

/-- The rest and the end of the decrypted block are the block that was stolen from; encrypting finds
it again, and with it the beginning of the decrypted block. -/
theorem tail_undone_back
    (cipher : Inverses (·.length = size) (BlockCipher.process e) (BlockCipher.process d)) :
    TailUndone size (decryptTail d) (encryptTail e) := by
  intro chain block rest hchain hblock hrest
  obtain ⟨p, hp, decrypted, encrypted⟩ := cipher.back block hblock
  by_cases single : rest = []
  · subst single
    refine ⟨Bytes.xorOver p chain, [], (Bytes.length_xorOver _ _).trans hp, rfl, ?_, ?_⟩
    · simp only [decryptTail, decrypted, bind, Except.bind, pure, Except.pure, if_true,
        List.append_nil]
    · simp only [encryptTail, Bytes.xorOver_xorOver, encrypted, bind, Except.bind, pure,
        Except.pure, if_true, List.append_nil]
  · have hcovered : (p.take rest.length).length = rest.length := List.length_take_of_le (by omega)
    have hfull : (rest ++ p.drop rest.length).length = size := by
      rw [List.length_append, List.length_drop]
      omega
    obtain ⟨q, hq, decrypted', encrypted'⟩ := cipher.back (rest ++ p.drop rest.length) hfull
    have hlast : (Bytes.xorOver (p.take rest.length) rest).length = rest.length :=
      (Bytes.length_xorOver _ _).trans hcovered
    have written : Bytes.xorOver (p.take rest.length) rest ≠ [] := by
      rw [← List.length_pos_iff, hlast]
      exact List.length_pos_iff.mpr single
    refine ⟨Bytes.xorOver q chain, Bytes.xorOver (p.take rest.length) rest,
      (Bytes.length_xorOver _ _).trans hq, hlast, ?_, ?_⟩
    · simp only [decryptTail, decrypted, decrypted', bind, Except.bind, pure, Except.pure,
        if_neg single]
    · simp only [encryptTail, Bytes.xorOver_xorOver, encrypted', bind, Except.bind, pure,
        Except.pure, if_neg written]
      rw [Bytes.xorOver_append _ _ _ hlast.le, Bytes.xorOver_xorOver_self hcovered.symm,
        List.take_append_drop, encrypted, hlast, List.take_left]

/-! ## Messages -/

/-- A message cut into whole blocks and a tail, and processed by an operation for either part. -/
def assemble (size : ℕ) (chainOp : Bytes → List Bytes → Except Error (Bytes × Bytes))
    (tailOp : Bytes → Bytes → Bytes → Except Error Bytes) (iv input : Bytes) :
    Except Error Bytes := do
  let split := input.length - tailLength size input.length
  let (out, chain) ← chainOp iv (chunks size (input.take split))
  return out ++ (← tailOp chain ((input.drop split).take size) ((input.drop split).drop size))

/-- The cut: whole blocks before it, and behind it one block and at most one more. -/
theorem split_spec {len : ℕ} (positive : size ≠ 0) (long : size ≤ len) :
    (len - tailLength size len) % size = 0 ∧ len - tailLength size len + size ≤ len ∧
      len - (len - tailLength size len) - size ≤ size := by
  unfold tailLength
  split
  · next one =>
    subst one
    simp
  · -- Beyond one block, the blocks before the tail are one less than those before the last byte.
    next more =>
    have below : (len - 1) % size < size := Nat.mod_lt _ (Nat.pos_of_ne_zero positive)
    have parts : size * ((len - 1) / size) + (len - 1) % size = len - 1 := Nat.div_add_mod _ _
    have blocks : 1 ≤ (len - 1) / size := by
      rw [Nat.le_div_iff_mul_le (Nat.pos_of_ne_zero positive)]
      omega
    have before : len - (size + (len - 1) % size + 1) = size * ((len - 1) / size - 1) := by
      rw [Nat.mul_sub, Nat.mul_one]
      omega
    have inside : size ≤ size * ((len - 1) / size) := Nat.le_mul_of_pos_right _ blocks
    rw [before]
    refine ⟨Nat.mul_mod_right _ _, ?_, ?_⟩
    · rw [Nat.mul_sub, Nat.mul_one]
      omega
    · rw [Nat.mul_sub, Nat.mul_one]
      omega

/-- A message is undone if its parts are: what comes out is cut at the same place. -/
theorem assemble_undone {f g : Bytes → List Bytes → Except Error (Bytes × Bytes)}
    {tailF tailG : Bytes → Bytes → Bytes → Except Error Bytes} (positive : size ≠ 0)
    (hchain : ChainUndone size f g) (htail : TailUndone size tailF tailG) {iv : Bytes}
    (hiv : iv.length = size) {input : Bytes} (long : size ≤ input.length) :
    ∃ output, output.length = input.length ∧ assemble size f tailF iv input = .ok output ∧
      assemble size g tailG iv output = .ok input := by
  obtain ⟨whole, room, last⟩ := split_spec positive long
  set split := input.length - tailLength size input.length with hsplit
  have hhead : (input.take split).length = split := List.length_take_of_le (by omega)
  have full : ∀ block ∈ chunks size (input.take split), block.length = size :=
    fun _ => length_of_mem_chunks (by rw [hhead, whole])
  obtain ⟨out, chain, chained, hout, there, back⟩ := hchain iv _ hiv full
  rw [flatten_chunks positive] at hout back
  set block := (input.drop split).take size with hblock
  set rest := (input.drop split).drop size with hrest
  have blockLength : block.length = size := by
    rw [hblock, List.length_take, List.length_drop]
    omega
  have restLength : rest.length = input.length - split - size := by
    rw [hrest, List.length_drop, List.length_drop]
  obtain ⟨block', rest', hblock', hrest', thereTail, backTail⟩ :=
    htail chain block rest chained blockLength (by omega)
  have total : (out ++ (block' ++ rest')).length = input.length := by
    rw [List.length_append, List.length_append, hout, hhead, hblock', hrest', restLength]
    omega
  refine ⟨out ++ (block' ++ rest'), total, ?_, ?_⟩
  · simp only [assemble, ← hsplit, ← hblock, ← hrest, there, thereTail, bind, Except.bind, pure,
      Except.pure]
  · have hout' : out.length = split := hout.trans hhead
    simp only [assemble, total, ← hsplit, List.take_left' hout', List.drop_left' hout',
      List.take_left' hblock', List.drop_left' hblock', back, backTail, bind, Except.bind, pure,
      Except.pure]
    rw [hblock, hrest, List.take_append_drop, List.take_append_drop]

/-! ## The mode -/

/-- The mode with a key, in a direction. -/
def keyed (cipher : C) (iv : Bytes) (direction : Direction) : Stealing C :=
  { cipher, iv, direction, initialised := true }

/-- A key is taken exactly if the cipher takes it, and the initial value is one block long. -/
theorem init_eq_ok_iff {s s' : Stealing C} {direction : Direction} {key : Bytes}
    {iv : Option Bytes} :
    s.init direction key iv = (.ok (), s') ↔
      (iv.getD (Bytes.zeros (BlockCipher.blockSize C))).length = BlockCipher.blockSize C ∧
        ∃ cipher, BlockCipher.init s.cipher direction key = (.ok (), cipher) ∧
          s' = keyed cipher (iv.getD (Bytes.zeros (BlockCipher.blockSize C))) direction := by
  unfold init
  dsimp only
  by_cases length : (iv.getD (Bytes.zeros (BlockCipher.blockSize C))).length =
      BlockCipher.blockSize C
  · rw [if_neg (not_not.mpr length)]
    rcases taken : BlockCipher.init s.cipher direction key with ⟨_ | ⟨⟩, cipher⟩
    · simp
    · simp [length, keyed, eq_comm]
  · simp [length]

theorem process_encrypt {iv input : Bytes} (long : BlockCipher.blockSize C ≤ input.length) :
    (keyed e iv .encrypt).process input =
      assemble (BlockCipher.blockSize C) (encryptChain e) (encryptTail e) iv input := by
  unfold process
  dsimp only
  rw [if_neg (by simp [keyed]), if_neg (not_lt.mpr long)]
  rfl

theorem process_decrypt {iv input : Bytes} (long : BlockCipher.blockSize C ≤ input.length) :
    (keyed d iv .decrypt).process input =
      assemble (BlockCipher.blockSize C) (decryptChain d) (decryptTail d) iv input := by
  unfold process
  dsimp only
  rw [if_neg (by simp [keyed]), if_neg (not_lt.mpr long)]
  rfl

/-- **The directions undo each other.**  Under a key for which the directions of the cipher are
mutually inverse permutations of its blocks, and with one initial value on both sides, the default
one or another one: every message of at least one block is encrypted to a message of its length,
which is decrypted to it, and is decrypted to a message of its length, which is encrypted to it. -/
theorem stealing_permutes {key : Bytes} (laws : BlockCipher.Permutes C key)
    (positive : 1 ≤ BlockCipher.blockSize C) {iv : Option Bytes}
    {s t encrypting decrypting : Stealing C} (hs : s.init .encrypt key iv = (.ok (), encrypting))
    (ht : t.init .decrypt key iv = (.ok (), decrypting)) (input : Bytes)
    (long : BlockCipher.blockSize C ≤ input.length) :
    (∃ output, output.length = input.length ∧ encrypting.process input = .ok output ∧
        decrypting.process output = .ok input) ∧
      ∃ output, output.length = input.length ∧ decrypting.process input = .ok output ∧
        encrypting.process output = .ok input := by
  obtain ⟨length, e, he, rfl⟩ := init_eq_ok_iff.mp hs
  obtain ⟨-, d, hd, rfl⟩ := init_eq_ok_iff.mp ht
  have nonzero : BlockCipher.blockSize C ≠ 0 := Nat.one_le_iff_ne_zero.mp positive
  have cipher := laws _ _ _ _ he hd
  constructor
  · obtain ⟨output, same, there, back⟩ := assemble_undone nonzero (chain_undone nonzero cipher)
      (tail_undone cipher) length long
    refine ⟨output, same, ?_, ?_⟩
    · rw [process_encrypt long, there]
    · rw [process_decrypt (same ▸ long), back]
  · obtain ⟨output, same, there, back⟩ := assemble_undone nonzero
      (chain_undone_back nonzero cipher) (tail_undone_back cipher) length long
    refine ⟨output, same, ?_, ?_⟩
    · rw [process_decrypt long, there]
    · rw [process_encrypt (same ▸ long), back]

/-- Two whole blocks and two bytes, with an initial value of the caller's: one block is chained, and
the tail is shorter than two blocks. -/
theorem stealing_permutes_short_rest :
    let s : Stealing (ToyCipher 3) := { cipher := {} }
    let key : Bytes := [0x01, 0x20]
    let iv : Option Bytes := some [0x10, 0x20, 0x30]
    let input : Bytes := [1, 2, 3, 4, 5, 6, 7, 8]
    let output : Bytes := [50, 2, 16, 54, 15, 17, 23, 39]
    BlockCipher.Permutes (ToyCipher 3) key ∧ 1 ≤ BlockCipher.blockSize (ToyCipher 3) ∧
      (s.init .encrypt key iv).1 = .ok () ∧ (s.init .decrypt key iv).1 = .ok () ∧
      BlockCipher.blockSize (ToyCipher 3) ≤ input.length ∧
      (s.init .encrypt key iv).2.process input = .ok output ∧
      (s.init .decrypt key iv).2.process output = .ok input := by
  intro s key iv input output
  have laws : BlockCipher.Permutes (ToyCipher 3) key := ToyCipher.permutes key
  have done : (s.init .encrypt key iv).2.process input = .ok output := by cbv
  have set : s.init .encrypt key iv = (.ok (), (s.init .encrypt key iv).2) := rfl
  have set' : s.init .decrypt key iv = (.ok (), (s.init .decrypt key iv).2) := rfl
  refine ⟨laws, by decide, rfl, rfl, by decide, done, ?_⟩
  obtain ⟨⟨output', -, done', undone⟩, -⟩ :=
    stealing_permutes laws (by decide) set set' input (by decide)
  have same : output' = output := Except.ok.inj (done'.symm.trans done)
  exact same ▸ undone

end PublicKeyCrypto.Stealing
