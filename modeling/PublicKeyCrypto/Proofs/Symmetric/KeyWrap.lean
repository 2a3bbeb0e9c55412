import PublicKeyCrypto.Proofs.Mask
import PublicKeyCrypto.Proofs.Symmetric.Inverses
import PublicKeyCrypto.Symmetric.KeyWrap
import Mathlib

/-!
# Unwrapping accepts exactly what wrapping gives

Wrapping is six passes over the blocks, and a pass is one step for each block, so wrapping and
unwrapping are related in three layers, each of which carries the relation up from the layer below.

* **A step** (`step_inverses`).  The step number is taken off again before the block goes back
  through the cipher.
* **A pass** (`pass_inverses`).  By induction on the blocks; the pass back does the first block
  last, with the register that the rest has left.
* **The passes** (`passes_inverses`).  By induction on their number; the numbers of the steps
  continue from pass to pass, and so the pass back has to know how many blocks there are.

The lengths are checked on both sides, and they match: a wrapped key is one block longer.

## Main Results

* `wrap_eq_ok_iff`, `unwrap_eq_ok_iff` — the answers, as runs of the passes
* `unwrap_iff_wrap` — unwrapping gives what wrapping was given, and nothing else
-/

namespace PublicKeyCrypto.KeyWrap

variable {C : Type} [BlockCipher C] {e d : C}

/-! ## Steps -/

/-- A register and a block, of eight bytes each. -/
def IsPair (s : Bytes × Bytes) : Prop := s.1.length = 8 ∧ s.2.length = 8

/-- Both halves of a cipher block are eight bytes long. -/
theorem isPair_halves {out : Bytes} (length : out.length = 16) :
    IsPair (out.take 8, out.drop 8) := by
  constructor
  · rw [List.length_take]
    omega
  · rw [List.length_drop]
    omega

/-- A step is undone: the step number is laid over the register twice. -/
theorem step_inverses (cipher : Inverses (·.length = 16) (BlockCipher.process e)
    (BlockCipher.process d)) (number : ℕ) :
    Inverses IsPair (fun s => wrapStep e number s.1 s.2)
      (fun s => unwrapStep d number s.1 s.2) where
  there := by
    rintro ⟨register, block⟩ ⟨hregister, hblock⟩
    dsimp only at hregister hblock
    obtain ⟨out, length, encrypted, decrypted⟩ :=
      cipher.there (register ++ block) (by rw [List.length_append, hregister, hblock])
    refine ⟨(Bytes.xorOver (out.take 8) (Bytes.ofWord64 number.toUInt64), out.drop 8), ?_, ?_, ?_⟩
    · obtain ⟨first, second⟩ := isPair_halves length
      exact ⟨(Bytes.length_xorOver _ _).trans first, second⟩
    · simp only [wrapStep, encrypted, bind, Except.bind, pure, Except.pure]
    · simp only [unwrapStep, Bytes.xorOver_xorOver, List.take_append_drop, decrypted, bind,
        Except.bind, pure, Except.pure]
      rw [List.take_left' hregister, List.drop_left' hregister]
  back := by
    rintro ⟨register, block⟩ ⟨hregister, hblock⟩
    dsimp only at hregister hblock
    set numbered := Bytes.xorOver register (Bytes.ofWord64 number.toUInt64) with hnumbered
    have hlength : numbered.length = 8 := (Bytes.length_xorOver _ _).trans hregister
    obtain ⟨out, length, decrypted, encrypted⟩ :=
      cipher.back (numbered ++ block) (by rw [List.length_append, hlength, hblock])
    refine ⟨(out.take 8, out.drop 8), isPair_halves length, ?_, ?_⟩
    · simp only [unwrapStep, ← hnumbered, decrypted, bind, Except.bind, pure, Except.pure]
    · simp only [wrapStep, List.take_append_drop, encrypted, bind, Except.bind, pure, Except.pure]
      rw [List.take_left' hlength, List.drop_left' hlength, hnumbered, Bytes.xorOver_xorOver]

/-! ## Passes -/

/-- A register and a given number of blocks, of eight bytes each. -/
def IsState (count : ℕ) (s : Bytes × List Bytes) : Prop :=
  s.1.length = 8 ∧ s.2.length = count ∧ ∀ block ∈ s.2, block.length = 8

/-- A register and a first block in front of others. -/
theorem isState_cons {count : ℕ} {register block : Bytes} {rest : List Bytes} :
    IsState (count + 1) (register, block :: rest) ↔
      block.length = 8 ∧ IsState count (register, rest) := by
  simp only [IsState, List.length_cons, Nat.add_right_cancel_iff, List.forall_mem_cons]
  tauto

/-- A pass is undone.  The induction is on the number of blocks: the first block is stepped over
first on the way there and last on the way back. -/
theorem pass_inverses (cipher : Inverses (·.length = 16) (BlockCipher.process e)
    (BlockCipher.process d)) (count number : ℕ) :
    Inverses (IsState count) (fun s => wrapPass e number s.1 s.2)
      (fun s => unwrapPass d number s.1 s.2) := by
  induction count generalizing number with
  | zero =>
      -- Without blocks a pass does nothing.
      have nothing : ∀ s : Bytes × List Bytes, IsState 0 s →
          wrapPass e number s.1 s.2 = .ok s ∧ unwrapPass d number s.1 s.2 = .ok s := by
        rintro ⟨register, blocks⟩ ⟨-, none, -⟩
        obtain rfl : blocks = [] := List.length_eq_zero_iff.mp none
        exact ⟨rfl, rfl⟩
      exact ⟨fun s hs => ⟨s, hs, nothing s hs⟩, fun s hs => ⟨s, hs, (nothing s hs).symm⟩⟩
  | succ count ih =>
      have step := step_inverses cipher number
      constructor
      · rintro ⟨register, _ | ⟨block, rest⟩⟩ hs
        · exact absurd hs.2.1 (Nat.succ_ne_zero count).symm
        obtain ⟨hblock, hrest⟩ := isState_cons.mp hs
        obtain ⟨⟨register', block'⟩, ⟨hregister', hblock'⟩, stepped, unstepped⟩ :=
          step.there (register, block) ⟨hrest.1, hblock⟩
        obtain ⟨⟨register'', rest'⟩, hrest', passed, unpassed⟩ :=
          ih (number + 1) |>.there (register', rest) ⟨hregister', hrest.2⟩
        dsimp only at stepped unstepped passed unpassed
        refine ⟨(register'', block' :: rest'), isState_cons.mpr ⟨hblock', hrest'⟩, ?_, ?_⟩
        · simp only [wrapPass, stepped, passed, bind, Except.bind, pure, Except.pure]
        · simp only [unwrapPass, unstepped, unpassed, bind, Except.bind, pure, Except.pure]
      · rintro ⟨register, _ | ⟨block, rest⟩⟩ hs
        · exact absurd hs.2.1 (Nat.succ_ne_zero count).symm
        obtain ⟨hblock, hrest⟩ := isState_cons.mp hs
        obtain ⟨⟨register', rest'⟩, hrest', unpassed, passed⟩ :=
          ih (number + 1) |>.back (register, rest) hrest
        obtain ⟨⟨register'', block'⟩, ⟨hregister'', hblock'⟩, unstepped, stepped⟩ :=
          step.back (register', block) ⟨hrest'.1, hblock⟩
        dsimp only at stepped unstepped passed unpassed
        refine ⟨(register'', block' :: rest'),
          isState_cons.mpr ⟨hblock', hregister'', hrest'.2⟩, ?_, ?_⟩
        · simp only [unwrapPass, unpassed, unstepped, bind, Except.bind, pure, Except.pure]
        · simp only [wrapPass, stepped, passed, bind, Except.bind, pure, Except.pure]

/-- Any number of passes is undone, the last pass first. -/
theorem passes_inverses (cipher : Inverses (·.length = 16) (BlockCipher.process e)
    (BlockCipher.process d)) (count passes number : ℕ) :
    Inverses (IsState count) (fun s => wrapPasses e passes number s.1 s.2)
      (fun s => unwrapPasses d passes number s.1 s.2) := by
  induction passes generalizing number with
  | zero => exact Inverses.ok
  | succ passes ih =>
      have both := (pass_inverses cipher count number).comp (ih (number + count))
      -- The number of blocks that either side counts on is the number that the state has.
      constructor
      · intro s hs
        obtain ⟨t, ht, wrapped, unwrapped⟩ := both.there s hs
        refine ⟨t, ht, ?_, ?_⟩
        · simp only [wrapPasses, hs.2.1]
          exact wrapped
        · simp only [unwrapPasses, ht.2.1]
          exact unwrapped
      · intro t ht
        obtain ⟨s, hs, unwrapped, wrapped⟩ := both.back t ht
        refine ⟨s, hs, ?_, ?_⟩
        · simp only [unwrapPasses, ht.2.1]
          exact unwrapped
        · simp only [wrapPasses, hs.2.1]
          exact wrapped

/-! ## Texts -/

/-- The register of a text and its blocks, if the text is whole blocks and not empty. -/
theorem isState_cut {register data : Bytes} (hregister : register.length = 8)
    (whole : data.length % 8 = 0) :
    IsState (chunks 8 data).length (register, chunks 8 data) :=
  ⟨hregister, rfl, fun _ => length_of_mem_chunks whole⟩

/-- The text of a state has whole blocks, and is cut into the state again. -/
theorem IsState.cut_join {count : ℕ} {register : Bytes} {blocks : List Bytes}
    (h : IsState count (register, blocks)) :
    blocks.flatten.length = 8 * count ∧ chunks 8 blocks.flatten = blocks ∧
      (register ++ blocks.flatten).take 8 = register ∧
      (register ++ blocks.flatten).drop 8 = blocks.flatten := by
  obtain ⟨hregister, hcount, full⟩ := h
  dsimp only at hregister hcount full
  refine ⟨?_, chunks_flatten (by decide) full, List.take_left' hregister,
    List.drop_left' hregister⟩
  rw [length_flatten_of_full full, hcount]

/-- Key wrap with a key, in a direction. -/
def keyed (cipher : C) (iv : Bytes) (direction : Direction) : KeyWrap C :=
  { cipher, iv, direction, initialised := true }

/-- A key is taken exactly if the cipher fits and takes it, and the initial value has eight
bytes. -/
theorem init_eq_ok_iff {w w' : KeyWrap C} {direction : Direction} {key : Bytes}
    {iv : Option Bytes} :
    w.init direction key iv = (.ok (), w') ↔
      BlockCipher.blockSize C = 16 ∧ (iv.getD defaultIv).length = 8 ∧
        ∃ cipher, BlockCipher.init w.cipher direction key = (.ok (), cipher) ∧
          w' = keyed cipher (iv.getD defaultIv) direction := by
  unfold init
  by_cases size : BlockCipher.blockSize C = 16
  · rw [if_neg (not_not.mpr size)]
    dsimp only
    by_cases length : (iv.getD defaultIv).length = 8
    · rw [if_neg (not_not.mpr length)]
      rcases taken : BlockCipher.init w.cipher direction key with ⟨_ | ⟨⟩, cipher⟩
      · simp
      · simp [size, length, keyed, eq_comm]
    · simp [length]
  · simp [size]

section Answers

variable (cipher : C) (iv : Bytes)

/-- What wrapping answers: lengths first, then the passes. -/
theorem wrap_eq_ok_iff {text wrapped : Bytes} :
    (keyed cipher iv .encrypt).wrap text = .ok wrapped ↔
      16 ≤ text.length ∧ text.length % 8 = 0 ∧
        ∃ register blocks, wrapPasses cipher 6 1 iv (chunks 8 text) = .ok (register, blocks) ∧
          wrapped = register ++ blocks.flatten := by
  unfold wrap
  rw [if_neg (by simp [keyed])]
  by_cases short : text.length < 16
  · rw [if_pos short]
    constructor
    · rintro ⟨⟩
    · rintro ⟨long, -⟩
      omega
  rw [if_neg short]
  by_cases whole : text.length % 8 = 0
  · rw [if_neg (not_not.mpr whole)]
    cases passed : wrapPasses cipher 6 1 iv (chunks 8 text) with
    | error refusal => simp [keyed, passed, bind, Except.bind]
    | ok reached =>
        obtain ⟨register, blocks⟩ := reached
        simp [keyed, passed, bind, Except.bind, pure, Except.pure, whole, not_lt.mp short, eq_comm]
  · simp [whole]

/-- What unwrapping answers: lengths first, then the passes, and the comparison of the register
with the initial value. -/
theorem unwrap_eq {wrapped register : Bytes} {blocks : List Bytes} (long : 24 ≤ wrapped.length)
    (whole : wrapped.length % 8 = 0)
    (passed : unwrapPasses cipher 6 1 (wrapped.take 8) (chunks 8 (wrapped.drop 8)) =
      .ok (register, blocks)) :
    (keyed cipher iv .decrypt).unwrap wrapped =
      if register = iv then .ok blocks.flatten else .error .invalidCipherText := by
  unfold unwrap
  rw [if_neg (by simp [keyed]), if_neg (by simp [whole, long])]
  simp only [keyed, passed, bind, Except.bind, pure, Except.pure, Mask.sameBytes_eq,
    Mask.ofBool_eq_no, decide_eq_false_iff_not, ite_not]

/-- A text of a wrong length is refused. -/
theorem unwrap_of_length {wrapped : Bytes} (wrong : wrapped.length < 24 ∨ wrapped.length % 8 ≠ 0) :
    (keyed cipher iv .decrypt).unwrap wrapped = .error .invalidCipherText := by
  unfold unwrap
  rw [if_neg (by simp [keyed]), if_pos (by simpa using wrong)]

end Answers

/-! ## Round trips -/

section RoundTrips

variable {iv : Bytes}
variable (cipher : Inverses (·.length = 16) (BlockCipher.process e) (BlockCipher.process d))
variable (length : iv.length = 8)

include cipher length

/-- A text of whole blocks is wrapped, and the passes back lead to the initial value. -/
theorem unwrap_wrap {text : Bytes} (long : 16 ≤ text.length) (whole : text.length % 8 = 0) :
    ∃ wrapped, wrapped.length = text.length + 8 ∧
      (keyed e iv .encrypt).wrap text = .ok wrapped ∧
      (keyed d iv .decrypt).unwrap wrapped = .ok text := by
  obtain ⟨⟨register, blocks⟩, reached, passed, unpassed⟩ :=
    (passes_inverses cipher _ 6 1).there (iv, chunks 8 text) (isState_cut length whole)
  dsimp only at passed unpassed
  obtain ⟨total, cut, first, others⟩ := reached.cut_join
  have size : text.length = 8 * (chunks 8 text).length := by
    have full := length_flatten_of_full fun _ => length_of_mem_chunks whole
    rwa [flatten_chunks (by decide)] at full
  have joined : (register ++ blocks.flatten).length = text.length + 8 := by
    rw [List.length_append, reached.1, total, ← size, Nat.add_comm]
  refine ⟨register ++ blocks.flatten, joined, ?_, ?_⟩
  · exact (wrap_eq_ok_iff e iv).mpr ⟨long, whole, register, blocks, passed, rfl⟩
  · rw [← cut] at unpassed
    rw [unwrap_eq d iv (by omega) (by omega) (by rw [first, others]; exact unpassed), if_pos rfl,
      flatten_chunks (by decide)]

/-- What is accepted was wrapped; everything else is refused with one error. -/
theorem unwrap_cases (wrapped : Bytes) :
    (∃ text, (keyed d iv .decrypt).unwrap wrapped = .ok text ∧
        (keyed e iv .encrypt).wrap text = .ok wrapped) ∨
      (keyed d iv .decrypt).unwrap wrapped = .error .invalidCipherText := by
  by_cases good : 24 ≤ wrapped.length ∧ wrapped.length % 8 = 0
  case neg => exact .inr (unwrap_of_length d iv (by omega))
  obtain ⟨long, whole⟩ := good
  have whole' : (wrapped.drop 8).length % 8 = 0 := by
    rw [List.length_drop]
    omega
  have hregister : (wrapped.take 8).length = 8 := List.length_take_of_le (by omega)
  obtain ⟨⟨register, blocks⟩, reached, unpassed, passed⟩ :=
    (passes_inverses cipher _ 6 1).back (wrapped.take 8, chunks 8 (wrapped.drop 8))
      (isState_cut hregister whole')
  dsimp only at passed unpassed
  rw [unwrap_eq d iv long whole unpassed]
  by_cases same : register = iv
  case neg => exact .inr (if_neg same)
  subst same
  obtain ⟨total, cut, -, -⟩ := reached.cut_join
  have size : wrapped.length = 8 * (chunks 8 (wrapped.drop 8)).length + 8 := by
    have rest := length_flatten_of_full fun _ => length_of_mem_chunks whole'
    rw [flatten_chunks (by decide), List.length_drop] at rest
    omega
  refine .inl ⟨blocks.flatten, if_pos rfl, (wrap_eq_ok_iff e register).mpr ⟨by omega, by omega, ?_⟩⟩
  refine ⟨wrapped.take 8, chunks 8 (wrapped.drop 8), by rw [cut]; exact passed, ?_⟩
  rw [flatten_chunks (by decide), List.take_append_drop]

end RoundTrips

/-- **Unwrapping accepts exactly what wrapping gives.**  Under a key for which the directions of the
cipher are mutually inverse permutations of its blocks, and with one initial value on both sides,
the default one or another one: unwrapping gives a text exactly when wrapping that text gives what
was unwrapped.  Every text of at least two whole blocks is wrapped and comes back, and whatever is
not the wrapping of a text, of any length, is refused with the one error. -/
theorem unwrap_iff_wrap {key : Bytes} (laws : BlockCipher.Permutes C key) {iv : Option Bytes}
    {w u wrapping unwrapping : KeyWrap C} (hw : w.init .encrypt key iv = (.ok (), wrapping))
    (hu : u.init .decrypt key iv = (.ok (), unwrapping)) :
    (∀ wrapped text, unwrapping.unwrap wrapped = .ok text ↔ wrapping.wrap text = .ok wrapped) ∧
      (∀ text, 16 ≤ text.length → text.length % 8 = 0 →
        ∃ wrapped, wrapped.length = text.length + 8 ∧ wrapping.wrap text = .ok wrapped ∧
          unwrapping.unwrap wrapped = .ok text) ∧
      (∀ wrapped, (∀ text, wrapping.wrap text ≠ .ok wrapped) →
        unwrapping.unwrap wrapped = .error .invalidCipherText) := by
  obtain ⟨size, length, encrypting, hencrypting, rfl⟩ := init_eq_ok_iff.mp hw
  obtain ⟨-, -, decrypting, hdecrypting, rfl⟩ := init_eq_ok_iff.mp hu
  have cipher : Inverses (·.length = 16) (BlockCipher.process encrypting)
      (BlockCipher.process decrypting) := by
    have blocks : BlockCipher.IsBlock C = (·.length = 16) := by
      funext b
      rw [BlockCipher.IsBlock, size]
    exact blocks ▸ laws _ _ _ _ hencrypting hdecrypting
  refine ⟨fun wrapped text => ⟨fun unwrapped => ?_, fun wrapped' => ?_⟩,
    fun text => unwrap_wrap cipher length, fun wrapped never => ?_⟩
  · rcases unwrap_cases cipher length wrapped with ⟨text', accepted, whole⟩ | refused
    · rw [unwrapped] at accepted
      cases accepted
      exact whole
    · rw [unwrapped] at refused
      cases refused
  · obtain ⟨long, whole, -⟩ := (wrap_eq_ok_iff encrypting (iv.getD defaultIv)).mp wrapped'
    obtain ⟨again, -, rewrapped, unwrapped⟩ := unwrap_wrap cipher length long whole
    rw [wrapped'] at rewrapped
    cases rewrapped
    exact unwrapped
  · rcases unwrap_cases cipher length wrapped with ⟨text, -, whole⟩ | refused
    · exact absurd whole (never text)
    · exact refused

/-- Three blocks of text under a key of three bytes, with an initial value of the caller's. -/
theorem unwrap_iff_wrap_three_blocks :
    let w : KeyWrap (ToyCipher 16) := { cipher := {} }
    let key : Bytes := [0x01, 0x20, 0xFF]
    let iv : Option Bytes := some [0x01, 0x23, 0x45, 0x67, 0x89, 0xAB, 0xCD, 0xEF]
    let text : Bytes := [0, 1, 2, 3, 4, 5, 6, 7, 8, 9, 10, 11, 12, 13, 14, 15, 16, 17, 18, 19, 20,
      21, 22, 23]
    let wrapped : Bytes := [14, 241, 45, 13, 244, 42, 8, 229, 16, 17, 18, 19, 20, 21, 22, 23, 223,
      204, 84, 169, 102, 186, 3, 0, 206, 1, 221, 220, 4, 218, 217, 7]
    BlockCipher.Permutes (ToyCipher 16) key ∧ (w.init .encrypt key iv).1 = .ok () ∧
      (w.init .decrypt key iv).1 = .ok () ∧ (w.init .encrypt key iv).2.wrap text = .ok wrapped ∧
      (w.init .decrypt key iv).2.unwrap wrapped = .ok text := by
  intro w key iv text wrapped
  have laws : BlockCipher.Permutes (ToyCipher 16) key := ToyCipher.permutes key
  have done : (w.init .encrypt key iv).2.wrap text = .ok wrapped := by cbv
  have set : w.init .encrypt key iv = (.ok (), (w.init .encrypt key iv).2) := rfl
  have set' : w.init .decrypt key iv = (.ok (), (w.init .decrypt key iv).2) := rfl
  have undone := (unwrap_iff_wrap laws set set').1 wrapped text
  exact ⟨laws, rfl, rfl, done, undone.mpr done⟩

end PublicKeyCrypto.KeyWrap
