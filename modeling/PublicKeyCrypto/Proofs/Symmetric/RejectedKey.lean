import PublicKeyCrypto.Proofs.Session.SetUp
import PublicKeyCrypto.Proofs.Symmetric.KeyWrap
import PublicKeyCrypto.Proofs.Symmetric.Stealing
import PublicKeyCrypto.Symmetric.Aes
import Mathlib

/-!
# Modes with a rejected key

Key wrap and ciphertext stealing take over the initial value before the cipher sees the key.  If the
cipher refuses the key, the new initial value stays with the old key and the old direction.

Nothing else stays: a refused set-up with an initial value of a wrong length changes nothing, and
any other one replaces the initial value alone, over ciphers that keep their state when they refuse
a key.  The next key that is taken comes with its own initial value, so that a session forgets its
rejected keys if it sets the mode up again before it uses it.

## Main Definitions

* `BlockCipher.KeepsOnRefusal` — a refused key leaves the cipher as it was
* `ModeRequest`, `modeCall` — the calls of a mode

## Main Results

* `rejected_key_leaves_iv` — what a rejected key leaves, and which sessions forget it
* `rejected_key_not_forgotten` — a session in which an answer depends on a rejected key
-/

namespace PublicKeyCrypto

/-- A key that the cipher refuses leaves it as it was. -/
def BlockCipher.KeepsOnRefusal (C : Type) [BlockCipher C] : Prop :=
  ∀ (c : C) (direction : Direction) (key : Bytes) (e : Error),
    (BlockCipher.init c direction key).1 = .error e → (BlockCipher.init c direction key).2 = c

theorem BlockCipher.KeepsOnRefusal.eq_of_refused {C : Type} [BlockCipher C]
    (keeps : KeepsOnRefusal C) {c c' : C} {direction : Direction} {key : Bytes} {e : Error}
    (h : BlockCipher.init c direction key = (.error e, c')) : c' = c := by
  have kept := keeps c direction key e (congrArg Prod.fst h)
  rwa [h] at kept

theorem Aes.Cipher.keepsOnRefusal : BlockCipher.KeepsOnRefusal Aes.Cipher := by
  intro c direction key e refused
  change (Aes.Cipher.init c direction key).1 = _ at refused
  change (Aes.Cipher.init c direction key).2 = c
  unfold Aes.Cipher.init at refused ⊢
  split at refused
  · cases refused
  · next short => rw [if_neg short]

/-! ## Calls -/

/-- A call of a mode: a key with its initial value, or a use. -/
inductive ModeRequest (Q : Type)
  | init (direction : Direction) (key : Bytes) (iv : Option Bytes)
  | use (query : Q)

/-- Whether a call sets the mode up. -/
def ModeRequest.sets {Q : Type} : ModeRequest Q → Bool
  | init .. => true
  | use _ => false

section Modes

variable {M Q : Type} (init : M → Direction → Bytes → Option Bytes → Reply M Unit)
variable (answer : M → Q → Except Error Bytes)

/-- What a mode does with a call.  A use leaves the mode as it is. -/
def modeCall (m : M) : ModeRequest Q → Draw (Reply M (Option Bytes))
  | .init direction key iv => Reply.map (fun _ => none) <$> pure (init m direction key iv)
  | .use query => Reply.map some <$> pure (answer m query, m)

/-- Whether a mode refuses a key. -/
def modeRejects (m : M) : ModeRequest Q → Bool
  | .init direction key iv => Reply.refused (init m direction key iv)
  | .use _ => false

variable {init answer}

/-- A mode over which a refused set-up leaves nothing but an initial value, and for which a set-up
that is taken does not depend on the one before. -/
theorem mode_setsUp {withIv : M → Bytes → M} {left : Option Bytes → Bytes → Bytes}
    (cases : ∀ m direction key iv,
      (∃ e, ∀ v, init (withIv m v) direction key iv = (.error e, withIv m (left iv v))) ∨
        ∃ m', ∀ v, init (withIv m v) direction key iv = (.ok (), m'))
    (withIv_self : ∀ m, ∃ v, withIv m v = m) :
    SetsUp ModeRequest.sets (modeRejects init) (modeCall init answer) fun m m' =>
      ∃ m₀ v v', m = withIv m₀ v ∧ m' = withIv m₀ v' where
  rejected := by
    rintro _ _ (⟨direction, key, iv⟩ | query) ⟨m₀, v, v', rfl, rfl⟩ rejection
    · rcases cases m₀ direction key iv with ⟨e, refused⟩ | ⟨m', taken⟩
      · exact ⟨e, withIv m₀ (left iv v), by rw [modeCall, refused]; rfl, m₀, _, v', rfl, rfl⟩
      · simp [modeRejects, taken] at rejection
    · cases rejection
  taken := by
    rintro _ _ (⟨direction, key, iv⟩ | query) ⟨m₀, v, v', rfl, rfl⟩ setup rejection
    · rcases cases m₀ direction key iv with ⟨e, refused⟩ | ⟨m', taken⟩
      · simp [modeRejects, refused] at rejection
      · obtain ⟨w, same⟩ := withIv_self m'
        refine ⟨.ok none, m', ?_, ?_, m', w, w, same.symm, same.symm⟩
        · rw [modeCall, taken]
          rfl
        · rw [modeCall, taken]
          rfl
    · cases setup
  used := by
    rintro m (_ | query) use
    · cases use
    · exact Draw.ensures_map (Draw.ensures_pure rfl)

end Modes

variable {C : Type} [BlockCipher C]

/-! ## Key wrap -/

namespace KeyWrap

/-- A use of key wrap. -/
inductive Query
  | wrap (text : Bytes)
  | unwrap (wrapped : Bytes)

/-- What key wrap answers to a use. -/
def answer (w : KeyWrap C) : Query → Except Error Bytes
  | .wrap text => w.wrap text
  | .unwrap wrapped => w.unwrap wrapped

variable (C) in
/-- The initial value that a refused set-up leaves where there was `old`. -/
def ivLeft (iv : Option Bytes) (old : Bytes) : Bytes :=
  if BlockCipher.blockSize C = 16 ∧ (iv.getD defaultIv).length = 8 then iv.getD defaultIv else old

/-- **What a set-up does.**  It is refused and leaves an initial value, or it is taken and leaves
nothing of what was before. -/
theorem init_cases (keeps : BlockCipher.KeepsOnRefusal C) (w : KeyWrap C) (direction : Direction)
    (key : Bytes) (iv : Option Bytes) :
    (∃ e, ∀ v, ({ w with iv := v } : KeyWrap C).init direction key iv =
        (.error e, { w with iv := ivLeft C iv v })) ∨
      ∃ w', ∀ v, ({ w with iv := v } : KeyWrap C).init direction key iv = (.ok (), w') := by
  by_cases size : BlockCipher.blockSize C = 16
  case neg => exact .inl ⟨.invalidArgument .wrapBlockSize, fun v => by simp [init, ivLeft, size]⟩
  by_cases length : (iv.getD defaultIv).length = 8
  case neg =>
    exact .inl ⟨.invalidArgument .wrapIvLength, fun v => by simp [init, ivLeft, size, length]⟩
  rcases taken : BlockCipher.init w.cipher direction key with ⟨e | ⟨⟩, cipher⟩
  · obtain rfl : cipher = w.cipher := keeps.eq_of_refused taken
    exact .inl ⟨e, fun v => by simp [init, ivLeft, size, length, taken]⟩
  · exact .inr ⟨_, fun v => by simp [init, size, length, taken]; rfl⟩

end KeyWrap

/-! ## Ciphertext stealing -/

namespace Stealing

variable (C) in
/-- The initial value that a refused set-up leaves where there was `old`. -/
def ivLeft (iv : Option Bytes) (old : Bytes) : Bytes :=
  let zeros := Bytes.zeros (BlockCipher.blockSize C)
  if (iv.getD zeros).length = BlockCipher.blockSize C then iv.getD zeros else old

/-- **What a set-up does.**  It is refused and leaves an initial value, or it is taken and leaves
nothing of what was before. -/
theorem init_cases (keeps : BlockCipher.KeepsOnRefusal C) (s : Stealing C) (direction : Direction)
    (key : Bytes) (iv : Option Bytes) :
    (∃ e, ∀ v, ({ s with iv := v } : Stealing C).init direction key iv =
        (.error e, { s with iv := ivLeft C iv v })) ∨
      ∃ s', ∀ v, ({ s with iv := v } : Stealing C).init direction key iv = (.ok (), s') := by
  by_cases length : (iv.getD (Bytes.zeros (BlockCipher.blockSize C))).length =
      BlockCipher.blockSize C
  case neg =>
    exact .inl ⟨.invalidArgument .stealingIvLength, fun v => by simp [init, ivLeft, length]⟩
  rcases taken : BlockCipher.init s.cipher direction key with ⟨e | ⟨⟩, cipher⟩
  · obtain rfl : cipher = s.cipher := keeps.eq_of_refused taken
    exact .inl ⟨e, fun v => by simp [init, ivLeft, length, taken]⟩
  · exact .inr ⟨_, fun v => by simp [init, length, taken]; rfl⟩

/-- A message of one block is decrypted and chained to the initial value. -/
theorem process_single {d : C} {iv block plain : Bytes}
    (length : block.length = BlockCipher.blockSize C)
    (decrypted : BlockCipher.process d block = .ok plain) :
    (keyed d iv .decrypt).process block = .ok (Bytes.xorOver plain iv) := by
  have tail : decryptTail d iv block [] = .ok (Bytes.xorOver plain iv) := by
    simp only [decryptTail, decrypted, bind, Except.bind, ↓reduceIte, pure, Except.pure]
  rw [process_decrypt length.ge, assemble, tailLength, if_pos length, length, Nat.sub_self]
  simp only [List.take_zero, List.drop_zero, chunks_nil, decryptChain, bind, Except.bind, pure,
    Except.pure, ← length, List.take_length, List.drop_length, tail, List.nil_append]

end Stealing

/-! ## Sessions -/

/-- **What a rejected key leaves.**  Over a cipher that keeps its state when it refuses a key, for
both modes: a refused set-up changes nothing but the initial value, and that only if it came with
one of the right length.  A session that sets the mode up again, before it uses it, forgets the
refused set-ups. -/
theorem rejected_key_leaves_iv (keeps : BlockCipher.KeepsOnRefusal C) :
    (∀ (w : KeyWrap C) direction key iv e, (w.init direction key iv).1 = .error e →
        (w.init direction key iv).2 = { w with iv := KeyWrap.ivLeft C iv w.iv }) ∧
      (∀ (s : Stealing C) direction key iv e, (s.init direction key iv).1 = .error e →
        (s.init direction key iv).2 = { s with iv := Stealing.ivLeft C iv s.iv }) ∧
      (∀ w : KeyWrap C, ForgetsSettled ModeRequest.sets (modeRejects KeyWrap.init)
        (modeCall KeyWrap.init KeyWrap.answer) w) ∧
      ∀ s : Stealing C, ForgetsSettled ModeRequest.sets (modeRejects Stealing.init)
        (modeCall Stealing.init Stealing.process) s := by
  refine ⟨fun w direction key iv e refused => ?_, fun s direction key iv e refused => ?_,
    fun w => ?_, fun s => ?_⟩
  · rcases KeyWrap.init_cases keeps w direction key iv with ⟨e', left⟩ | ⟨w', taken⟩
    · exact congrArg Prod.snd (left w.iv)
    · rw [taken w.iv] at refused
      cases refused
  · rcases Stealing.init_cases keeps s direction key iv with ⟨e', left⟩ | ⟨s', taken⟩
    · exact congrArg Prod.snd (left s.iv)
    · rw [taken s.iv] at refused
      cases refused
  · exact forgetsSettled_of_setsUp
      (mode_setsUp (KeyWrap.init_cases keeps) fun w => ⟨w.iv, rfl⟩) ⟨w, w.iv, w.iv, rfl, rfl⟩
  · exact forgetsSettled_of_setsUp
      (mode_setsUp (Stealing.init_cases keeps) fun s => ⟨s.iv, rfl⟩) ⟨s, s.iv, s.iv, rfl, rfl⟩

/-- A key of no bytes comes with an initial value, and then a key is taken before the mode is
used. -/
theorem rejected_key_leaves_iv_before_next_key :
    let w : KeyWrap Aes.Cipher := { cipher := {} }
    let key := Bytes.zeros 16
    let other : Bytes := List.replicate 8 1
    let wrap : ModeRequest KeyWrap.Query := .use (.wrap (Bytes.zeros 16))
    let session := transcript (modeCall KeyWrap.init KeyWrap.answer) (fun _ => 0) 0 w 0
    let calls := session
      [.init .decrypt key none, .init .encrypt [] (some other), .init .encrypt key none, wrap]
    BlockCipher.KeepsOnRefusal Aes.Cipher ∧
      (w.init .encrypt [] (some other)).1 = .error (.invalidArgument .aesKeyLength) ∧
      (w.init .encrypt [] (some other)).2 = { w with iv := other } ∧
      calls.map (Served.rejected (modeRejects KeyWrap.init)) = [false, true, false, false] ∧
      (session [.init .decrypt key none, .init .encrypt key none, wrap]).map Served.course =
        (calls.eraseIdx 1).map Served.course := by
  intro w key other wrap session calls
  have keeps := Aes.Cipher.keepsOnRefusal
  obtain ⟨leaves, -, forgets, -⟩ := rejected_key_leaves_iv keeps
  have refused : (w.init .encrypt [] (some other)).1 =
      .error (.invalidArgument .aesKeyLength) := rfl
  obtain ⟨front, last, served, setUps, settled⟩ : ∃ front last, calls = front ++ [last] ∧
      (∀ c ∈ front, c.request.sets = true) ∧
      Settled ModeRequest.sets (modeRejects KeyWrap.init) front :=
    ⟨calls.take 3, _, rfl, by decide, settled_concat_of_taken (calls.take 2) rfl⟩
  exact ⟨keeps, refused, leaves w .encrypt [] (some other) _ refused, rfl,
    forgets w (fun _ => 0) 0 0 _ fun earlier c later split =>
      settled_before_use setUps settled (served.symm.trans split)⟩

/-- **Rejected keys are not forgotten**, in general.  Over AES, a message of one block is decrypted
between a rejected key and the next one.  The initial value that came with the rejected key is laid
over the block. -/
theorem rejected_key_not_forgotten :
    ¬∀ (C : Type) [BlockCipher C], BlockCipher.KeepsOnRefusal C →
      (∀ cipher : C, ForgetsRejections (modeRejects KeyWrap.init)
        (modeCall KeyWrap.init KeyWrap.answer) { cipher }) ∧
      ∀ cipher : C, ForgetsRejections (modeRejects Stealing.init)
        (modeCall Stealing.init Stealing.process) { cipher } := by
  intro claimed
  let key := Bytes.zeros 16
  let block := Bytes.zeros 16
  let other : Bytes := List.replicate 16 1
  let cipher : Aes.Cipher := { roundKeys := some (Aes.roundKeys key), direction := .decrypt }
  obtain ⟨plain, length, decrypted⟩ : ∃ plain : Bytes, plain.length = 16 ∧
      BlockCipher.process cipher block = .ok plain :=
    ⟨_, Vector.length_toList, rfl⟩
  have chained : ∀ iv, (Stealing.keyed cipher iv .decrypt).process block =
      .ok (Bytes.xorOver plain iv) := fun iv => Stealing.process_single rfl decrypted
  have same := (claimed Aes.Cipher Aes.Cipher.keepsOnRefusal).2 {} (fun _ => 0) 0 0
    [.init .decrypt key none, .init .decrypt [] (some other), .use block]
  -- The last answers of the two sessions.
  have answered : (some <$> (Stealing.keyed cipher (Bytes.zeros 16) .decrypt).process block) =
      some <$> (Stealing.keyed cipher other .decrypt).process block :=
    Except.ok.inj (List.cons.inj (List.cons.inj same).2).1
  rw [chained, chained] at answered
  have overlays : Bytes.xorOver plain (Bytes.zeros 16) = Bytes.xorOver plain other :=
    Option.some.inj (Except.ok.inj answered)
  have ones : Bytes.zeros 16 = other :=
    Bytes.xorOver_right_inj (Eq.symm length) (Eq.symm length) overlays
  exact absurd ones (by decide)

end PublicKeyCrypto
