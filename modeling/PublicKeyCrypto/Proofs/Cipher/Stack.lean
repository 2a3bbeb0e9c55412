import PublicKeyCrypto.Cipher.Stack
import PublicKeyCrypto.Proofs.Cipher.Oaep
import PublicKeyCrypto.Proofs.Cipher.Pkcs1
import Mathlib

/-!
# What a stack of encodings carries

The ciphers at the bottom of a stack carry a *block*, and lose its leading zeros.  A layer makes of
any such pair of ciphers a pair that delivers a *message*, with nothing lost and nothing added: the
blocks of PKCS #1 do not begin with a zero, and those of OAEP are brought to their full length
again.  A pair that delivers messages carries them in particular, so that the next layer may be
laid over it.

So there are two relations between an encrypting and a decrypting cipher, one lemma for each
kind of layer from the weaker relation to the stronger one, and an induction over the stack.  The
sizes need no care in the induction: what the decrypting side announces as its output is always
what the encrypting side announces as its input, which is the only thing that a strict decoder
compares lengths with.

## Main Definitions

* `CipherView.Carries`, `CipherView.Delivers` — the relations
* `Layer.Ordinary`, `CipherStack.Ordinary` — encodings whose decoders may refuse a block

## Main Results

* `Layer.delivers` — a layer over ciphers that carry blocks delivers messages
* `CipherStack.delivers` — so does a stack of at least one layer, over any depth
-/

namespace PublicKeyCrypto

/-! ## The relations -/

namespace CipherView

variable (enc dec : CipherView)

/-- Every block that the encrypting cipher announces to take is given back by the decrypting one,
up to leading zeros. -/
structure Carries : Prop where
  size_eq : dec.outputSize = enc.inputSize
  carries : ∀ block : Bytes, block.length ≤ enc.inputSize →
    (enc.process block).run.Always fun answer =>
      ∃ transformed, answer = .ok transformed ∧ transformed.length = enc.outputSize ∧
        (dec.process transformed).run.Always fun answer' =>
          ∃ count out, answer' = .ok out ∧ Bytes.zeros count ++ out = block

/-- A message is encrypted exactly if it is not longer than announced; the result has the length
that is announced, and the decrypting cipher gives back the message. -/
def Delivers (message : Bytes) : Prop :=
  (enc.process message).run.Always fun answer =>
    ((∃ transformed, answer = .ok transformed) ↔ message.length ≤ enc.inputSize) ∧
      ∀ transformed, answer = .ok transformed → transformed.length = enc.outputSize ∧
        (dec.process transformed).run.Always (· = .ok message)

variable {enc dec}

/-- Messages that are delivered are carried. -/
theorem carries_of_delivers (size : dec.outputSize = enc.inputSize)
    (delivers : ∀ message, enc.Delivers dec message) : enc.Carries dec where
  size_eq := size
  carries block fits := by
    refine (delivers block).mono ?_
    rintro answer ⟨succeeds, result⟩
    obtain ⟨transformed, rfl⟩ := succeeds.mpr fits
    obtain ⟨length, back⟩ := result transformed rfl
    refine ⟨transformed, rfl, length, back.mono ?_⟩
    rintro answer' rfl
    exact ⟨0, block, rfl, rfl⟩

/-- A message that is taken must be delivered; any other must be refused. -/
theorem delivers_of_cases {message : Bytes}
    (taken : message.length ≤ enc.inputSize → (enc.process message).run.Always fun answer =>
      ∃ transformed, answer = .ok transformed ∧ transformed.length = enc.outputSize ∧
        (dec.process transformed).run.Always (· = .ok message))
    (refused : enc.inputSize < message.length → ∃ e, (enc.process message).run = pure (.error e)) :
    enc.Delivers dec message := by
  by_cases fits : message.length ≤ enc.inputSize
  · refine (taken fits).mono ?_
    rintro answer ⟨transformed, rfl, length, back⟩
    refine ⟨iff_of_true ⟨transformed, rfl⟩ fits, ?_⟩
    rintro other ⟨⟩
    exact ⟨length, back⟩
  · obtain ⟨e, refusal⟩ := refused (not_le.mp fits)
    rw [Delivers, refusal]
    refine Draw.ensures_pure ⟨iff_of_false ?_ fits, ?_⟩
    · rintro ⟨transformed, ⟨⟩⟩
    · rintro transformed ⟨⟩

end CipherView

/-! ## Layers -/

/-- An encoding whose decoder refuses malformed blocks. -/
def Layer.Ordinary : Layer → Prop
  | pkcs1 l => l.expectedLength = none
  | oaep _ => True

variable {enc dec : CipherView}

/-- A block of PKCS #1 loses no zeros, since its type is not zero. -/
theorem Pkcs1.Formed.eq_of_zeros_append {type : UInt8} {filler payload block out : Bytes}
    {count : ℕ} (formed : Formed type filler payload block) (nonzero : type ≠ 0x00)
    (h : Bytes.zeros count ++ out = block) : out = block := by
  cases count with
  | zero => exact h
  | succ count =>
      rw [formed.block_eq, Bytes.zeros, List.replicate_succ, List.cons_append] at h
      exact absurd (List.cons.inj h).1.symm nonzero

/-- A decoder of PKCS #1 reads the type that the encoder with the other half writes. -/
theorem Pkcs1.readType_eq_writtenType (l : Pkcs1) {isPrivate isPrivate' : Bool}
    (opposite : isPrivate' = !isPrivate) (direction direction' : Direction) :
    readType { l with direction := direction', withPrivateKey := isPrivate' } =
      writtenType { l with direction, withPrivateKey := isPrivate } := by
  subst opposite
  cases isPrivate <;> rfl

/-- PKCS #1 over ciphers that carry blocks. -/
theorem Pkcs1.delivers (l : Pkcs1) (ordinary : l.expectedLength = none)
    {isPrivate isPrivate' : Bool} (opposite : isPrivate' = !isPrivate)
    (carried : enc.Carries dec) (room : headerLength ≤ enc.inputSize) (message : Bytes) :
    (Layer.view enc (.pkcs1 { l with direction := .encrypt, withPrivateKey := isPrivate })).Delivers
      (Layer.view dec (.pkcs1 { l with direction := .decrypt, withPrivateKey := isPrivate' }))
      message := by
  set encoder : Pkcs1 := { l with direction := .encrypt, withPrivateKey := isPrivate }
  set decoder : Pkcs1 := { l with direction := .decrypt, withPrivateKey := isPrivate' } with hdec
  have decode (input : Bytes) : decoder.process dec input = decoder.decode dec input := by
    rw [process, hdec]
    dsimp only
    rw [ordinary]
  refine CipherView.delivers_of_cases (fun fits => ?_) (fun long => ?_)
  · replace fits : message.length ≤ enc.inputSize - headerLength := fits
    have inside : message.length + headerLength ≤ enc.inputSize := by omega
    refine encoder.encode_always inside fun filler block formed length => ?_
    refine (carried.carries block length.le).mono ?_
    rintro answer ⟨transformed, rfl, size, back⟩
    refine ⟨transformed, rfl, size, ?_⟩
    show (decoder.process dec transformed).run.Always _
    rw [decode]
    refine Call.ensures_after (back.mono ?_)
    rintro answer' ⟨count, out, rfl, rest⟩
    have nonzero : encoder.writtenType ≠ 0x00 := by
      rw [writtenType]
      split <;> decide
    obtain rfl := formed.eq_of_zeros_append nonzero rest
    refine ⟨.ok message, ?_, rfl⟩
    rw [unpad_eq_ok_iff, l.readType_eq_writtenType opposite .encrypt .decrypt, carried.size_eq]
    exact ⟨⟨filler, formed⟩, fun _ => length⟩
  · replace long : enc.inputSize - headerLength < message.length := long
    exact ⟨_, encoder.run_encode_of_lt (by omega)⟩

/-- OAEP over ciphers that carry blocks. -/
theorem Oaep.delivers (l : Oaep) (carried : enc.Carries dec) (room : l.overhead ≤ enc.inputSize)
    (message : Bytes) :
    (Layer.view enc (.oaep { l with direction := .encrypt })).Delivers
      (Layer.view dec (.oaep { l with direction := .decrypt })) message := by
  set encoder : Oaep := { l with direction := .encrypt }
  set decoder : Oaep := { l with direction := .decrypt }
  refine CipherView.delivers_of_cases (fun fits => ?_) (fun long => ?_)
  · replace fits : message.length ≤ enc.inputSize - l.overhead := fits
    have inside : message.length + encoder.overhead ≤ enc.inputSize := by
      show message.length + l.overhead ≤ enc.inputSize
      omega
    refine encoder.encode_always rfl inside fun block length formed => ?_
    refine (carried.carries block length.le).mono ?_
    rintro answer ⟨transformed, rfl, size, back⟩
    refine ⟨transformed, rfl, size, ?_⟩
    show (decoder.decode dec transformed).run.Always _
    refine Call.ensures_after (back.mono ?_)
    rintro answer' ⟨count, out, rfl, rest⟩
    -- The zeros that were lost are those by which the block is too short.
    have full : fullBlock dec.outputSize out = block := by
      have total : count + out.length = block.length := by
        rw [← rest, List.length_append, Bytes.length_zeros]
      have short : out.length ≤ dec.outputSize := by
        rw [carried.size_eq]
        omega
      rw [fullBlock, if_pos short, ← rest, carried.size_eq]
      congr 2
      omega
    have short : out.length ≤ dec.outputSize := by
      rw [carried.size_eq, ← length, ← rest, List.length_append]
      omega
    refine ⟨.ok message, ?_, rfl⟩
    show decoder.unpad dec.outputSize out = _
    rw [decoder.unpad_eq_ok_iff (show l.overhead ≤ dec.outputSize by rwa [carried.size_eq]), full]
    exact ⟨short, formed⟩
  · exact ⟨_, encoder.run_encode_of_lt long⟩

/-- **A layer delivers messages**, of either kind, once it has been told of opposite halves of a key
pair and has found the blocks long enough. -/
theorem Layer.delivers (top : Layer) (ordinary : top.Ordinary) {isPrivate isPrivate' : Bool}
    (opposite : isPrivate' = !isPrivate) (carried : enc.Carries dec)
    (room : top.leastBlock ≤ enc.inputSize) (message : Bytes) :
    (Layer.view enc ((top.beforeInit .encrypt isPrivate).afterInit .encrypt)).Delivers
      (Layer.view dec ((top.beforeInit .decrypt isPrivate').afterInit .decrypt)) message := by
  cases top with
  | pkcs1 l => exact l.delivers ordinary opposite carried room message
  | oaep l => exact l.delivers carried room message

/-- The announced sizes of a layer stay matched. -/
theorem Layer.size_eq (top : Layer) {isPrivate isPrivate' : Bool}
    (matched : dec.outputSize = enc.inputSize) :
    (Layer.view dec ((top.beforeInit .decrypt isPrivate').afterInit .decrypt)).outputSize =
      (Layer.view enc ((top.beforeInit .encrypt isPrivate).afterInit .encrypt)).inputSize := by
  cases top with
  | pkcs1 l => exact congrArg (· - Pkcs1.headerLength) matched
  | oaep l => exact congrArg (· - l.overhead) matched

/-! ## Stacks -/

namespace CipherStack

variable {E S P : Type}

/-- A stack of encodings whose decoders refuse malformed blocks. -/
def Ordinary : CipherStack E → Prop
  | base _ => True
  | layer top below => top.Ordinary ∧ below.Ordinary

variable [AsymmetricCipher E S P]

/-- A key is accepted by a layer exactly if the stack under it accepts it and has blocks that are
long enough. -/
theorem init_layer_eq_ok {top : Layer} {below : CipherStack E} {direction : Direction}
    {key : KeyHalf S P} (h : ((layer top below).init direction key).1 = .ok ()) :
    (below.init direction key).1 = .ok () ∧
      top.leastBlock ≤ (below.init direction key).2.view.blockSize direction ∧
      ((layer top below).init direction key).2 =
        layer ((top.beforeInit direction key.isPrivate).afterInit direction)
          (below.init direction key).2 := by
  have sameLeast : ((top.beforeInit direction key.isPrivate).afterInit direction).leastBlock =
      top.leastBlock := by
    cases top <;> rfl
  rw [init] at h ⊢
  cases told : below.init direction key with
  | mk answer below' =>
      rw [told] at h
      dsimp only at h
      cases answer with
      | error e => cases h
      | ok accepted =>
          dsimp only at h
          split at h
          · cases h
          · next room =>
            rw [sameLeast] at room
            exact ⟨rfl, not_lt.mp room, rfl⟩

/-- **A stack delivers messages**, over ciphers that carry blocks, and to any depth.  The induction
is on the layers, the innermost first; every layer is told of the same two halves. -/
theorem delivers {key key' : KeyHalf S P} (opposite : key'.isPrivate = !key.isPrivate)
    (bottom : ∀ e : E, (AsymmetricCipher.init e .encrypt key).1 = .ok () →
      (AsymmetricCipher.init e .decrypt key').1 = .ok () →
      (CipherView.ofCipher (AsymmetricCipher.init e .encrypt key).2).Carries
        (CipherView.ofCipher (AsymmetricCipher.init e .decrypt key').2))
    (top : Layer) (below : CipherStack E) (ordinary : (layer top below).Ordinary)
    (accepted : ((layer top below).init .encrypt key).1 = .ok ())
    (accepted' : ((layer top below).init .decrypt key').1 = .ok ()) (message : Bytes) :
    ((layer top below).init .encrypt key).2.view.Delivers
      ((layer top below).init .decrypt key').2.view message := by
  -- What lies under the top layer only has to carry blocks, as the bare ciphers do.
  have carried : ∀ stack : CipherStack E, stack.Ordinary →
      (stack.init .encrypt key).1 = .ok () → (stack.init .decrypt key').1 = .ok () →
      (stack.init .encrypt key).2.view.Carries (stack.init .decrypt key').2.view := by
    intro stack
    induction stack with
    | base e => exact fun _ => bottom e
    | layer top below ih =>
        intro ordinary accepted accepted'
        obtain ⟨inner, room, stack⟩ := init_layer_eq_ok accepted
        obtain ⟨inner', -, stack'⟩ := init_layer_eq_ok accepted'
        have under := ih ordinary.2 inner inner'
        rw [stack, stack']
        exact CipherView.carries_of_delivers (top.size_eq under.size_eq)
          (top.delivers ordinary.1 opposite under room)
  obtain ⟨inner, room, stack⟩ := init_layer_eq_ok accepted
  obtain ⟨inner', -, stack'⟩ := init_layer_eq_ok accepted'
  rw [stack, stack']
  exact top.delivers ordinary.1 opposite (carried below ordinary.2 inner inner') room message

end CipherStack

end PublicKeyCrypto
