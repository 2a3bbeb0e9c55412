import PublicKeyCrypto.Proofs.Bytes
import PublicKeyCrypto.Symmetric.Toy
import Mathlib

/-!
# Operations that undo each other

A mode runs a block cipher forwards in one direction and backwards in the other.  What it needs of
the cipher is that the two directions under a key are mutually inverse permutations of the blocks,
and what it promises is the same about longer strings; so there is one relation for both.

Operations may refuse their argument.  The relation therefore says two things at once: on valid
arguments neither operation refuses, and each leads back from the result of the other.

## Main Definitions

* `Inverses` — two operations that undo each other on valid arguments
* `BlockCipher.Permutes` — a key under which the directions of a cipher are such operations

## Main Results

* `Inverses.comp` — of two operations done one after the other, the second is undone first
* `ToyCipher.permutes` — there is a cipher of every block size that obeys the law
-/

namespace PublicKeyCrypto

/-- On valid arguments each operation gives a valid result, from which the other one leads back. -/
structure Inverses {α : Type} (valid : α → Prop) (f g : α → Except Error α) : Prop where
  there : ∀ a, valid a → ∃ b, valid b ∧ f a = .ok b ∧ g b = .ok a
  back : ∀ b, valid b → ∃ a, valid a ∧ g b = .ok a ∧ f a = .ok b

namespace Inverses

variable {α : Type} {valid : α → Prop} {f g f' g' : α → Except Error α}

/-- Doing nothing is undone by doing nothing. -/
theorem ok : Inverses valid Except.ok Except.ok where
  there a ha := ⟨a, ha, rfl, rfl⟩
  back a ha := ⟨a, ha, rfl, rfl⟩

/-- What is done last is undone first. -/
theorem comp (h : Inverses valid f g) (h' : Inverses valid f' g') :
    Inverses valid (fun a => f a >>= f') (fun c => g' c >>= g) where
  there a ha := by
    obtain ⟨b, hb, hf, hg⟩ := h.there a ha
    obtain ⟨c, hc, hf', hg'⟩ := h'.there b hb
    refine ⟨c, hc, ?_, ?_⟩
    · rw [hf]
      exact hf'
    · rw [hg']
      exact hg
  back c hc := by
    obtain ⟨b, hb, hg', hf'⟩ := h'.back c hc
    obtain ⟨a, ha, hg, hf⟩ := h.back b hb
    refine ⟨a, ha, ?_, ?_⟩
    · rw [hg']
      exact hg
    · rw [hf]
      exact hf'

end Inverses

/-! ## Block ciphers -/

namespace BlockCipher

/-- Whether the string is a block of the cipher. -/
def IsBlock (C : Type) [BlockCipher C] (b : Bytes) : Prop := b.length = blockSize C

/-- Under the key the two directions of the cipher are mutually inverse permutations of the blocks,
whatever the ciphers that took the key were used for before. -/
def Permutes (C : Type) [BlockCipher C] (key : Bytes) : Prop :=
  ∀ c c' e d : C, init c .encrypt key = (.ok (), e) → init c' .decrypt key = (.ok (), d) →
    Inverses (IsBlock C) (process e) (process d)

end BlockCipher

namespace ToyCipher

variable {size : ℕ}

/-- The key is taken off by being laid over the block again. -/
theorem overlay_overlay (key block : Bytes) : overlay key (overlay key block) = block := by
  apply List.ext_getElem
  · simp [overlay]
  · intro i _ _
    simp [overlay]

/-- The directions undo each other under every key. -/
theorem permutes (key : Bytes) : BlockCipher.Permutes (ToyCipher size) key := by
  intro c c' e d encrypting decrypting
  obtain rfl : ({ key, direction := .encrypt } : ToyCipher size) = e := congrArg Prod.snd encrypting
  obtain rfl : ({ key, direction := .decrypt } : ToyCipher size) = d := congrArg Prod.snd decrypting
  constructor
  · intro block length
    refine ⟨(overlay key block).reverse, ?_, rfl, ?_⟩
    · rw [BlockCipher.IsBlock, List.length_reverse, ← length]
      simp [overlay]
    · show Except.ok (overlay key (overlay key block).reverse.reverse) = _
      rw [List.reverse_reverse, overlay_overlay]
  · intro block length
    refine ⟨overlay key block.reverse, ?_, rfl, ?_⟩
    · rw [BlockCipher.IsBlock, ← length]
      simp [overlay]
    · show Except.ok (overlay key (overlay key block.reverse)).reverse = _
      rw [overlay_overlay, List.reverse_reverse]

end ToyCipher

end PublicKeyCrypto
