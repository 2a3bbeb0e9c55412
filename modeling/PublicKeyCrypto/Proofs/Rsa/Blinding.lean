import PublicKeyCrypto.Proofs.Random.Sampler
import PublicKeyCrypto.Proofs.Rsa.Operation
import Mathlib

/-!
# The blinding loop ends

The private operation of RSA draws candidates for its blinding factor until one is in range and has
an inverse.  That is a loop within a loop, but every candidate takes the same number of bytes.  So
the candidates stand one after the other on the tape, and each loop ends at one of them: the inner
one at the first in range, the outer one at the first that suits.

What is said of the outer loop (`exists_run_firstAccepted`) does not ask that a candidate takes a
certain number of bytes: a loop gets to a candidate on which it must end, or ends before it.

## Main Definitions

* `Rsa.Blinds` — it suits as a blinding factor

## Main Results

* `Rsa.PrivateKey.exists_run_blinding` — the loop ends with enough patience, if a candidate suits
* `Rsa.PrivateKey.exists_tape_blinding` — there are tapes on which it ends
-/

namespace PublicKeyCrypto

namespace Draw

variable {α β : Type} {tape : Tape} {patience : ℕ}

/-- **Loops end.**  Candidates stand at places that are `len` bytes apart, and some of the places
are good.  If a draw never goes past a good place, and gets an accepted candidate if it comes to
one, then the loop ends there or before.  The induction is on the rounds that are left. -/
theorem exists_run_firstAccepted (candidate : Draw α) (accept : α → Option β) {len : ℕ}
    (good : ℕ → Prop) (drawnAt : α → ℕ → Prop)
    (step : ∀ start i, i < patience → good (start + i * len) →
      ∃ a j, j ≤ i ∧ drawnAt a (start + j * len) ∧
        candidate.run tape patience start = .ok (a, start + (j + 1) * len) ∧
        (j = i → ∃ b, accept a = some b))
    {start i : ℕ} (patient : i < patience) (reached : good (start + i * len)) :
    ∃ a b j, j ≤ i ∧ drawnAt a (start + j * len) ∧ accept a = some b ∧
      (firstAccepted candidate accept).run tape patience start =
        .ok (b, start + (j + 1) * len) := by
  rw [firstAccepted_eq, run_untilDone]
  suffices rounds : ∀ counter start i, i < counter → counter ≤ patience →
      good (start + i * len) → ∃ a b j, j ≤ i ∧ drawnAt a (start + j * len) ∧
        accept a = some b ∧ Draw.rounds (fun _ => do
          let a ← candidate
          return (accept a).elim (.again ()) .done) tape patience counter () start =
          .ok (b, start + (j + 1) * len) from
    rounds patience start i patient le_rfl reached
  intro counter
  induction counter with
  | zero => exact fun _ _ none => absurd none (Nat.not_lt_zero _)
  | succ counter ih =>
      intro start i inside patient reached
      obtain ⟨a, j, j_le, drawn, run, last⟩ := step start i (by omega) reached
      rcases accepted : accept a with _ | b
      · -- A candidate that is refused stands before the good place.
        have earlier : j < i := lt_of_le_of_ne j_le fun same => by
          obtain ⟨b, some⟩ := last same
          rw [accepted] at some
          cases some
        have place : ∀ m, start + (j + 1) * len + m * len = start + (j + 1 + m) * len := by
          intro m
          ring
        have rest : start + (j + 1) * len + (i - j - 1) * len = start + i * len := by
          rw [place]
          congr 2
          omega
        obtain ⟨a', b, j', j'_le, drawn', accepted', run'⟩ :=
          ih (start + (j + 1) * len) (i - j - 1) (by omega) (by omega) (rest ▸ reached)
        refine ⟨a', b, j + 1 + j', by omega, place j' ▸ drawn', accepted', ?_⟩
        rw [rounds_succ]
        simp only [run_bind, run, accepted, run_pure, Option.elim_none]
        rw [run', place]
        rfl
      · refine ⟨a, b, j, j_le, drawn, accepted, ?_⟩
        rw [rounds_succ]
        simp only [run_bind, run, accepted, run_pure, Option.elim_some]

/-- The inner loop ends at a candidate in range, or before it. -/
theorem exists_run_positiveBelow {bound i start : ℕ} (large : 2 ≤ bound) (patient : i < patience)
    (inRange : 0 < numberAt (bitLength bound) tape (start + i * byteLength bound) ∧
      numberAt (bitLength bound) tape (start + i * byteLength bound) < bound) :
    ∃ j, j ≤ i ∧ (positiveBelow bound).run tape patience start =
      .ok (numberAt (bitLength bound) tape (start + j * byteLength bound),
        start + (j + 1) * byteLength bound) := by
  have number (j : ℕ) : chunkNumber bound tape start j =
      numberAt (bitLength bound) tape (start + j * byteLength bound) := (numberAt_eq _ _ _).symm
  have some : ∃ j, 0 < chunkNumber bound tape start j ∧ chunkNumber bound tape start j < bound :=
    ⟨i, by rwa [number]⟩
  have least : Nat.find some ≤ i := Nat.find_min' some (by rwa [number])
  refine ⟨Nat.find some, least, ((samplesRange_positiveBelow large).run_eq_ok_iff _ _ _ _ _).mpr
    ⟨Nat.find some, least.trans_lt patient, (number _).symm, ?_, fun j => Nat.find_min some, rfl⟩⟩
  rw [← number]
  exact Nat.find_spec some

end Draw

namespace Rsa

/-- The candidate at a place of the tape suits as a blinding factor. -/
def Blinds (n : ℕ) (tape : Tape) (place : ℕ) : Prop :=
  let r := Draw.numberAt (bitLength n) tape place
  (0 < r ∧ r < n) ∧ r.Coprime n

instance (n : ℕ) (tape : Tape) (place : ℕ) : Decidable (Blinds n tape place) :=
  inferInstanceAs (Decidable (_ ∧ _))

namespace PrivateKey

variable {n : ℕ} {tape : Tape} {patience start i : ℕ}

/-- **The blinding loop ends** if one of the first candidates suits, as many as the patience
allows. -/
theorem exists_run_blinding (large : 2 ≤ n) (patient : i < patience)
    (suits : Blinds n tape (start + i * byteLength n)) :
    ∃ factor stop, (blinding n).run tape patience start = .ok (factor, stop) := by
  obtain ⟨-, factor, j, -, -, -, run⟩ := Draw.exists_run_firstAccepted
    (Draw.positiveBelow n)
    (fun r => (invMod r n).map fun inverse => (r, inverse))
    (Blinds n tape)
    (fun a place => a = Draw.numberAt (bitLength n) tape place)
    (fun start i patient good => by
      obtain ⟨j, j_le, run⟩ := Draw.exists_run_positiveBelow large patient good.1
      refine ⟨_, j, j_le, rfl, run, ?_⟩
      rintro rfl
      obtain ⟨inverse, found⟩ := exists_invMod good.2
      exact ⟨_, by rw [found]; rfl⟩) patient suits
  exact ⟨factor, _, run⟩

/-- The loop ends on a tape that begins with the number one. -/
theorem exists_tape_blinding (large : 2 ≤ n) :
    ∃ tape factor stop, (blinding n).run tape 1 0 = .ok (factor, stop) := by
  obtain ⟨tape, one⟩ := Draw.exists_tape_numberAt large
  have suits : Blinds n tape (0 + 0 * byteLength n) := by
    rw [Blinds, Nat.zero_mul, one]
    exact ⟨⟨Nat.one_pos, large⟩, Nat.coprime_one_left n⟩
  obtain ⟨factor, stop, run⟩ := exists_run_blinding large Nat.zero_lt_one suits
  exact ⟨tape, factor, stop, run⟩

end PrivateKey

end Rsa

end PublicKeyCrypto
