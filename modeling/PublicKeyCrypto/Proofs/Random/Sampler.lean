import PublicKeyCrypto.Proofs.Number.Primality
import Mathlib

/-!
# What the samplers take from the tape

A number below a bound is found by rejection.  Every candidate takes as many bytes as the bound has,
so that the tape is cut into chunks of one length, and the surplus bits of each chunk are cleared.
The samplers give the number of the first chunk in range and stop right behind it
(`Draw.run_firstAccepted_eq_ok_iff`).

Clearing bits is reducing modulo a power of two, and every residue of it stands for equally many
chunks (`Bytes.ncard_chunks`).  So no number in range is preferred to another.  The order in which
the two facts are used matters: a sampler that reduced modulo the bound itself would give numbers in
range too, and some of them more often.

## Main Definitions

* `Draw.bytesAt`, `Draw.numberAt` — what is drawn at a place of the tape
* `Draw.chunkNumber` — the number in a chunk, without surplus bits
* `Draw.SamplesRange` — the first chunk in range is taken, and all numbers in range alike

## Main Results

* `Draw.exists_tape_numberAt` — every number is drawn from some tape
* `Bytes.ncard_chunks` — how many chunks stand for a number
* `samplers_take_first_in_range` — the samplers of numbers in a range
-/

namespace PublicKeyCrypto

namespace Draw

variable {α β : Type} {tape : Tape} {patience : ℕ}

/-! ## Places of the tape -/

/-- The bytes of the tape from a place on. -/
def bytesAt (tape : Tape) (place count : ℕ) : Bytes :=
  (List.range count).map fun i => tape (place + i)

@[simp] theorem length_bytesAt (tape : Tape) (place count : ℕ) :
    (bytesAt tape place count).length = count := by
  rw [bytesAt, List.length_map, List.length_range]

/-- The number of a bit length that is drawn at a place of the tape. -/
def numberAt (bits : ℕ) (tape : Tape) (place : ℕ) : ℕ :=
  let len := (bits + 7) / 8
  ((bytesAt tape place len).clearTop (8 * len - bits)).value

theorem run_number (bits place : ℕ) : (number bits).run tape patience place =
    .ok (numberAt bits tape place, place + (bits + 7) / 8) := rfl

/-- Clearing the surplus bits is reducing the number. -/
theorem numberAt_eq (bits : ℕ) (tape : Tape) (place : ℕ) :
    numberAt bits tape place = (bytesAt tape place ((bits + 7) / 8)).value % 2 ^ bits := by
  rw [numberAt, Bytes.value_clearTop (by omega), length_bytesAt,
    show 8 * ((bits + 7) / 8) - (8 * ((bits + 7) / 8) - bits) = bits by omega]

/-- Some tape begins with the given bytes. -/
theorem exists_tape_bytesAt (b : Bytes) : ∃ tape, bytesAt tape 0 b.length = b := by
  refine ⟨fun i => b.getD i 0, ?_⟩
  apply List.ext_getElem
  · rw [length_bytesAt]
  · intro i inside _
    rw [length_bytesAt] at inside
    simp only [bytesAt, List.getElem_map, List.getElem_range, Nat.zero_add]
    exact List.getD_eq_getElem _ _ inside

/-- Every number of a bit length is drawn from some tape. -/
theorem exists_tape_number {bits k : ℕ} (small : k < 2 ^ bits) :
    ∃ tape, numberAt bits tape 0 = k := by
  obtain ⟨tape, begins⟩ := exists_tape_bytesAt (Bytes.wide ((bits + 7) / 8) k)
  have fits : k < 256 ^ ((bits + 7) / 8) := by
    refine small.trans_le ?_
    rw [show (256 : ℕ) = 2 ^ 8 from rfl, ← pow_mul]
    exact Nat.pow_le_pow_right (by decide) (by omega)
  rw [Bytes.length_wide] at begins
  exact ⟨tape, by
    rw [numberAt_eq, begins, Bytes.value_wide_of_lt fits, Nat.mod_eq_of_lt small]⟩

/-- Every number below a bound is drawn from some tape. -/
theorem exists_tape_numberAt {bound k : ℕ} (small : k < bound) :
    ∃ tape, numberAt (bitLength bound) tape 0 = k :=
  exists_tape_number (small.trans (bitLength_le_iff.mp le_rfl))

/-! ## The first accepted candidate -/

/-- The loop, with `Option.elim` for its decision. -/
theorem firstAccepted_eq (candidate : Draw α) (accept : α → Option β) :
    firstAccepted candidate accept = untilDone (fun _ => do
      let a ← candidate
      return (accept a).elim (.again ()) .done) () := by
  rw [firstAccepted]
  refine congrArg (untilDone · ()) (funext fun _ => congrArg (candidate >>= ·) (funext fun a => ?_))
  cases accept a <;> rfl

/-- **The loop gives the first accepted candidate**, if all candidates take equally many bytes.  The
induction is on the rounds that are left. -/
theorem run_firstAccepted_eq_ok_iff {candidate : Draw α} {accept : α → Option β} {drawn : ℕ → α}
    {len : ℕ} (step : ∀ place, candidate.run tape patience place = .ok (drawn place, place + len))
    {start stop : ℕ} {b : β} :
    (firstAccepted candidate accept).run tape patience start = .ok (b, stop) ↔
      ∃ i < patience, accept (drawn (start + i * len)) = some b ∧
        (∀ j < i, accept (drawn (start + j * len)) = none) ∧ stop = start + (i + 1) * len := by
  rw [firstAccepted_eq, run_untilDone]
  suffices rounds : ∀ counter start, Draw.rounds (fun _ => do
        let a ← candidate
        return (accept a).elim (.again ()) .done) tape patience counter () start = .ok (b, stop) ↔
      ∃ i < counter, accept (drawn (start + i * len)) = some b ∧
        (∀ j < i, accept (drawn (start + j * len)) = none) ∧ stop = start + (i + 1) * len from
    rounds patience start
  intro counter
  induction counter with
  | zero => simp [rounds_zero]
  | succ counter ih =>
      intro start
      have later (m : ℕ) : start + len + m * len = start + (m + 1) * len := by ring
      rw [rounds_succ]
      simp only [run_bind, step, run_pure]
      rcases accepted : accept (drawn start) with _ | first
      · -- A refused candidate is followed by the others.
        rw [Option.elim_none, ih, Nat.exists_lt_succ_left]
        simp only [Nat.forall_lt_succ_left, later, Nat.zero_mul, Nat.add_zero, accepted,
          reduceCtorEq, false_and, false_or, true_and]
      · rw [Option.elim_some, Nat.exists_lt_succ_left]
        simp only [Nat.forall_lt_succ_left, Nat.zero_mul, Nat.add_zero, accepted, reduceCtorEq,
          false_and, and_false, or_false, Nat.not_lt_zero, false_imp_iff, implies_true,
          exists_false]
        simp [eq_comm]

end Draw

/-! ## Counting chunks -/

/-- **Chunks that stand for a number.**  Of the strings of a length, equally many have each residue
of their value modulo a power of two. -/
theorem Bytes.ncard_chunks {len bits v : ℕ} (room : bits ≤ 8 * len) (small : v < 2 ^ bits) :
    {chunk : Bytes | chunk.length = len ∧ chunk.value % 2 ^ bits = v}.ncard =
      2 ^ (8 * len - bits) := by
  have total : 256 ^ len = 2 ^ bits * 2 ^ (8 * len - bits) := by
    rw [← pow_add, show (256 : ℕ) = 2 ^ 8 from rfl, ← pow_mul]
    congr 1
    omega
  -- The surplus bits are free, and the others are those of the number.
  have fits {t : ℕ} (inside : t < 2 ^ (8 * len - bits)) : v + 2 ^ bits * t < 256 ^ len := by
    rw [total]
    calc v + 2 ^ bits * t < 2 ^ bits * (t + 1) := by
          rw [Nat.mul_succ]
          omega
      _ ≤ 2 ^ bits * 2 ^ (8 * len - bits) := Nat.mul_le_mul_left _ inside
  have chunks : {chunk : Bytes | chunk.length = len ∧ chunk.value % 2 ^ bits = v} =
      (fun t => wide len (v + 2 ^ bits * t)) '' (Finset.range (2 ^ (8 * len - bits)) : Set ℕ) := by
    ext chunk
    rw [Finset.coe_range, Set.mem_image]
    constructor
    · rintro ⟨rfl, rfl⟩
      refine ⟨chunk.value / 2 ^ bits, ?_, ?_⟩
      · rw [Set.mem_Iio, Nat.div_lt_iff_lt_mul (Nat.two_pow_pos _), Nat.mul_comm, ← total]
        exact value_lt chunk
      · rw [Nat.mod_add_div]
        exact eq_of_value_eq (length_wide _ _) (value_wide_of_lt (value_lt chunk))
    · rintro ⟨t, inside, rfl⟩
      exact ⟨length_wide _ _, by
        rw [value_wide_of_lt (fits inside), Nat.add_mul_mod_self_left, Nat.mod_eq_of_lt small]⟩
  have distinct : Set.InjOn (fun t => wide len (v + 2 ^ bits * t))
      (Finset.range (2 ^ (8 * len - bits)) : Set ℕ) := by
    intro t inside t' inside' same
    rw [Finset.coe_range] at inside inside'
    have values := congrArg value same
    rw [value_wide_of_lt (fits inside), value_wide_of_lt (fits inside')] at values
    exact Nat.eq_of_mul_eq_mul_left (Nat.two_pow_pos bits) (Nat.add_left_cancel values)
  rw [chunks, distinct.ncard_image, Set.ncard_coe_finset, Finset.card_range]

/-- All the strings of a length. -/
theorem Bytes.ncard_strings (len : ℕ) : {chunk : Bytes | chunk.length = len}.ncard = 256 ^ len := by
  have all := Bytes.ncard_chunks (Nat.zero_le (8 * len)) (Nat.one_pos : 0 < 2 ^ 0)
  simpa [Nat.mod_one, pow_mul] using all

/-! ## Numbers in a range -/

namespace Draw

/-- The number in a chunk of the tape, the chunks being as long as the bound and counted from the
start, without the bits above those of the bound. -/
def chunkNumber (bound : ℕ) (tape : Tape) (start i : ℕ) : ℕ :=
  (bytesAt tape (start + i * byteLength bound) (byteLength bound)).value % 2 ^ bitLength bound

/-- The draw gives the number of the first chunk in range and reads no further, and every number in
range is that of equally many chunks. -/
structure SamplesRange (x : Draw ℕ) (bound : ℕ) (inRange : ℕ → Prop) : Prop where
  run_eq_ok_iff : ∀ tape patience start a stop, x.run tape patience start = .ok (a, stop) ↔
    ∃ i < patience, a = chunkNumber bound tape start i ∧ inRange a ∧
      (∀ j < i, ¬inRange (chunkNumber bound tape start j)) ∧
      stop = start + (i + 1) * byteLength bound
  ncard_chunks : ∀ a, inRange a →
    {chunk : Bytes | chunk.length = byteLength bound ∧ chunk.value % 2 ^ bitLength bound = a}.ncard =
      2 ^ (8 * byteLength bound - bitLength bound)

/-- A loop over candidates of the length of the bound, for a range below the bound. -/
theorem samplesRange_firstAccepted {bound : ℕ} {inRange : ℕ → Prop} [DecidablePred inRange]
    (below : ∀ a, inRange a → a < bound) :
    SamplesRange (firstAccepted (number (bitLength bound)) fun k =>
      if inRange k then some k else none) bound inRange := by
  constructor
  · intro tape patience start a stop
    rw [run_firstAccepted_eq_ok_iff (run_number (bitLength bound))]
    simp only [Option.ite_none_right_eq_some, ite_eq_right_iff, reduceCtorEq, imp_false,
      Option.some.injEq, numberAt_eq]
    constructor
    · rintro ⟨i, patient, ⟨suitable, rfl⟩, first, rfl⟩
      exact ⟨i, patient, rfl, suitable, first, rfl⟩
    · rintro ⟨i, patient, rfl, suitable, first, rfl⟩
      exact ⟨i, patient, ⟨suitable, rfl⟩, first, rfl⟩
  · intro a suitable
    refine Bytes.ncard_chunks ?_ ((below a suitable).trans (bitLength_le_iff.mp le_rfl))
    rw [byteLength]
    omega

/-- A number of a range is drawn from some tape with its first candidate. -/
theorem SamplesRange.exists_tape {x : Draw ℕ} {bound : ℕ} {inRange : ℕ → Prop}
    (samples : x.SamplesRange bound inRange) (below : ∀ a, inRange a → a < bound) {a : ℕ}
    (suitable : inRange a) : ∃ tape, ∀ patience, 0 < patience →
      x.run tape patience 0 = .ok (a, byteLength bound) := by
  obtain ⟨tape, drawn⟩ := exists_tape_numberAt (below a suitable)
  refine ⟨tape, fun patience patient => (samples.run_eq_ok_iff _ _ _ _ _).mpr
    ⟨0, patient, ?_, suitable, fun _ none => absurd none (Nat.not_lt_zero _), ?_⟩⟩
  · rw [← drawn, numberAt_eq, chunkNumber, Nat.zero_mul]
    rfl
  · rw [Nat.zero_add, Nat.zero_add, Nat.one_mul]

theorem samplesRange_below {bound : ℕ} (positive : 1 ≤ bound) :
    (below bound).SamplesRange bound (· < bound) := by
  rw [below, if_neg (by omega)]
  exact samplesRange_firstAccepted fun _ small => small

theorem samplesRange_positiveBelow {bound : ℕ} (large : 2 ≤ bound) :
    (positiveBelow bound).SamplesRange bound fun a => 0 < a ∧ a < bound := by
  rw [positiveBelow, if_neg (by omega)]
  simp only [← Nat.pos_iff_ne_zero]
  exact samplesRange_firstAccepted fun _ suitable => suitable.2

/-- A number between two others is the least one and a sample. -/
theorem run_inRange_eq_ok_iff {least greatest : ℕ} (ordered : least ≤ greatest) {tape : Tape}
    {patience start v stop : ℕ} :
    (inRange least greatest).run tape patience start = .ok (v, stop) ↔
      ∃ k, (below (greatest - least + 1)).run tape patience start = .ok (k, stop) ∧
        v = least + k := by
  rw [inRange, if_neg (by omega), run_bind_eq_ok]
  constructor
  · rintro ⟨k, middle, drawn, same⟩
    cases same
    exact ⟨k, drawn, rfl⟩
  · rintro ⟨k, drawn, rfl⟩
    exact ⟨k, stop, drawn, rfl⟩

/-- A number between two others is drawn from some tape with its first candidate. -/
theorem exists_tape_inRange {least greatest v : ℕ} (between : least ≤ v ∧ v ≤ greatest) :
    ∃ tape, ∀ patience, 0 < patience → (inRange least greatest).run tape patience 0 =
      .ok (v, byteLength (greatest - least + 1)) := by
  have samples : (below (greatest - least + 1)).SamplesRange _ _ := samplesRange_below (by omega)
  obtain ⟨tape, drawn⟩ :=
    samples.exists_tape (fun _ small => small) (show v - least < greatest - least + 1 by omega)
  refine ⟨tape, fun patience patient =>
    (run_inRange_eq_ok_iff (between.1.trans between.2)).mpr ⟨_, drawn patience patient, ?_⟩⟩
  omega

/-- What is drawn lies between the two bounds, and everything between them can be drawn. -/
theorem exists_run_inRange_iff {least greatest : ℕ} (ordered : least ≤ greatest) {v : ℕ} :
    (∃ tape patience start stop,
      (inRange least greatest).run tape patience start = .ok (v, stop)) ↔
      least ≤ v ∧ v ≤ greatest := by
  constructor
  · rintro ⟨tape, patience, start, stop, run⟩
    exact (inRange_always ordered).value run
  · intro between
    obtain ⟨tape, run⟩ := exists_tape_inRange between
    exact ⟨tape, 1, 0, _, run 1 Nat.one_pos⟩

end Draw

open Draw in
/-- **Numbers in a range** are those of the first chunk in range.  A number below a bound, with or
without zero, is read from chunks as long as the bound, whose surplus bits are cleared; nothing is
read behind the chunk that is taken, and every number in range is that of equally many of the
chunks.  A number between two bounds is the lower bound and a number below the size of the range, and
every number between them can be drawn, but no other. -/
theorem samplers_take_first_in_range :
    (∀ bound, 1 ≤ bound → (below bound).SamplesRange bound (· < bound)) ∧
    (∀ bound, 2 ≤ bound → (positiveBelow bound).SamplesRange bound fun a => 1 ≤ a ∧ a < bound) ∧
    (∀ len, {chunk : Bytes | chunk.length = len}.ncard = 256 ^ len) ∧
    ∀ least greatest, least ≤ greatest →
      (∀ tape patience start v stop,
        (inRange least greatest).run tape patience start = .ok (v, stop) ↔
          ∃ k, (below (greatest - least + 1)).run tape patience start = .ok (k, stop) ∧
            v = least + k) ∧
      ∀ v, (∃ tape patience start stop,
        (inRange least greatest).run tape patience start = .ok (v, stop)) ↔
          least ≤ v ∧ v ≤ greatest :=
  ⟨fun _ positive => samplesRange_below positive,
    fun _ large => samplesRange_positiveBelow large,
    Bytes.ncard_strings,
    fun _ _ ordered => ⟨fun _ _ _ _ _ => run_inRange_eq_ok_iff ordered,
      fun _ => exists_run_inRange_iff ordered⟩⟩

open Draw in
/-- A bound of ten bits, and a tape whose first chunk is out of range without its surplus bits: the
second one is taken, and 64 of all chunks of two bytes stand for the same number.  Between five and
seven, six can be drawn. -/
theorem samplers_take_first_in_range_below_thousand :
    let tape : Tape := fun i => [0xFF, 0xFF, 0xA1, 0x23].getD i 0
    (1 ≤ 1000 ∧ (below 1000).run tape 2 0 = .ok (0x123, 4)) ∧
      (2 ≤ 1000 ∧ (positiveBelow 1000).run tape 2 0 = .ok (0x123, 4)) ∧
      {chunk : Bytes | chunk.length = 2 ∧ chunk.value % 2 ^ 10 = 0x123}.ncard = 64 ∧
      (5 ≤ 7 ∧ ∃ tape patience start stop, (inRange 5 7).run tape patience start = .ok (6, stop)) := by
  intro tape
  have first : 0x123 = chunkNumber 1000 tape 0 1 := by decide +kernel
  have refused : ∀ j < 1, 1000 ≤ chunkNumber 1000 tape 0 j := by decide +kernel
  obtain ⟨below, positive, -, between⟩ := samplers_take_first_in_range
  refine ⟨⟨by decide, ?_⟩, ⟨by decide, ?_⟩, ?_, by decide, ?_⟩
  · exact ((below 1000 (by decide)).run_eq_ok_iff _ _ _ _ _).mpr ⟨1, by decide, first, by decide,
      fun j earlier => not_lt.mpr (refused j earlier), rfl⟩
  · exact ((positive 1000 (by decide)).run_eq_ok_iff _ _ _ _ _).mpr ⟨1, by decide, first, by decide,
      fun j earlier suitable => not_lt.mpr (refused j earlier) suitable.2, rfl⟩
  · exact (below 1000 (by decide)).ncard_chunks 0x123 (by decide)
  · exact ((between 5 7 (by decide)).2 6).mpr (by decide)

end PublicKeyCrypto
