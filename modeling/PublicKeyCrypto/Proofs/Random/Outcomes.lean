import PublicKeyCrypto.Random.Sampler
import Mathlib

/-!
# Outcomes of draws

What a draw does on every tape is said by one predicate, `Draw.Ensures`: every run that gives no
value halts for an allowed reason, and every value that is given has a property.  Each combinator
has one rule, which concludes the predicate for an arbitrary property; the rule of the retry loop
asks for an invariant of its states.

A loop that uses up its attempts is mostly allowed to halt, since the attempts are a bound of the
model and not of the program.  So there are three instances: `Draw.Always` allows nothing else, and
says that no precondition is broken; `Draw.Yields` allows every halt; and `Draw.Returns`, for what
has no loop, allows none.

## Main Definitions

* `Draw.Ensures`, `Draw.Always`, `Draw.Yields`, `Draw.Returns` — the outcomes of a draw on every
  tape
* `Draw.ReadsNothing` — draws that do not depend on the tape

## Main Results

* `Draw.ensures_untilDone` — a retry loop keeps an invariant until it is done
* `Call.ensures_bind` — a call goes on only after an answer that is no refusal
-/

namespace PublicKeyCrypto

namespace Draw

variable {α β σ : Type} {halts : Halt → Prop}

/-- On every tape, with any patience and from any position, the draw halts for an allowed reason
or gives a value with the property. -/
def Ensures (x : Draw α) (halts : Halt → Prop) (Q : α → Prop) : Prop :=
  ∀ tape patience start,
    match x.run tape patience start with
    | .ok (a, _) => Q a
    | .error halt => halts halt

/-- No run breaks a precondition, and every value that is given has the property. -/
abbrev Always (x : Draw α) (Q : α → Prop) : Prop := x.Ensures (· = .exhausted) Q

/-- Every value that is given has the property. -/
abbrev Yields (x : Draw α) (Q : α → Prop) : Prop := x.Ensures (fun _ => True) Q

/-- Every run gives a value, and it has the property. -/
abbrev Returns (x : Draw α) (Q : α → Prop) : Prop := x.Ensures (fun _ => False) Q

namespace Ensures

variable {x : Draw α} {Q R : α → Prop} {tape : Tape} {patience start : ℕ}

/-- A value that was given has the property. -/
theorem value (h : x.Ensures halts Q) {a : α} {stop : ℕ}
    (hx : x.run tape patience start = .ok (a, stop)) : Q a := by
  have outcome := h tape patience start
  rw [hx] at outcome
  exact outcome

/-- A run that gave no value halted for an allowed reason. -/
theorem halt (h : x.Ensures halts Q) {halt : Halt}
    (hx : x.run tape patience start = .error halt) : halts halt := by
  have outcome := h tape patience start
  rw [hx] at outcome
  exact outcome

/-- A property may be weakened. -/
theorem mono (h : x.Ensures halts Q) (weaken : ∀ a, Q a → R a) : x.Ensures halts R := by
  intro tape patience start
  cases hx : x.run tape patience start with
  | error reason => exact h.halt hx
  | ok reached => exact weaken _ (h.value hx)

/-- More halts may be allowed. -/
theorem mono_halts {halts' : Halt → Prop} (h : x.Ensures halts Q)
    (weaken : ∀ halt, halts halt → halts' halt) : x.Ensures halts' Q := by
  intro tape patience start
  cases hx : x.run tape patience start with
  | error reason => exact weaken _ (h.halt hx)
  | ok reached => exact h.value hx

end Ensures

/-- Values that are given are exactly what `Yields` speaks of. -/
theorem yields_iff {x : Draw α} {Q : α → Prop} :
    x.Yields Q ↔
      ∀ tape patience start a stop, x.run tape patience start = .ok (a, stop) → Q a := by
  refine ⟨fun h tape patience start a stop hx => h.value hx, fun h tape patience start => ?_⟩
  cases hx : x.run tape patience start with
  | error reason => trivial
  | ok reached => exact h tape patience start reached.1 reached.2 hx

/-! ## One rule for each combinator -/

theorem ensures_pure {a : α} {Q : α → Prop} (h : Q a) : (pure a : Draw α).Ensures halts Q :=
  fun _ _ _ => h

theorem ensures_bind {x : Draw α} {f : α → Draw β} {Q : β → Prop}
    (h : x.Ensures halts fun a => (f a).Ensures halts Q) : (x >>= f).Ensures halts Q := by
  intro tape patience start
  rw [run_bind]
  cases hx : x.run tape patience start with
  | error reason => exact h.halt hx
  | ok reached =>
      obtain ⟨a, middle⟩ := reached
      exact h.value hx tape patience middle

@[simp] theorem run_map (f : α → β) (x : Draw α) (tape : Tape) (patience start : ℕ) :
    (f <$> x).run tape patience start =
      match x.run tape patience start with
      | .ok (a, stop) => .ok (f a, stop)
      | .error halt => .error halt := by
  rw [map_eq_pure_bind]
  rfl

/-- A value that was mapped was given. -/
theorem exists_run_of_map {f : α → β} {x : Draw α} {tape : Tape} {patience start stop : ℕ} {b : β}
    (h : (f <$> x).run tape patience start = .ok (b, stop)) :
    ∃ a, x.run tape patience start = .ok (a, stop) ∧ f a = b := by
  rw [run_map] at h
  cases hx : x.run tape patience start with
  | error halt =>
      rw [hx] at h
      cases h
  | ok reached =>
      rw [hx] at h
      cases h
      exact ⟨reached.1, rfl, rfl⟩

theorem ensures_map {x : Draw α} {f : α → β} {Q : β → Prop}
    (h : x.Ensures halts fun a => Q (f a)) : (f <$> x).Ensures halts Q := by
  rw [map_eq_pure_bind]
  exact ensures_bind (h.mono fun a ha => ensures_pure ha)

theorem ensures_bytes {count : ℕ} {Q : Bytes → Prop} (h : ∀ b, b.length = count → Q b) :
    (bytes count).Ensures halts Q := by
  intro tape patience start
  exact h _ (by simp)

/-- The rounds of a retry loop keep an invariant of its states.  The induction is on the rounds
that are left; the patience that each round itself may use stays the same. -/
theorem rounds_outcome {attempt : σ → Draw (Attempt σ α)} {Q : α → Prop}
    (exhaustible : halts .exhausted) (I : σ → Prop)
    (round : ∀ s, I s → (attempt s).Ensures halts fun outcome =>
      match outcome with
      | .again s' => I s'
      | .done a => Q a)
    (tape : Tape) (patience counter : ℕ) {state : σ} (start : ℕ) (kept : I state) :
    match rounds attempt tape patience counter state start with
    | .ok (a, _) => Q a
    | .error halt => halts halt := by
  induction counter generalizing state start with
  | zero =>
      rw [rounds_zero]
      exact exhaustible
  | succ counter ih =>
      rw [rounds_succ]
      cases hround : (attempt state).run tape patience start with
      | error reason => exact (round state kept).halt hround
      | ok reached =>
          obtain ⟨outcome, stop⟩ := reached
          have kept' := (round state kept).value hround
          cases outcome with
          | again state' => exact ih stop kept'
          | done a => exact kept'

/-- A retry loop keeps an invariant of its states; what it gives is what the last round gave. -/
theorem ensures_untilDone {attempt : σ → Draw (Attempt σ α)} {state : σ} {Q : α → Prop}
    (exhaustible : halts .exhausted) (I : σ → Prop) (initial : I state)
    (round : ∀ s, I s → (attempt s).Ensures halts fun outcome =>
      match outcome with
      | .again s' => I s'
      | .done a => Q a) :
    (untilDone attempt state).Ensures halts Q :=
  fun tape patience start => rounds_outcome exhaustible I round tape patience patience start initial

/-- The first accepted candidate has every property that accepted candidates have. -/
theorem ensures_firstAccepted {candidate : Draw α} {accept : α → Option β} {Q : β → Prop}
    (exhaustible : halts .exhausted)
    (h : candidate.Ensures halts fun a => ∀ b, accept a = some b → Q b) :
    (firstAccepted candidate accept).Ensures halts Q := by
  refine ensures_untilDone exhaustible (fun _ => True) trivial fun _ _ => ?_
  refine ensures_bind (h.mono fun a accepted => ensures_pure ?_)
  cases ha : accept a with
  | none => trivial
  | some b => exact accepted b ha

/-- A loop ends at once when its first candidate is accepted. -/
theorem run_firstAccepted {candidate : Draw α} {accept : α → Option β} {tape : Tape}
    {patience start stop : ℕ} {a : α} {b : β} (patient : 0 < patience)
    (drawn : candidate.run tape patience start = .ok (a, stop)) (accepted : accept a = some b) :
    (firstAccepted candidate accept).run tape patience start = .ok (b, stop) := by
  obtain ⟨rest, rfl⟩ : ∃ rest, patience = rest + 1 := ⟨patience - 1, by omega⟩
  rw [firstAccepted, run_untilDone, rounds_succ]
  simp [drawn, accepted]

/-! ## Draws that read nothing -/

/-- The outcome depends on the patience only, and the tape is left where it was. -/
def ReadsNothing (x : Draw α) : Prop :=
  ∀ patience, ∃ outcome : Except Halt α, ∀ tape start,
    x.run tape patience start = outcome.map fun a => (a, start)

theorem readsNothing_pure (a : α) : (pure a : Draw α).ReadsNothing :=
  fun _ => ⟨.ok a, fun _ _ => rfl⟩

theorem readsNothing_bind {x : Draw α} {f : α → Draw β} (hx : x.ReadsNothing)
    (hf : ∀ a, (f a).ReadsNothing) : (x >>= f).ReadsNothing := by
  intro patience
  obtain ⟨first, hfirst⟩ := hx patience
  cases first with
  | error halt =>
      refine ⟨.error halt, fun tape start => ?_⟩
      rw [run_bind, hfirst]
      rfl
  | ok a =>
      obtain ⟨outcome, houtcome⟩ := hf a patience
      refine ⟨outcome, fun tape start => ?_⟩
      rw [run_bind, hfirst]
      exact houtcome tape start

/-- A retry loop reads nothing if none of its rounds does. -/
theorem readsNothing_untilDone {attempt : σ → Draw (Attempt σ α)} (state : σ)
    (round : ∀ s, (attempt s).ReadsNothing) : (untilDone attempt state).ReadsNothing := by
  intro patience
  suffices loop : ∀ counter state, ∃ outcome : Except Halt α, ∀ tape start,
      rounds attempt tape patience counter state start = outcome.map fun a => (a, start) from
    loop patience state
  intro counter
  induction counter with
  | zero => exact fun _ => ⟨.error .exhausted, fun _ _ => rfl⟩
  | succ counter ih =>
      intro state
      obtain ⟨first, hfirst⟩ := round state patience
      rcases first with halt | (state' | a)
      · refine ⟨.error halt, fun tape start => ?_⟩
        rw [rounds_succ, hfirst]
        rfl
      · obtain ⟨outcome, houtcome⟩ := ih state'
        refine ⟨outcome, fun tape start => ?_⟩
        rw [rounds_succ, hfirst]
        exact houtcome tape start
      · refine ⟨.ok a, fun tape start => ?_⟩
        rw [rounds_succ, hfirst]
        rfl

end Draw

/-! ## Calls -/

namespace Call

variable {α β : Type} {halts : Halt → Prop}

@[simp] theorem run_ofExcept (r : Except Error α) : (ofExcept r).run = pure r := rfl

@[simp] theorem run_checked_ok (a : α) : (checked (.ok a)).run = pure (.ok a) := rfl

@[simp] theorem run_lift (x : Draw α) : (liftM x : Call α).run = Except.ok <$> x := rfl

/-- A call goes on only after an answer that is no refusal. -/
theorem ensures_bind {x : Call α} {f : α → Call β} {Q : Except Error β → Prop}
    (h : x.run.Ensures halts fun answer =>
      match answer with
      | .ok a => (f a).run.Ensures halts Q
      | .error e => Q (.error e)) :
    (x >>= f).run.Ensures halts Q := by
  rw [ExceptT.run_bind]
  refine Draw.ensures_bind (h.mono fun answer outcome => ?_)
  cases answer with
  | error e => exact Draw.ensures_pure outcome
  | ok a => exact outcome

/-- A draw within a call is never refused. -/
theorem ensures_lift_bind {x : Draw α} {f : α → Call β} {Q : Except Error β → Prop}
    (h : x.Ensures halts fun a => (f a).run.Ensures halts Q) :
    ((liftM x : Call α) >>= f).run.Ensures halts Q := by
  refine ensures_bind ?_
  rw [run_lift]
  exact Draw.ensures_map h

/-- What follows an answer without reading the tape only has to be computed. -/
theorem ensures_after {x : Call α} {f : α → Except Fault (Except Error β)}
    {Q : Except Error β → Prop}
    (h : x.run.Ensures halts fun answer =>
      match answer with
      | .ok a => ∃ result, f a = .ok result ∧ Q result
      | .error e => Q (.error e)) :
    (do
      let a ← x
      ofExcept (← checked (f a)) : Call β).run.Ensures halts Q := by
  refine ensures_bind (h.mono fun answer outcome => ?_)
  cases answer with
  | error e => exact outcome
  | ok a =>
      obtain ⟨result, computed, property⟩ := outcome
      dsimp only
      rw [computed]
      exact ensures_bind (Draw.ensures_pure (Draw.ensures_pure property))

end Call

/-! ## Samplers -/

namespace Draw

variable {halts : Halt → Prop}

/-- A number of a bit length is drawn without preconditions. -/
theorem number_ensures (bits : ℕ) : (number bits).Ensures halts fun _ => True :=
  ensures_bind (ensures_bytes fun _ _ => ensures_pure trivial)

/-- A positive number below a bound of at least two. -/
theorem positiveBelow_always {bound : ℕ} (h : 2 ≤ bound) :
    (positiveBelow bound).Always fun k => 0 < k ∧ k < bound := by
  rw [positiveBelow, if_neg (by omega)]
  refine ensures_firstAccepted rfl ((number_ensures _).mono fun k _ j accepted => ?_)
  split at accepted
  · next suitable =>
    cases accepted
    exact ⟨Nat.pos_of_ne_zero suitable.1, suitable.2⟩
  · cases accepted

/-- A candidate in range is taken. -/
theorem run_positiveBelow {bound k : ℕ} {tape : Tape} {patience start stop : ℕ}
    (patient : 0 < patience) (positive : 0 < k) (small : k < bound)
    (drawn : (number (bitLength bound)).run tape patience start = .ok (k, stop)) :
    (positiveBelow bound).run tape patience start = .ok (k, stop) := by
  rw [positiveBelow, if_neg (by omega)]
  exact run_firstAccepted patient drawn (if_pos ⟨by omega, small⟩)

end Draw

end PublicKeyCrypto
