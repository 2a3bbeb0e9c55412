import PublicKeyCrypto.Bytes
import PublicKeyCrypto.Error
import PublicKeyCrypto.Fault

/-!
# Drawing from a tape

All randomness is an infinite tape of bytes that is read from left to right. A `Draw` is a
computation that may read the tape. It gets the tape, a bound on the number of attempts of each
of its retry loops, and the position at which it starts to read; it gives a value and the
position at which it stopped.

A draw that does not return says why. Either a retry loop used up its attempts, in which case
more patience may help, or a precondition was broken, in which case nothing helps.

## Main Definitions

* `Tape`, `Draw` — the tape, and computations that read it
* `Draw.bytes` — the next bytes of the tape
* `Draw.untilDone` — the retry loop, on which every loop of unbounded length is built
* `Call` — a draw whose value may be an `Error`
-/

namespace PublicKeyCrypto

/-- The byte at each position. -/
abbrev Tape := Nat → UInt8

/-- Why a computation gave no value. -/
inductive Halt
  /-- A retry loop used up its attempts. -/
  | exhausted
  /-- A precondition was broken. -/
  | fault (broken : Fault)
  deriving DecidableEq, Repr

/-- A computation that reads a tape, with a bound on the attempts of each retry loop, from a
position. -/
def Draw (α : Type) : Type := Tape → (patience : Nat) → (start : Nat) → Except Halt (α × Nat)

/-- One round of a retry loop: another round from the given state, or the result. -/
inductive Attempt (σ α : Type)
  | again (state : σ)
  | done (result : α)

namespace Draw

/-- The outcome on a tape, from a position. -/
def run {α : Type} (x : Draw α) (tape : Tape) (patience start : Nat) : Except Halt (α × Nat) :=
  x tape patience start

instance : Monad Draw where
  pure a := fun _ _ start => .ok (a, start)
  bind x f := fun tape patience start =>
    match x tape patience start with
    | .ok (a, stop) => f a tape patience stop
    | .error halt => .error halt

/-- The next `count` bytes of the tape. -/
def bytes (count : Nat) : Draw Bytes := fun tape _ start =>
  .ok ((List.range count).map fun i => tape (start + i), start + count)

/-- The computation that breaks a precondition. -/
def fail {α : Type} (broken : Fault) : Draw α := fun _ _ _ => .error (.fault broken)

/-- A computation with preconditions that reads nothing. -/
def checked {α : Type} : Except Fault α → Draw α
  | .ok a => pure a
  | .error broken => fail broken

/-- Rounds of `attempt` until one is done, as many as the counter allows. -/
def rounds {σ α : Type} (attempt : σ → Draw (Attempt σ α)) (tape : Tape) (patience : Nat) :
    (counter : Nat) → σ → (start : Nat) → Except Halt (α × Nat)
  | 0, _, _ => .error .exhausted
  | counter + 1, state, start =>
    match attempt state tape patience start with
    | .error halt => .error halt
    | .ok (.done result, stop) => .ok (result, stop)
    | .ok (.again state', stop) => rounds attempt tape patience counter state' stop

/-- The retry loop: rounds of `attempt` from a state, until one is done. -/
def untilDone {σ α : Type} (attempt : σ → Draw (Attempt σ α)) (state : σ) : Draw α :=
  fun tape patience start => rounds attempt tape patience patience state start

/-- The first candidate that is accepted. -/
def firstAccepted {α β : Type} (candidate : Draw α) (accept : α → Option β) : Draw β :=
  untilDone (fun _ => do
    let a ← candidate
    return match accept a with
      | some b => .done b
      | none => .again ()) ()

@[simp] theorem run_pure {α : Type} (a : α) (tape : Tape) (patience start : Nat) :
    (pure a : Draw α).run tape patience start = .ok (a, start) := rfl

@[simp] theorem run_bind {α β : Type} (x : Draw α) (f : α → Draw β) (tape : Tape)
    (patience start : Nat) :
    (x >>= f).run tape patience start =
      match x.run tape patience start with
      | .ok (a, stop) => (f a).run tape patience stop
      | .error halt => .error halt := rfl

@[simp] theorem run_bytes (count : Nat) (tape : Tape) (patience start : Nat) :
    (bytes count).run tape patience start =
      .ok ((List.range count).map fun i => tape (start + i), start + count) := rfl

@[simp] theorem run_fail {α : Type} (broken : Fault) (tape : Tape) (patience start : Nat) :
    (fail broken : Draw α).run tape patience start = .error (.fault broken) := rfl

@[simp] theorem run_checked_ok {α : Type} (a : α) (tape : Tape) (patience start : Nat) :
    (checked (.ok a)).run tape patience start = .ok (a, start) := rfl

@[simp] theorem run_checked_error {α : Type} (broken : Fault) (tape : Tape)
    (patience start : Nat) :
    (checked (.error broken) : Draw α).run tape patience start = .error (.fault broken) := rfl

/-- A sequence returns exactly when its parts return one after the other. -/
theorem run_bind_eq_ok {α β : Type} {x : Draw α} {f : α → Draw β} {tape : Tape}
    {patience start stop : Nat} {b : β} :
    (x >>= f).run tape patience start = .ok (b, stop) ↔
      ∃ a middle, x.run tape patience start = .ok (a, middle) ∧
        (f a).run tape patience middle = .ok (b, stop) := by
  rw [run_bind]
  cases x.run tape patience start with
  | error halt => simp
  | ok reached =>
    obtain ⟨a, middle⟩ := reached
    constructor
    · intro h
      exact ⟨a, middle, rfl, h⟩
    · rintro ⟨a', middle', hx, hf⟩
      cases hx
      exact hf

/-- The retry loop starts with as many rounds as there is patience. -/
theorem run_untilDone {σ α : Type} (attempt : σ → Draw (Attempt σ α)) (state : σ) (tape : Tape)
    (patience start : Nat) :
    (untilDone attempt state).run tape patience start =
      rounds attempt tape patience patience state start := rfl

/-- Without rounds a retry loop is exhausted. -/
theorem rounds_zero {σ α : Type} (attempt : σ → Draw (Attempt σ α)) (state : σ) (tape : Tape)
    (patience start : Nat) :
    rounds attempt tape patience 0 state start = .error .exhausted := rfl

/-- One round of a retry loop, and the rounds after it. -/
theorem rounds_succ {σ α : Type} (attempt : σ → Draw (Attempt σ α)) (counter : Nat) (state : σ)
    (tape : Tape) (patience start : Nat) :
    rounds attempt tape patience (counter + 1) state start =
      match (attempt state).run tape patience start with
      | .error halt => .error halt
      | .ok (.done result, stop) => .ok (result, stop)
      | .ok (.again state', stop) => rounds attempt tape patience counter state' stop := rfl

theorem ext {α : Type} {x y : Draw α}
    (h : ∀ tape patience start, x.run tape patience start = y.run tape patience start) : x = y :=
  funext fun tape => funext fun patience => funext fun start => h tape patience start

instance : LawfulMonad Draw :=
  LawfulMonad.mk' Draw
    (fun x => ext fun tape patience start => by
      show (x >>= pure).run tape patience start = x.run tape patience start
      simp only [run_bind]
      cases x.run tape patience start <;> rfl)
    (fun _ _ => rfl)
    (fun x f g => ext fun tape patience start => by
      simp only [run_bind]
      cases x.run tape patience start <;> rfl)

end Draw

/-- A draw whose value may be a refusal. -/
abbrev Call := ExceptT Error Draw

namespace Call

/-- The call that is refused. -/
def refuse {α : Type} (e : Error) : Call α := throw e

/-- A computation that reads nothing and may be refused. -/
def ofExcept {α : Type} (r : Except Error α) : Call α := ExceptT.mk (pure r)

/-- A computation with preconditions that reads nothing and is never refused. -/
def checked {α : Type} (r : Except Fault α) : Call α := liftM (Draw.checked r)

end Call

end PublicKeyCrypto
