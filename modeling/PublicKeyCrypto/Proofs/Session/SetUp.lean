import PublicKeyCrypto.Proofs.Session.Transcript
import Mathlib

/-!
# Set-ups that are rejected

Some calls set an object up, and the others use it as it was set up.  A set-up can be rejected.  If
it has overwritten a part of the object by then, the object is made of two set-ups that do not
belong together, until the next set-up that is taken overwrites all of it.

So a rejected set-up is not always forgotten.  It is if nothing uses the object before it is set up
again: then the session takes the same course without its rejected set-ups
(`forgetsSettled_of_setsUp`).  What carries the proof is a relation between the object and the one
that the shorter session has: they agree but for what set-ups overwrite, and they are equal from
every set-up that is taken to the next one that disturbs the object.

## Main Definitions

* `ForgetsRejections` — sessions give the same answers without their rejected set-ups
* `Served.Disturbs`, `Settled` — a rejected set-up that left its mark, and calls that have removed
  all such marks
* `SameCourse`, `ForgetsSettled` — and so do sessions that use a settled object only, object and
  tape included
* `SetsUp` — what set-ups overwrite, and that uses change nothing

## Main Results

* `forgetsSettled_of_setsUp` — objects that are set up forget what is settled
-/

namespace PublicKeyCrypto

variable {σ ρ α : Type}

/-- Whether the reply is a refusal. -/
def Reply.refused (reply : Reply σ α) : Bool :=
  match reply.1 with
  | .error _ => true
  | .ok _ => false

@[simp] theorem Reply.refused_error (e : Error) (s : σ) :
    Reply.refused ((.error e, s) : Reply σ α) = true := rfl

@[simp] theorem Reply.refused_ok (a : α) (s : σ) :
    Reply.refused ((.ok a, s) : Reply σ α) = false := rfl

namespace Served

/-- What a caller sees of a call: the answer, unless there is none. -/
def answer (c : Served σ ρ α) : Except Halt (Except Error α) :=
  (fun reached => reached.1.1) <$> c.outcome

/-- A call as its caller takes part in it: the request, the place on the tape, and what became of
it.  It leaves out the object that was found. -/
def course (c : Served σ ρ α) : ρ × ℕ × Except Halt (Reply σ α × ℕ) :=
  (c.request, c.start, c.outcome)

end Served

section Calls

variable (sets : ρ → Bool) (rejects : σ → ρ → Bool)

namespace Served

/-- Whether the object rejected the call. -/
def rejected (c : Served σ ρ α) : Bool := rejects c.before c.request

/-- Whether the call set the object up. -/
def taken (c : Served σ ρ α) : Bool := sets c.request && !c.rejected rejects

/-- The object rejected the call and is not what it was. -/
def Disturbs (c : Served σ ρ α) : Prop :=
  c.rejected rejects = true ∧ ∃ answer s stop, c.outcome = .ok ((answer, s), stop) ∧ s ≠ c.before

end Served

/-- Behind every set-up that was rejected and disturbed the object there is one that was taken. -/
def Settled (calls : List (Served σ ρ α)) : Prop :=
  ∀ earlier c later, calls = earlier ++ c :: later → c.Disturbs rejects →
    ∃ d ∈ later, d.taken sets rejects = true

variable (call : σ → ρ → Draw (Reply σ α))

/-- From the object on, every session gives the same answers without its rejected set-ups. -/
def ForgetsRejections (s : σ) : Prop :=
  ∀ tape patience start requests,
    let calls := transcript call tape patience s start requests
    let left := calls.filter fun c => !c.rejected rejects
    (transcript call tape patience s start (left.map Served.request)).map Served.answer =
      left.map Served.answer

/-- What is left of a session from the first object without its rejected set-ups takes the same
course from the second one: the calls make the same requests, read the same bytes and get the same
replies. -/
def SameCourse (tape : Tape) (patience : ℕ) (s t : σ) (start : ℕ) (requests : List ρ) : Prop :=
  let calls := transcript call tape patience s start requests
  let left := calls.filter fun c => !c.rejected rejects
  (transcript call tape patience t start (left.map Served.request)).map Served.course =
    left.map Served.course

/-- From the object on, every session that uses a settled object only takes the same course without
its rejected set-ups. -/
def ForgetsSettled (s : σ) : Prop :=
  ∀ tape patience start requests,
    (∀ earlier c later,
      transcript call tape patience s start requests = earlier ++ c :: later →
      sets c.request = false → Settled sets rejects earlier) →
    SameCourse rejects call tape patience s s start requests

/-- How an object is set up.  Objects that `agree` are the same but for what set-ups overwrite. -/
structure SetsUp (agree : σ → σ → Prop) : Prop where
  /-- A set-up is rejected at once, and what it may have overwritten is overwritten by any other. -/
  rejected : ∀ {s t request}, agree s t → rejects s request = true →
    ∃ e s', call s request = pure (.error e, s') ∧ agree s' t
  /-- A set-up that is taken depends on nothing that set-ups overwrite. -/
  taken : ∀ {s t request}, agree s t → sets request = true → rejects s request = false →
    ∃ answer s', call s request = pure (answer, s') ∧ call t request = pure (answer, s') ∧
      agree s' s'
  /-- A use changes nothing. -/
  used : ∀ s request, sets request = false → (call s request).Yields fun reply => reply.2 = s

end Calls

variable {sets : ρ → Bool} {rejects : σ → ρ → Bool}

theorem Settled.of_cons {c : Served σ ρ α} {calls : List (Served σ ρ α)}
    (h : Settled sets rejects (c :: calls)) : Settled sets rejects calls := by
  rintro earlier d later rfl disturbs
  exact h (c :: earlier) d later rfl disturbs

/-- A call that takes no set-up settles nothing. -/
theorem Settled.of_concat {calls : List (Served σ ρ α)} {c : Served σ ρ α}
    (h : Settled sets rejects (calls ++ [c])) (other : c.taken sets rejects = false) :
    Settled sets rejects calls := by
  rintro earlier d later rfl disturbs
  obtain ⟨d', member, taken⟩ := h earlier d (later ++ [c]) (by simp) disturbs
  rcases List.mem_append.mp member with before | last
  · exact ⟨d', before, taken⟩
  · rw [List.mem_singleton.mp last, other] at taken
    cases taken

/-- A call that disturbs the object is not settled by the calls before it. -/
theorem not_settled_concat {calls : List (Served σ ρ α)} {c : Served σ ρ α}
    (disturbs : c.Disturbs rejects) : ¬Settled sets rejects (calls ++ [c]) := by
  intro settled
  obtain ⟨d, none, -⟩ := settled calls c [] rfl disturbs
  cases none

/-- Calls that end in a set-up that was taken are settled. -/
theorem settled_concat_of_taken (calls : List (Served σ ρ α)) {c : Served σ ρ α}
    (taken : c.taken sets rejects = true) : Settled sets rejects (calls ++ [c]) := by
  intro earlier d later split disturbs
  rcases List.eq_nil_or_concat later with rfl | ⟨before, last, rfl⟩
  · obtain ⟨-, same⟩ := List.append_inj' split rfl
    cases same
    simp [Served.taken, disturbs.1] at taken
  · have ends : calls ++ [c] = earlier ++ d :: before ++ [last] := by simp [split]
    obtain ⟨-, same⟩ := List.append_inj' ends rfl
    cases same
    exact ⟨c, by simp, taken⟩

/-- A session with one use, which is its last call, uses a settled object if all before is
settled. -/
theorem settled_before_use {front earlier later : List (Served σ ρ α)} {last c : Served σ ρ α}
    (setUps : ∀ d ∈ front, sets d.request = true) (settled : Settled sets rejects front)
    (split : front ++ [last] = earlier ++ c :: later) (use : sets c.request = false) :
    Settled sets rejects earlier := by
  rcases List.eq_nil_or_concat later with rfl | ⟨between, d, rfl⟩
  · obtain ⟨rfl, -⟩ := List.append_inj' split rfl
    exact settled
  · have ends : front ++ [last] = earlier ++ c :: between ++ [d] := by simp [split]
    obtain ⟨rfl, -⟩ := List.append_inj' ends rfl
    exact absurd (setUps c (by simp)) (by simp [use])

variable {call : σ → ρ → Draw (Reply σ α)} {agree : σ → σ → Prop} {tape : Tape}
variable {patience start stop : ℕ} {s s' t t' : σ} {request : ρ} {requests : List ρ}
variable {answer : Except Error α}

/-- A rejected call is left out. -/
theorem SameCourse.cons_of_rejected (rejection : rejects s request = true)
    (outcome : (call s request).run tape patience start = .ok ((answer, s'), start))
    (rest : SameCourse rejects call tape patience s' t start requests) :
    SameCourse rejects call tape patience s t start (request :: requests) := by
  unfold SameCourse
  dsimp only
  rw [transcript_cons_of_ok outcome,
    List.filter_cons_of_neg (by simp [Served.rejected, rejection])]
  exact rest

/-- Any other call that returns the same in both sessions is a part of both. -/
theorem SameCourse.cons_of_ok (kept : rejects s request = false)
    (outcome : (call s request).run tape patience start = .ok ((answer, s'), stop))
    (outcome' : (call t request).run tape patience start = .ok ((answer, s'), stop))
    (rest : SameCourse rejects call tape patience s' s' stop requests) :
    SameCourse rejects call tape patience s t start (request :: requests) := by
  unfold SameCourse
  dsimp only
  rw [transcript_cons_of_ok outcome, List.filter_cons_of_pos (by simp [Served.rejected, kept]),
    List.map_cons, transcript_cons_of_ok outcome', List.map_cons, List.map_cons]
  exact congrArg _ rest

/-- A call that does not return is the last one of both sessions. -/
theorem SameCourse.cons_of_error {halt : Halt} (kept : rejects s request = false)
    (outcome : (call s request).run tape patience start = .error halt) :
    SameCourse rejects call tape patience s s start (request :: requests) := by
  unfold SameCourse
  dsimp only
  rw [transcript_cons_of_error outcome,
    List.filter_cons_of_pos (by simp [Served.rejected, kept])]
  exact congrArg _ (transcript_cons_of_error outcome)

/-- A session against one without its rejected set-ups, from objects that agree.  Where the objects
differ, the first session sets its object up before it uses it.  The induction is on the
requests. -/
theorem sameCourse_of_agree (setsUp : SetsUp sets rejects call agree) (agreed : agree s t)
    (settled : ∀ earlier c later,
      transcript call tape patience s start requests = earlier ++ c :: later →
      sets c.request = false → Settled sets rejects earlier ∧
        (s ≠ t → ∃ d ∈ earlier, d.taken sets rejects = true)) :
    SameCourse rejects call tape patience s t start requests := by
  induction requests generalizing s t start with
  | nil => rfl
  | cons request rest ih =>
      cases rejection : rejects s request with
      | true =>
          -- The call is left out; the object may now differ from the other one.
          obtain ⟨e, s', refused, agreed'⟩ := setsUp.rejected agreed rejection
          have outcome : (call s request).run tape patience start =
              .ok ((.error e, s'), start) := by
            rw [refused, Draw.run_pure]
          rw [transcript_cons_of_ok outcome] at settled
          refine .cons_of_rejected rejection outcome
            (ih agreed' fun earlier c later split use => ?_)
          obtain ⟨all, whenOther⟩ := settled (_ :: earlier) c later (congrArg _ split) use
          refine ⟨all.of_cons, fun other => ?_⟩
          by_cases same : s' = s
          · obtain ⟨d, member, taken⟩ := whenOther (same ▸ other)
            rcases List.mem_cons.mp member with rfl | later
            · simp [Served.taken, Served.rejected, rejection] at taken
            · exact ⟨d, later, taken⟩
          · exact all [] _ earlier rfl ⟨rejection, _, _, _, rfl, same⟩
      | false =>
          -- Any other call leaves equal objects, so that only later calls have to be settled.
          have equal : ∀ {answer : Except Error α} {s' : σ} {stop : ℕ},
              (call s request).run tape patience start = .ok ((answer, s'), stop) → agree s' s' →
              SameCourse rejects call tape patience s' s' stop rest := by
            intro answer s' stop outcome agreed'
            rw [transcript_cons_of_ok outcome] at settled
            refine ih agreed' fun earlier c later split use => ?_
            obtain ⟨all, -⟩ := settled (_ :: earlier) c later (congrArg _ split) use
            exact ⟨all.of_cons, fun other => absurd rfl other⟩
          cases setup : sets request with
          | true =>
              obtain ⟨answer, s', taken, taken', agreed'⟩ := setsUp.taken agreed setup rejection
              have outcome : (call s request).run tape patience start =
                  .ok ((answer, s'), start) := by
                rw [taken, Draw.run_pure]
              exact .cons_of_ok rejection outcome (by rw [taken', Draw.run_pure])
                (equal outcome agreed')
          | false =>
              -- A use finds equal objects and leaves them so.
              obtain rfl : s = t := by
                by_contra other
                obtain ⟨d, none, -⟩ := (settled [] _ _ rfl setup).2 other
                cases none
              rcases outcome : (call s request).run tape patience start with
                halt | ⟨⟨answer, s'⟩, stop⟩
              · exact .cons_of_error rejection outcome
              · obtain rfl : s' = s := (setsUp.used s request setup).value outcome
                exact .cons_of_ok rejection outcome outcome (equal outcome agreed)

/-- **Rejections are forgotten** by sessions that use settled objects only. -/
theorem forgetsSettled_of_setsUp (setsUp : SetsUp sets rejects call agree) (agreed : agree s s) :
    ForgetsSettled sets rejects call s :=
  fun _ _ _ _ settled => sameCourse_of_agree setsUp agreed fun earlier c later split use =>
    ⟨settled earlier c later split use, fun other => absurd rfl other⟩

end PublicKeyCrypto
