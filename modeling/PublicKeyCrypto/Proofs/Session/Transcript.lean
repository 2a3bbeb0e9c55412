import PublicKeyCrypto.Proofs.Random.Outcomes
import Mathlib

/-!
# Transcripts of sessions

A session is a sequence of calls of one object, one after the other on one tape.  Its transcript
holds every call as it took place: the object before it, the place from which it could read, and
what became of it.  A call that does not return is the last of its session, since its caller never
gets to make another.

Refusals are the subject.  A call is *decisive* if it is refused at once, before it has read or
changed anything, or else is refused on no tape.  Objects with decisive calls forget their
refusals: without the refused calls a session takes the same course, call by call and byte by byte.
That needs the decision to be made on no byte of the tape, and nothing to be written before it.

## Main Definitions

* `Served`, `transcript` — a call as it took place, and the calls of a session
* `Draw.Decisive` — a call that is refused at once or not at all
* `ForgetsRefusals` — a session takes the same course without its refused calls

## Main Results

* `transcript_append` — a transcript from any of its calls on is a transcript
* `transcript_keeps` — an invariant of the object and of the calls before
* `countP_transcript_le` — a budget that calls of a kind use up
* `forgetsRefusals_of_decisive` — objects with decisive calls forget their refusals
-/

namespace PublicKeyCrypto

variable {σ ρ α β : Type}

/-- The reply with its answer in another form. -/
def Reply.map (f : α → β) (reply : Reply σ α) : Reply σ β := (f <$> reply.1, reply.2)

/-- A call as it took place: the object, the request, where on the tape the call began, and the
reply with the place where it ended, unless it did not return. -/
structure Served (σ ρ α : Type) where
  before : σ
  request : ρ
  start : ℕ
  outcome : Except Halt (Reply σ α × ℕ)

namespace Served

/-- Whether the call returned a value. -/
def granted (c : Served σ ρ α) : Bool :=
  match c.outcome with
  | .ok ((.ok _, _), _) => true
  | _ => false

/-- Whether the call returned an error. -/
def refused (c : Served σ ρ α) : Bool :=
  match c.outcome with
  | .ok ((.error _, _), _) => true
  | _ => false

variable {c : Served σ ρ α}

theorem granted_iff : c.granted = true ↔ ∃ a s stop, c.outcome = .ok ((.ok a, s), stop) := by
  unfold granted
  rcases c.outcome with _ | ⟨⟨_ | _, _⟩, _⟩ <;> simp

theorem refused_iff : c.refused = true ↔ ∃ e s stop, c.outcome = .ok ((.error e, s), stop) := by
  unfold refused
  rcases c.outcome with _ | ⟨⟨_ | _, _⟩, _⟩ <;> simp

end Served

/-- No call is granted and refused. -/
theorem Served.granted_eq_false_of_refused {c : Served σ ρ α} (h : c.refused = true) :
    c.granted = false := by
  obtain ⟨e, s, stop, outcome⟩ := refused_iff.mp h
  simp [granted, outcome]

/-- The calls end in one with the property, but for refusals; the property may speak of the calls
before it. -/
def EndsIn (P : List (Served σ ρ α) → Served σ ρ α → Prop) (calls : List (Served σ ρ α)) : Prop :=
  ∃ before c refusals,
    calls = before ++ c :: refusals ∧ P before c ∧ ∀ r ∈ refusals, r.refused = true

theorem EndsIn.now {P : List (Served σ ρ α) → Served σ ρ α → Prop} {calls : List (Served σ ρ α)}
    {c : Served σ ρ α} (h : P calls c) : EndsIn P (calls ++ [c]) :=
  ⟨calls, c, [], rfl, h, by simp⟩

theorem EndsIn.refused {P : List (Served σ ρ α) → Served σ ρ α → Prop}
    {calls : List (Served σ ρ α)} {r : Served σ ρ α} (h : EndsIn P calls)
    (refused : r.refused = true) : EndsIn P (calls ++ [r]) := by
  obtain ⟨before, c, refusals, rfl, property, all⟩ := h
  refine ⟨before, c, refusals ++ [r], by simp, property, fun r' member => ?_⟩
  rcases List.mem_append.mp member with earlier | last
  · exact all r' earlier
  · rwa [List.mem_singleton.mp last]

variable (call : σ → ρ → Draw (Reply σ α)) (tape : Tape) (patience : ℕ)

/-- The call is what the object does with the request. -/
def Served.Genuine (c : Served σ ρ α) : Prop :=
  c.outcome = (call c.before c.request).run tape patience c.start

/-- The calls of a session, from an object and a place on the tape. -/
def transcript : σ → ℕ → List ρ → List (Served σ ρ α)
  | _, _, [] => []
  | s, start, request :: rest =>
    { before := s, request, start, outcome := (call s request).run tape patience start } ::
      match (call s request).run tape patience start with
      | .ok ((_, s'), stop) => transcript s' stop rest
      | .error _ => []

/-- From the object on every session takes the same course without its refused calls: the calls
that are left find the same objects, read the same bytes and get the same replies. -/
def ForgetsRefusals (s : σ) : Prop :=
  ∀ tape patience start requests,
    let calls := transcript call tape patience s start requests
    let left := calls.filter fun c => !c.refused
    transcript call tape patience s start (left.map Served.request) = left

variable {call tape patience} {s s' : σ} {start stop : ℕ} {request : ρ} {requests : List ρ}

/-- A call that returns, and the calls after it. -/
theorem transcript_cons_of_ok {answer : Except Error α}
    (h : (call s request).run tape patience start = .ok ((answer, s'), stop)) :
    transcript call tape patience s start (request :: requests) =
      { before := s, request, start, outcome := .ok ((answer, s'), stop) } ::
        transcript call tape patience s' stop requests := by
  rw [transcript, h]

/-- A call that does not return is the last one. -/
theorem transcript_cons_of_error {halt : Halt}
    (h : (call s request).run tape patience start = .error halt) :
    transcript call tape patience s start (request :: requests) =
      [{ before := s, request, start, outcome := .error halt }] := by
  rw [transcript, h]

/-- A session of one call. -/
theorem transcript_singleton :
    transcript call tape patience s start [request] =
      [{ before := s, request, start, outcome := (call s request).run tape patience start }] := by
  rw [transcript]
  split <;> rfl

/-! ## Parts of a transcript -/

variable {earlier later : List (Served σ ρ α)} {c : Served σ ρ α}

/-- The first call of a transcript is what the object does with a request, and a transcript follows
it if it returns. -/
theorem transcript_eq_cons (h : transcript call tape patience s start requests = c :: later) :
    c.before = s ∧ c.start = start ∧ c.Genuine call tape patience ∧
      ∀ answer s' stop, c.outcome = .ok ((answer, s'), stop) →
        ∃ rest, later = transcript call tape patience s' stop rest := by
  cases requests with
  | nil => cases h
  | cons request rest =>
      obtain ⟨rfl, rfl⟩ := List.cons.inj h
      refine ⟨rfl, rfl, rfl, fun answer s' stop outcome => ⟨rest, ?_⟩⟩
      dsimp only at outcome
      rw [outcome]

/-- Nothing follows a call that does not return. -/
theorem eq_nil_of_halt (h : transcript call tape patience s start requests = c :: later)
    {halt : Halt} (outcome : c.outcome = .error halt) : later = [] := by
  cases requests with
  | nil => cases h
  | cons request rest =>
      obtain ⟨rfl, ended⟩ := List.cons.inj h
      dsimp only at outcome
      rw [outcome] at ended
      exact ended.symm

/-- **Parts are transcripts.**  A transcript from any of its calls on is the transcript of a session
from the object and the place that were reached. -/
theorem transcript_append (h : transcript call tape patience s start requests = earlier ++ later) :
    ∃ s' start' rest, later = transcript call tape patience s' start' rest := by
  induction earlier generalizing s start requests with
  | nil => exact ⟨s, start, requests, h.symm⟩
  | cons c earlier ih =>
      obtain ⟨-, -, -, follow⟩ := transcript_eq_cons h
      rcases outcome : c.outcome with halt | ⟨⟨answer, s'⟩, stop⟩
      · exact ⟨s, start, [], (List.append_eq_nil_iff.mp (eq_nil_of_halt h outcome)).2⟩
      · obtain ⟨rest, followed⟩ := follow answer s' stop outcome
        exact ih followed.symm

/-- A transcript up to any of its calls is a transcript. -/
theorem transcript_of_append (h : transcript call tape patience s start requests = earlier ++ later) :
    ∃ rest, earlier = transcript call tape patience s start rest := by
  induction earlier generalizing s start requests with
  | nil => exact ⟨[], rfl⟩
  | cons c earlier ih =>
      cases requests with
      | nil => cases h
      | cons request rest =>
          rcases outcome : (call s request).run tape patience start with
            halt | ⟨⟨answer, s'⟩, stop⟩
          · rw [transcript_cons_of_error outcome] at h
            obtain ⟨rfl, ended⟩ := List.cons.inj h
            refine ⟨[request], ?_⟩
            rw [transcript_cons_of_error outcome, (List.append_eq_nil_iff.mp ended.symm).1]
          · rw [transcript_cons_of_ok outcome] at h
            obtain ⟨rfl, followed⟩ := List.cons.inj h
            obtain ⟨rest', same⟩ := ih followed
            refine ⟨request :: rest', ?_⟩
            rw [transcript_cons_of_ok outcome, same]

/-- A stretch of a transcript is a transcript. -/
theorem exists_transcript_of_infix {stretch : List (Served σ ρ α)}
    (h : stretch <:+: transcript call tape patience s start requests) :
    ∃ s' start' rest, stretch = transcript call tape patience s' start' rest := by
  obtain ⟨earlier, later, split⟩ := h
  rw [List.append_assoc] at split
  obtain ⟨s', start', rest, reached⟩ := transcript_append split.symm
  obtain ⟨rest', same⟩ := transcript_of_append reached.symm
  exact ⟨s', start', rest', same⟩

theorem genuine_of_append (h : transcript call tape patience s start requests = earlier ++ c :: later) :
    c.Genuine call tape patience := by
  obtain ⟨s', start', rest, reached⟩ := transcript_append h
  exact (transcript_eq_cons reached.symm).2.2.1

/-- After a call that returned, a transcript goes on from the object and the place that it left. -/
theorem transcript_after (h : transcript call tape patience s start requests = earlier ++ c :: later)
    {answer : Except Error α} (outcome : c.outcome = .ok ((answer, s'), stop)) :
    ∃ rest, later = transcript call tape patience s' stop rest := by
  obtain ⟨s₁, start₁, rest, reached⟩ := transcript_append h
  obtain ⟨-, -, -, follow⟩ := transcript_eq_cons reached.symm
  exact follow answer s' stop outcome

/-- An invariant of the object and of the calls so far, from any calls on. -/
theorem transcript_keeps_from {I : List (Served σ ρ α) → σ → Prop}
    (step : ∀ past c answer s' stop, c.Genuine call tape patience →
      c.outcome = .ok ((answer, s'), stop) → I past c.before → I (past ++ [c]) s')
    {past : List (Served σ ρ α)} (initial : I past s)
    (h : transcript call tape patience s start requests = earlier ++ c :: later) :
    I (past ++ earlier) c.before := by
  induction earlier generalizing s start requests past with
  | nil =>
      obtain ⟨rfl, -⟩ := transcript_eq_cons h
      rwa [List.append_nil]
  | cons d earlier ih =>
      obtain ⟨rfl, -, genuine, follow⟩ := transcript_eq_cons h
      rcases outcome : d.outcome with halt | ⟨⟨answer, s'⟩, stop⟩
      · -- There is no later call after one that does not return.
        cases (List.append_eq_nil_iff.mp (eq_nil_of_halt h outcome)).2
      · obtain ⟨rest, followed⟩ := follow answer s' stop outcome
        have kept := ih (step past d answer s' stop genuine outcome initial) followed.symm
        rwa [List.append_assoc] at kept

/-- **Invariants.**  What a call preserves of the object and of the calls before it holds of every
call of a transcript. -/
theorem transcript_keeps {I : List (Served σ ρ α) → σ → Prop}
    (step : ∀ past c answer s' stop, c.Genuine call tape patience →
      c.outcome = .ok ((answer, s'), stop) → I past c.before → I (past ++ [c]) s')
    (initial : I [] s)
    (h : transcript call tape patience s start requests = earlier ++ c :: later) :
    I earlier c.before := by
  have kept := transcript_keeps_from step initial h
  rwa [List.nil_append] at kept

/-- **Budgets.**  Calls that each use up one of what an object has left are no more than it has left
at the beginning. -/
theorem countP_transcript_le {p : Served σ ρ α → Bool} {left : σ → ℕ}
    (granted : ∀ c, p c = true → c.granted = true)
    (spend : ∀ c ∈ transcript call tape patience s start requests, c.Genuine call tape patience →
      ∀ answer s' stop, c.outcome = .ok ((answer, s'), stop) →
        (if p c = true then 1 else 0) + left s' ≤ left c.before) :
    (transcript call tape patience s start requests).countP p ≤ left s := by
  induction requests generalizing s start with
  | nil => exact Nat.zero_le _
  | cons request rest ih =>
      rcases outcome : (call s request).run tape patience start with
        halt | ⟨⟨answer, s'⟩, stop⟩
      · -- A call that does not return is not granted, so that it does not count.
        rw [transcript_cons_of_error outcome, List.countP_singleton, if_neg]
        · exact Nat.zero_le _
        · intro counted
          obtain ⟨a, s', stop, returned⟩ := Served.granted_iff.mp (granted _ counted)
          cases returned
      · rw [transcript_cons_of_ok outcome] at spend ⊢
        have first := spend _ List.mem_cons_self outcome.symm answer s' stop rfl
        have others := ih fun c hc => spend c (List.mem_cons_of_mem _ hc)
        rw [List.countP_cons]
        dsimp only at first
        omega

/-! ## Refusals -/

/-- The call of an object is refused at once, without reading the tape and with the object as it
was, or it is refused on no tape and leaves an object with the property. -/
def Draw.Decisive (x : Draw (Reply σ α)) (s : σ) (I : σ → Prop) : Prop :=
  (∃ e, x = pure (.error e, s)) ∨ x.Yields fun reply => (∃ a, reply.1 = .ok a) ∧ I reply.2

variable {I : σ → Prop}

/-- A reply that needs no tape is decisive if a refusal comes with the object as it was. -/
theorem Draw.decisive_pure {reply : Reply σ α} (refusal : ∀ e, reply.1 = .error e → reply.2 = s)
    (kept : ∀ a, reply.1 = .ok a → I reply.2) : (pure reply : Draw (Reply σ α)).Decisive s I := by
  obtain ⟨e | a, s'⟩ := reply
  · obtain rfl : s' = s := refusal e rfl
    exact .inl ⟨e, rfl⟩
  · exact .inr (Draw.ensures_pure ⟨⟨a, rfl⟩, kept a rfl⟩)

/-- The form of the answers does not matter. -/
theorem Draw.Decisive.map {x : Draw (Reply σ α)} (h : x.Decisive s I) (f : α → β) :
    (Reply.map f <$> x).Decisive s I := by
  rcases h with ⟨e, rfl⟩ | granted
  · exact .inl ⟨e, rfl⟩
  · refine .inr (Draw.ensures_map (granted.mono ?_))
    rintro ⟨answer, s'⟩ ⟨⟨a, rfl⟩, kept⟩
    exact ⟨⟨f a, rfl⟩, kept⟩

/-- A decisive call that is refused has read nothing and changed nothing. -/
theorem Draw.Decisive.of_error {x : Draw (Reply σ α)} (h : x.Decisive s I) {e : Error}
    (hx : x.run tape patience start = .ok ((.error e, s'), stop)) : s' = s ∧ stop = start := by
  rcases h with ⟨e', rfl⟩ | granted
  · cases hx
    exact ⟨rfl, rfl⟩
  · obtain ⟨⟨a, impossible⟩, -⟩ := granted.value hx
    cases impossible

/-- A decisive call keeps the property of the object, whatever it answers. -/
theorem Draw.Decisive.keeps {x : Draw (Reply σ α)} (h : x.Decisive s I) (hs : I s)
    {answer : Except Error α} (hx : x.run tape patience start = .ok ((answer, s'), stop)) :
    I s' := by
  rcases h with ⟨e', rfl⟩ | granted
  · cases hx
    exact hs
  · exact (granted.value hx).2

variable (decisive : ∀ s, I s → ∀ request, (call s request).Decisive s I)
include decisive

/-- A refused call of a transcript has left its object and its place on the tape. -/
theorem outcome_of_refused (hs : I s) (h : c ∈ transcript call tape patience s start requests)
    (refused : c.refused = true) : ∃ e, c.outcome = .ok ((.error e, c.before), c.start) := by
  obtain ⟨earlier, later, split⟩ := List.append_of_mem h
  have kept : I c.before := transcript_keeps (I := fun _ s => I s)
    (fun _ c _ _ _ genuine outcome hs =>
      (decisive c.before hs c.request).keeps hs (genuine.symm.trans outcome)) hs split
  obtain ⟨e, s', stop, outcome⟩ := Served.refused_iff.mp refused
  obtain ⟨rfl, rfl⟩ := (decisive c.before kept c.request).of_error
    ((genuine_of_append split).symm.trans outcome)
  exact ⟨e, outcome⟩

/-- After refused calls only, a call finds the object and the place on the tape that they found. -/
theorem before_of_refusals (hs : I s)
    (h : transcript call tape patience s start requests = earlier ++ c :: later)
    (refused : ∀ r ∈ earlier, r.refused = true) : c.before = s ∧ c.start = start := by
  induction earlier generalizing s start requests with
  | nil =>
      obtain ⟨before, began, -⟩ := transcript_eq_cons h
      exact ⟨before, began⟩
  | cons r earlier ih =>
      have member : r ∈ transcript call tape patience s start requests := by simp [h]
      obtain ⟨e, outcome⟩ :=
        outcome_of_refused decisive hs member (refused r List.mem_cons_self)
      obtain ⟨before, began, -, follow⟩ := transcript_eq_cons h
      subst before began
      obtain ⟨rest, followed⟩ := follow _ _ _ outcome
      exact ih hs followed.symm fun r' hr' => refused r' (List.mem_cons_of_mem r hr')

/-- **Objects with decisive calls forget their refusals.**  The induction is on the requests.  A
refused call is taken out where it stands, since the next call finds what it would have found. -/
theorem forgetsRefusals_of_decisive (hs : I s) : ForgetsRefusals call s := by
  intro tape patience start requests
  dsimp only
  induction requests generalizing s start with
  | nil => rfl
  | cons request rest ih =>
      rcases outcome : (call s request).run tape patience start with
        halt | ⟨⟨e | a, s'⟩, stop⟩
      · rw [transcript_cons_of_error outcome]
        exact transcript_cons_of_error outcome
      · obtain ⟨rfl, rfl⟩ := (decisive s hs request).of_error outcome
        rw [transcript_cons_of_ok outcome]
        exact ih hs stop
      · rw [transcript_cons_of_ok outcome]
        refine (transcript_cons_of_ok outcome).trans ?_
        rw [ih ((decisive s hs request).keeps hs outcome) stop]
        rfl

end PublicKeyCrypto
