import PublicKeyCrypto.Proofs.Session.SetUp
import Mathlib

/-!
# Sessions that start anew

A set-up that is taken starts a session anew: every call from then on is answered as by an object
that has just been constructed and is set up in the same way.  Nothing shows of the calls before,
refused ones included, neither in an answer nor in the bytes that are read.

Two views of the object carry the proof.  Its *options* were fixed when it was constructed, and no
call changes them.  What a caller can *look* at decides what every call does.  A set-up that is
taken makes all of the second out of the first and its own arguments.  For most objects the second
view is the whole object.  Signers are the exception: they keep the nonce source of their last
signature, which no call uses again.

## Main Definitions

* `Served.seen` — a call as its caller sees it
* `StartsAnew` — every set-up that is taken starts the session anew
* `Overwrites` — a set-up that depends on the options only, if it is taken
* `SetAnew` — objects with such set-ups

## Main Results

* `seen_transcript_cons_eq` — two sessions look the same if their first calls do
* `startsAnew_of_setAnew` — objects with such set-ups start anew
-/

namespace PublicKeyCrypto

variable {σ ρ α β τ κ : Type}

/-- The reply with the object as far as it is looked at. -/
def Reply.seen (look : σ → τ) (reply : Reply σ α) : Reply τ α := (reply.1, look reply.2)

/-- Another form of the answers does not matter to what is seen of the object. -/
theorem Reply.seen_map (look : σ → τ) (f : α → β) (reply : Reply σ α) :
    Reply.seen look (reply.map f) = (Reply.seen look reply).map f := rfl

/-- What a caller sees of a call: the request, the place on the tape, and what became of it, with
the object that was left as far as it is looked at. -/
def Served.seen (look : σ → τ) (c : Served σ ρ α) : ρ × ℕ × Except Halt (Reply τ α × ℕ) :=
  (c.request, c.start, (fun reached => (Reply.seen look reached.1, reached.2)) <$> c.outcome)

/-- Sessions with the object start anew with every set-up that is taken: from that call on they look
like sessions in which it is the first call, on the same place of the tape. -/
def StartsAnew (sets : ρ → Bool) (look : σ → τ) (call : σ → ρ → Draw (Reply σ α)) (s : σ) : Prop :=
  ∀ tape patience start requests earlier c later,
    transcript call tape patience s start requests = earlier ++ c :: later →
    sets c.request = true → c.granted = true →
      (transcript call tape patience s c.start (requests.drop earlier.length)).map
        (Served.seen look) = (c :: later).map (Served.seen look)

/-- A set-up that changes no option.  If it is taken, it gives and leaves the same for all objects
with the same options, as far as they are looked at. -/
structure Overwrites (look : σ → τ) (options : σ → κ) (set : σ → Reply σ Unit) : Prop where
  kept : ∀ s, options (set s).2 = options s
  taken : ∀ {s t}, options s = options t → (set s).1 = .ok () →
    Reply.seen look (set s) = Reply.seen look (set t)

/-- Objects with such set-ups. -/
structure SetAnew (sets : ρ → Bool) (look : σ → τ) (options : σ → κ)
    (call : σ → ρ → Draw (Reply σ α)) : Prop where
  /-- A set-up reads nothing. -/
  setUp : ∀ {request}, sets request = true → ∃ (answer : α) (set : σ → Reply σ Unit),
    Overwrites look options set ∧
      ∀ s, call s request = pure (Reply.map (fun _ => answer) (set s))
  /-- A use changes no option. -/
  use : ∀ (s) {request}, sets request = false →
    (call s request).Yields fun reply => options reply.2 = options s
  /-- Objects that look the same do the same. -/
  decided : ∀ {s t}, look s = look t → ∀ request,
    Reply.seen look <$> call s request = Reply.seen look <$> call t request

variable {call : σ → ρ → Draw (Reply σ α)} {tape : Tape} {patience start stop : ℕ}

/-- From any of its calls on, a transcript is that of the requests that are left. -/
theorem transcript_drop {s : σ} {requests : List ρ} {earlier later : List (Served σ ρ α)}
    {c : Served σ ρ α}
    (h : transcript call tape patience s start requests = earlier ++ c :: later) :
    transcript call tape patience c.before c.start (requests.drop earlier.length) = c :: later := by
  induction earlier generalizing s start requests with
  | nil =>
      obtain ⟨rfl, rfl, -⟩ := transcript_eq_cons h
      exact h
  | cons d earlier ih =>
      cases requests with
      | nil => cases h
      | cons request rest =>
          rcases outcome : (call s request).run tape patience start with
            halt | ⟨⟨answer, s'⟩, stop⟩
          · -- There is no later call after one that does not return.
            rw [transcript_cons_of_error outcome] at h
            cases (List.append_eq_nil_iff.mp (List.cons.inj h).2.symm).2
          · rw [transcript_cons_of_ok outcome] at h
            exact ih (List.cons.inj h).2

/-- Calls of two objects that look the same on every tape end in the same way. -/
theorem seen_run_eq {look : σ → τ} {x y : Draw (Reply σ α)}
    (same : Reply.seen look <$> x = Reply.seen look <$> y) (tape : Tape) (patience start : ℕ) :
    (fun reached => (Reply.seen look reached.1, reached.2)) <$> x.run tape patience start =
      (fun reached => (Reply.seen look reached.1, reached.2)) <$> y.run tape patience start := by
  have runs := congrArg (fun z => z.run tape patience start) same
  rw [Draw.run_map, Draw.run_map] at runs
  revert runs
  cases x.run tape patience start <;> cases y.run tape patience start <;> exact id

/-! ## Set-ups -/

/-- A set-up that is never taken changes nothing. -/
theorem overwrites_of_refusal {look : σ → τ} {options : σ → κ} {set : σ → Reply σ Unit}
    (h : ∀ s, ∃ e, set s = (.error e, s)) : Overwrites look options set where
  kept s := by
    obtain ⟨e, refused⟩ := h s
    rw [refused]
  taken {s t} _ taken := by
    obtain ⟨e, refused⟩ := h s
    rw [refused] at taken
    cases taken

/-- A set-up that is always taken depends on the options only. -/
theorem overwrites_of_total {options : σ → κ} {set : σ → σ}
    (kept : ∀ s, options (set s) = options s)
    (all : ∀ {s t}, options s = options t → set s = set t) :
    Overwrites id options fun s => ((.ok (), set s) : Reply σ Unit) :=
  ⟨kept, fun same _ => congrArg (Prod.mk (Except.ok ())) (all same)⟩

/-- If all of the object is looked at, a set-up that is taken gives equal replies. -/
theorem Overwrites.eq_of_taken {options : σ → κ} {set : σ → Reply σ Unit} {s t : σ}
    (h : Overwrites id options set) (same : options s = options t) (taken : (set s).1 = .ok ()) :
    set s = set t := h.taken same taken

/-- If all of the object is looked at, it decides what its calls do. -/
theorem setAnew_of_whole {sets : ρ → Bool} {options : σ → κ}
    (setUp : ∀ {request}, sets request = true → ∃ (answer : α) (set : σ → Reply σ Unit),
      Overwrites id options set ∧
        ∀ s, call s request = pure (Reply.map (fun _ => answer) (set s)))
    (use : ∀ (s) {request}, sets request = false →
      (call s request).Yields fun reply => options reply.2 = options s) :
    SetAnew sets id options call where
  setUp := setUp
  use := use
  decided := by
    rintro s t rfl request
    rfl

/-! ## Sessions -/

namespace SetAnew

variable {sets : ρ → Bool} {look : σ → τ} {options : σ → κ} {s t : σ} {request : ρ}
variable (h : SetAnew sets look options call)
include h

/-- No call changes an option. -/
theorem kept (s : σ) (request : ρ) :
    (call s request).Yields fun reply => options reply.2 = options s := by
  cases setup : sets request with
  | false => exact h.use s setup
  | true =>
      obtain ⟨answer, set, overwrites, reply⟩ := h.setUp setup
      rw [reply]
      exact Draw.ensures_pure (overwrites.kept s)

/-- A set-up that is taken looks the same for all objects with the same options. -/
theorem taken (same : options s = options t) (setup : sets request = true) {a : α} {s' : σ}
    (granted : (call s request).run tape patience start = .ok ((.ok a, s'), stop)) :
    Reply.seen look <$> call s request = Reply.seen look <$> call t request := by
  obtain ⟨answer, set, overwrites, reply⟩ := h.setUp setup
  have taken : (set s).1 = .ok () := by
    rcases refused : (set s).1 with e | ⟨⟩
    · rw [reply, Reply.map, refused] at granted
      cases granted
    · rfl
  rw [reply, reply, map_pure, map_pure, Reply.seen_map, Reply.seen_map,
    overwrites.taken same taken]

/-- **Two sessions** look the same if their first calls do.  The induction is on the other requests:
a call leaves objects that look the same, and so the next calls do. -/
theorem seen_transcript_cons_eq (rest : List ρ)
    (first : Reply.seen look <$> call s request = Reply.seen look <$> call t request) :
    (transcript call tape patience s start (request :: rest)).map (Served.seen look) =
      (transcript call tape patience t start (request :: rest)).map (Served.seen look) := by
  induction rest generalizing s t start request with
  | nil =>
      rw [transcript_singleton, transcript_singleton]
      exact congrArg (fun outcome => [(request, start, outcome)]) (seen_run_eq first _ _ _)
  | cons next rest ih =>
      have same := seen_run_eq first tape patience start
      rcases outcome : (call s request).run tape patience start with
        halt | ⟨⟨answer, s'⟩, stop⟩
      · rcases outcome' : (call t request).run tape patience start with halt' | reached
        · rw [outcome, outcome'] at same
          cases same
          rw [transcript_cons_of_error outcome, transcript_cons_of_error outcome']
          rfl
        · rw [outcome, outcome'] at same
          cases same
      · rcases outcome' : (call t request).run tape patience start with
          halt' | ⟨⟨answer', t'⟩, stop'⟩
        · rw [outcome, outcome'] at same
          cases same
        · rw [outcome, outcome'] at same
          obtain ⟨replies, rfl⟩ := Prod.mk.inj (Except.ok.inj same)
          obtain ⟨rfl, looks⟩ := Prod.mk.inj replies
          rw [transcript_cons_of_ok outcome, transcript_cons_of_ok outcome', List.map_cons,
            List.map_cons, ih (h.decided looks next)]
          exact congrArg (fun seen => (request, start, Except.ok ((answer, seen), stop)) :: _) looks

end SetAnew

/-- **Sessions start anew.**  The options are those of the object that was constructed, so that a
set-up that is taken looks the same for both, and then so does everything after it. -/
theorem startsAnew_of_setAnew {sets : ρ → Bool} {look : σ → τ} {options : σ → κ}
    (h : SetAnew sets look options call) (s : σ) : StartsAnew sets look call s := by
  intro tape patience start requests earlier c later split setup granted
  have same : options c.before = options s :=
    transcript_keeps (I := fun _ t => options t = options s)
      (fun _ d _ _ _ genuine outcome kept =>
        ((h.kept d.before d.request).value (genuine.symm.trans outcome)).trans kept) rfl split
  have left := transcript_drop split
  obtain ⟨request, rest, requests_eq⟩ :
      ∃ request rest, requests.drop earlier.length = request :: rest := by
    cases dropped : requests.drop earlier.length with
    | nil =>
        rw [dropped] at left
        cases left
    | cons request rest => exact ⟨request, rest, rfl⟩
  rw [requests_eq] at left ⊢
  obtain rfl : request = c.request := by
    rw [transcript] at left
    rw [← (List.cons.inj left).1]
  obtain ⟨a, s', stop, outcome⟩ := Served.granted_iff.mp granted
  have genuine := (genuine_of_append split).symm.trans outcome
  rw [← left]
  exact (h.seen_transcript_cons_eq rest (h.taken same setup genuine)).symm

end PublicKeyCrypto
