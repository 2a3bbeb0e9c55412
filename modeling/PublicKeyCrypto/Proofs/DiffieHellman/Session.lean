import PublicKeyCrypto.DiffieHellman.Agreement
import PublicKeyCrypto.Proofs.Number.Modular
import PublicKeyCrypto.Proofs.Session.Transcript
import Mathlib

/-!
# Sessions of the agreement MTI/A0

An agreement serves any calls in any order.  Three kinds of call change it: one that sets a private
key, the message of a session, and the shared value of a session.  What each of them finds and
leaves is said once (`call_cases`); every other call is refused at once and leaves everything as
it was (`call_decisive`).

From there the transcript of a new agreement is described by what precedes each state.  In front of
a message stands the call that set the key, and in front of a shared value the message that drew its
exponent, with nothing but refusals in between (`Past`).  That is an invariant of the calls, and the
discipline of sessions is read off from it: an exponent has one place where it can be used, right
after it was drawn, and refusals do not move that place.

## Main Definitions

* `MtiAgreement.Request`, `MtiAgreement.call` — the calls of an agreement
* `MtiAgreement.Sets`, `MtiAgreement.Draws`, `MtiAgreement.Uses` — the calls that are granted
* `MtiAgreement.Opened`, `MtiAgreement.Drawn` — how far the calls have taken a session
* `MtiAgreement.Orderly` — the discipline of the calls

## Main Results

* `MtiAgreement.call_cases` — what a call finds and leaves
* `MtiAgreement.past_before` — what has happened before a call, by the state that it finds
* `MtiAgreement.calls_orderly` — the calls of every new agreement are orderly
-/

namespace PublicKeyCrypto.DiffieHellman

theorem Group.four_le_p (group : Group) : 4 ≤ group.p := by
  have range := group.g_range
  omega

/-- The range of values of a peer. -/
theorem Group.checkValue_eq_ok_iff {group : Group} {y : ℕ} :
    group.checkValue y = .ok () ↔ 2 ≤ y ∧ y ≤ group.p - 2 := by
  have large := group.four_le_p
  unfold checkValue
  split
  · next outside =>
    constructor
    · rintro ⟨⟩
    · omega
  · next inside =>
    constructor
    · omega
    · exact fun _ => rfl

/-- What a private key that was accepted is made of. -/
theorem PrivateKey.make_eq_ok_iff {k : PrivateKey} {x : ℕ} {group : Group} :
    PrivateKey.make x group = .ok k ↔ (1 ≤ x ∧ x ≤ group.p - 2) ∧ k = { x, group } := by
  have large := group.four_le_p
  rw [PrivateKey.make]
  split_ifs with refused
  · refine ⟨fun same => ?_, fun inside => by omega⟩
    cases same
  · refine ⟨fun same => ⟨by omega, (Except.ok.inj same).symm⟩, fun inside => by rw [inside.2]⟩

/-- A peer is accepted if it belongs to the same group and its value is in range. -/
theorem PrivateKey.checkPeer_eq_ok_iff {k : PrivateKey} {peer : PublicKey} :
    k.checkPeer peer = .ok () ↔
      peer.group = k.group ∧ 2 ≤ peer.y ∧ peer.y ≤ k.group.p - 2 := by
  unfold checkPeer
  split
  · next foreign =>
    constructor
    · rintro ⟨⟩
    · exact fun h => absurd h.1.symm foreign
  · next same =>
    rw [Group.checkValue_eq_ok_iff]
    exact (and_iff_right (not_not.mp same).symm).symm

/-- A random private key belongs to the group that it was drawn for. -/
theorem Group.run_generate {group : Group} {tape : Tape} {patience start stop : ℕ} {k : PrivateKey}
    (h : group.generate.run tape patience start = .ok (k, stop)) :
    k = { x := k.x, group } := by
  obtain ⟨x, middle, -, drawn⟩ := Draw.run_bind_eq_ok.mp h
  cases drawn
  rfl

namespace MtiAgreement

/-- A call of an agreement. -/
inductive Request
  | init (key : Key)
  | message
  | agree (peer : PublicKey) (message : ℕ)

/-- What an agreement does with a call.  Setting a key gives nothing, any other call a number. -/
def call (a : MtiAgreement) : Request → Draw (Reply MtiAgreement (Option ℕ))
  | .init key => Reply.map (fun _ => none) <$> pure (a.init key)
  | .message => Reply.map some <$> a.message
  | .agree peer message => Reply.map some <$> pure (a.agree peer message)

/-- A call as it took place. -/
abbrev Call := Served MtiAgreement Request (Option ℕ)

/-! ## The calls that are granted -/

/-- What the checks of a shared value ask for, with the exponent `e` of the session. -/
structure Acceptable (k : PrivateKey) (e : ℕ) (peer : PublicKey) (message : ℕ) : Prop where
  group : peer.group = k.group
  peer_range : 2 ≤ peer.y ∧ peer.y ≤ k.group.p - 2
  message_range : 2 ≤ message ∧ message ≤ k.group.p - 2
  factor_ne_one : peer.y ^ e % k.group.p ≠ 1

/-- The shared value of a session with the key `k` and the exponent `e`. -/
def shared (k : PrivateKey) (e : ℕ) (peer : PublicKey) (message : ℕ) : ℕ :=
  message ^ k.x * peer.y ^ e % k.group.p

/-- The call set the private key `k`. -/
def Sets (c : Call) (k : PrivateKey) : Prop :=
  c.request = .init (.ofPrivate k) ∧ c.outcome = .ok ((.ok none, awaitingMessage k), c.start)

/-- The call drew the exponent `e` for a session with the key `k`, and gave its message. -/
def Draws (tape : Tape) (patience : ℕ) (c : Call) (k : PrivateKey) (e : ℕ) : Prop :=
  c.request = .message ∧ c.before = awaitingMessage k ∧ ∃ stop,
    k.group.generate.run tape patience c.start = .ok ({ x := e, group := k.group }, stop) ∧
    c.outcome = .ok
      ((.ok (some (k.group.g ^ e % k.group.p)), awaitingAgreement k (Bytes.minimal e)), stop)

/-- The call gave the shared value of a session with the key `k` and the exponent `e`. -/
def Uses (c : Call) (k : PrivateKey) (e : ℕ) : Prop :=
  ∃ peer message, c.request = .agree peer message ∧ Acceptable k e peer message ∧
    c.outcome = .ok ((.ok (some (shared k e peer message)), done k), c.start)

/-- What is given for a peer and its message, and when. -/
theorem agree_eq_ok_iff {k : PrivateKey} {ephemeral : Bytes} {peer : PublicKey} {message z : ℕ}
    {a : MtiAgreement} :
    (awaitingAgreement k ephemeral).agree peer message = (.ok z, a) ↔
      Acceptable k ephemeral.value peer message ∧ z = shared k ephemeral.value peer message ∧
        a = done k := by
  have value : powMod message k.x k.group.p * powMod peer.y ephemeral.value k.group.p %
      k.group.p = shared k ephemeral.value peer message := by
    rw [powMod_eq, powMod_eq, ← Nat.mul_mod]
    rfl
  unfold agree
  dsimp only
  cases accepted : k.checkPeer peer with
  | error e =>
      have refused : ¬Acceptable k ephemeral.value peer message := by
        intro h
        have := PrivateKey.checkPeer_eq_ok_iff.mpr ⟨h.group, h.peer_range⟩
        rw [accepted] at this
        cases this
      simp [bind, Except.bind, refused]
  | ok _ =>
      obtain ⟨group, peer_range⟩ := PrivateKey.checkPeer_eq_ok_iff.mp accepted
      cases inside : k.group.checkValue message with
      | error e =>
          have refused : ¬Acceptable k ephemeral.value peer message := by
            intro h
            have := Group.checkValue_eq_ok_iff.mpr h.message_range
            rw [inside] at this
            cases this
          simp [bind, Except.bind, refused]
      | ok _ =>
          have message_range := Group.checkValue_eq_ok_iff.mp inside
          by_cases factor : powMod peer.y ephemeral.value k.group.p = 1
          · have refused : ¬Acceptable k ephemeral.value peer message := fun h =>
              h.factor_ne_one (powMod_eq .. ▸ factor)
            simp [bind, Except.bind, factor, refused]
          · have acceptable : Acceptable k ephemeral.value peer message :=
              ⟨group, peer_range, message_range, powMod_eq .. ▸ factor⟩
            simp [bind, Except.bind, pure, Except.pure, factor, value, acceptable, eq_comm]

/-- A shared value that is refused leaves the agreement as it was. -/
theorem agree_of_error {a : MtiAgreement} {peer : PublicKey} {message : ℕ} {e : Error}
    (h : (a.agree peer message).1 = .error e) : (a.agree peer message).2 = a := by
  cases a with
  | idle | awaitingMessage | done => rfl
  | awaitingAgreement k ephemeral =>
      unfold agree at h ⊢
      dsimp only at h ⊢
      split at h
      · rfl
      · cases h

/-- **Refusals come first.**  A call of an agreement is refused at once or not at all. -/
theorem call_decisive (a : MtiAgreement) (request : Request) :
    (a.call request).Decisive a fun _ => True := by
  cases request with
  | init key =>
      refine Draw.Decisive.map (Draw.decisive_pure ?_ fun _ _ => trivial) _
      cases key with
      | ofPrivate k => rintro _ ⟨⟩
      | ofPublic k => exact fun _ _ => rfl
  | message =>
      refine Draw.Decisive.map ?_ _
      cases a with
      | idle | awaitingAgreement | done => exact .inl ⟨_, rfl⟩
      | awaitingMessage k =>
          refine .inr (Draw.yields_iff.mpr fun tape patience start reply stop h => ?_)
          obtain ⟨ephemeral, middle, -, given⟩ := Draw.run_bind_eq_ok.mp h
          cases given
          exact ⟨⟨_, rfl⟩, trivial⟩
  | agree peer message =>
      refine Draw.Decisive.map (Draw.decisive_pure (fun e h => ?_) fun _ _ => trivial) _
      exact agree_of_error h

variable {tape : Tape} {patience : ℕ} {c : Call}

/-- **What a call does.**  It is refused and leaves everything as it was, or it sets a key, or draws
the exponent of a session that has one, or uses the exponent that has been drawn. -/
theorem call_cases {before a : MtiAgreement} {request : Request} {start stop : ℕ}
    {answer : Except Error (Option ℕ)}
    (h : (before.call request).run tape patience start = .ok ((answer, a), stop)) :
    (∃ e, answer = .error e ∧ a = before ∧ stop = start) ∨
      (∃ k, request = .init (.ofPrivate k) ∧ answer = .ok none ∧ a = awaitingMessage k ∧
        stop = start) ∨
      (∃ k e, request = .message ∧ before = awaitingMessage k ∧
        k.group.generate.run tape patience start = .ok ({ x := e, group := k.group }, stop) ∧
        answer = .ok (some (k.group.g ^ e % k.group.p)) ∧
        a = awaitingAgreement k (Bytes.minimal e)) ∨
      ∃ k ephemeral peer message, request = .agree peer message ∧
        before = awaitingAgreement k ephemeral ∧ Acceptable k ephemeral.value peer message ∧
        answer = .ok (some (shared k ephemeral.value peer message)) ∧ a = done k ∧
        stop = start := by
  cases answer with
  | error e =>
      obtain ⟨rfl, rfl⟩ := (call_decisive before request).of_error h
      exact .inl ⟨e, rfl, rfl, rfl⟩
  | ok v =>
      refine .inr ?_
      cases request with
      | init key =>
          obtain ⟨reply, replied, same⟩ := Draw.exists_run_of_map h
          cases replied
          cases key with
          | ofPrivate k =>
              cases same
              exact .inl ⟨k, rfl, rfl, rfl, rfl⟩
          | ofPublic k => cases same
      | message =>
          obtain ⟨reply, replied, same⟩ := Draw.exists_run_of_map h
          cases before with
          | idle | awaitingAgreement | done =>
              cases replied
              cases same
          | awaitingMessage k =>
              obtain ⟨⟨e, group⟩, middle, drawn, given⟩ := Draw.run_bind_eq_ok.mp replied
              cases given
              cases same
              obtain rfl : group = k.group := congrArg PrivateKey.group (Group.run_generate drawn)
              refine .inr (.inl ⟨k, e, rfl, rfl, drawn, ?_, rfl⟩)
              simp only [PrivateKey.publicKey, powMod_eq]
      | agree peer message =>
          obtain ⟨⟨answer, a'⟩, replied, same⟩ := Draw.exists_run_of_map h
          cases before with
          | idle | awaitingMessage | done =>
              cases replied
              cases same
          | awaitingAgreement k ephemeral =>
              obtain ⟨agreed, rfl⟩ := Prod.mk.inj (Except.ok.inj replied)
              cases answer with
              | error e => cases same
              | ok z =>
                  cases same
                  obtain ⟨acceptable, rfl, rfl⟩ := agree_eq_ok_iff.mp agreed
                  exact .inr (.inr ⟨k, ephemeral, peer, message, rfl, rfl, acceptable, rfl, rfl,
                    rfl⟩)

/-- What a call of a session leaves: everything as it was if it is refused, or else the state after
the granted call that it is. -/
theorem step_cases {answer : Except Error (Option ℕ)} {a : MtiAgreement} {stop : ℕ}
    (genuine : c.Genuine call tape patience) (outcome : c.outcome = .ok ((answer, a), stop)) :
    (c.refused = true ∧ a = c.before) ∨
      (∃ k, Sets c k ∧ a = awaitingMessage k) ∨
      (∃ k e, Draws tape patience c k e ∧ a = awaitingAgreement k (Bytes.minimal e)) ∨
      ∃ k ephemeral, c.before = awaitingAgreement k ephemeral ∧ Uses c k ephemeral.value ∧
        a = done k := by
  rcases call_cases (genuine.symm.trans outcome) with
    ⟨e, rfl, same, -⟩ | ⟨k, request, rfl, rfl, rfl⟩ | ⟨k, e, request, before, drawn, rfl, rfl⟩ |
    ⟨k, b, peer, message, request, before, acceptable, rfl, rfl, rfl⟩
  · exact .inl ⟨Served.refused_iff.mpr ⟨e, a, stop, outcome⟩, same⟩
  · exact .inr (.inl ⟨k, ⟨request, outcome⟩, rfl⟩)
  · exact .inr (.inr (.inl ⟨k, e, ⟨request, before, stop, drawn, outcome⟩, rfl⟩))
  · exact .inr (.inr (.inr ⟨k, b, before, ⟨peer, message, request, acceptable, outcome⟩, rfl⟩))

/-! ## Kinds of granted calls -/

/-- The call set a key. -/
def begins (c : Call) : Bool := c.granted && c.request matches .init _

/-- The call gave a message. -/
def sends (c : Call) : Bool := c.granted && c.request matches .message

/-- The call gave a shared value. -/
def agrees (c : Call) : Bool := c.granted && c.request matches .agree _ _

theorem Sets.begins {k : PrivateKey} (h : Sets c k) : begins c = true := by
  obtain ⟨request, outcome⟩ := h
  simp [MtiAgreement.begins, Served.granted, request, outcome]

theorem Sets.not_sends {k : PrivateKey} (h : Sets c k) : sends c = false := by
  simp [sends, h.1]

theorem Sets.not_agrees {k : PrivateKey} (h : Sets c k) : agrees c = false := by
  simp [agrees, h.1]

theorem Draws.not_agrees {k : PrivateKey} {e : ℕ} (h : Draws tape patience c k e) :
    agrees c = false := by
  simp [agrees, h.1]

theorem Uses.not_sends {k : PrivateKey} {e : ℕ} (h : Uses c k e) : sends c = false := by
  obtain ⟨peer, message, request, -⟩ := h
  simp [sends, request]

theorem granted_of_sends (h : sends c = true) : c.granted = true := (Bool.and_eq_true_iff.mp h).1

theorem granted_of_agrees (h : agrees c = true) : c.granted = true := (Bool.and_eq_true_iff.mp h).1

theorem not_sends_of_refused (h : c.refused = true) : sends c = false := by
  simp [sends, Served.granted_eq_false_of_refused h]

theorem not_agrees_of_refused (h : c.refused = true) : agrees c = false := by
  simp [agrees, Served.granted_eq_false_of_refused h]

/-- A granted call that is a message drew the exponent of its session. -/
theorem draws_of_sends (genuine : c.Genuine call tape patience) (h : sends c = true) :
    ∃ k e, Draws tape patience c k e := by
  obtain ⟨v, a, stop, outcome⟩ := Served.granted_iff.mp (granted_of_sends h)
  rcases step_cases genuine outcome with
    ⟨refused, -⟩ | ⟨k, sets, -⟩ | ⟨k, e, draws, -⟩ | ⟨k, b, -, uses, -⟩
  · simp [not_sends_of_refused refused] at h
  · simp [sets.not_sends] at h
  · exact ⟨k, e, draws⟩
  · simp [uses.not_sends] at h

/-- A granted call that is an agreement used the exponent that the session had kept. -/
theorem uses_of_agrees (genuine : c.Genuine call tape patience) (h : agrees c = true) :
    ∃ k ephemeral, c.before = awaitingAgreement k ephemeral ∧ Uses c k ephemeral.value := by
  obtain ⟨v, a, stop, outcome⟩ := Served.granted_iff.mp (granted_of_agrees h)
  rcases step_cases genuine outcome with
    ⟨refused, -⟩ | ⟨k, sets, -⟩ | ⟨k, e, draws, -⟩ | ⟨k, b, before, uses, -⟩
  · simp [not_agrees_of_refused refused] at h
  · simp [sets.not_agrees] at h
  · simp [draws.not_agrees] at h
  · exact ⟨k, b, before, uses⟩

/-! ## At most one message and one shared value -/

/-- How many messages a session has left. -/
def messagesLeft : MtiAgreement → ℕ
  | awaitingMessage _ => 1
  | idle | awaitingAgreement _ _ | done _ => 0

/-- How many shared values a session has left. -/
def agreementsLeft : MtiAgreement → ℕ
  | awaitingMessage _ | awaitingAgreement _ _ => 1
  | idle | done _ => 0

theorem messagesLeft_le (a : MtiAgreement) : a.messagesLeft ≤ 1 := by
  cases a <;> simp [messagesLeft]

theorem agreementsLeft_le (a : MtiAgreement) : a.agreementsLeft ≤ 1 := by
  cases a <;> simp [agreementsLeft]

/-- As long as no key is set, a granted message or shared value uses up one that was left. -/
theorem spends {answer : Except Error (Option ℕ)} {a : MtiAgreement} {stop : ℕ}
    (genuine : c.Genuine call tape patience) (outcome : c.outcome = .ok ((answer, a), stop))
    (keeps : begins c = false) :
    (if sends c = true then 1 else 0) + a.messagesLeft ≤ c.before.messagesLeft ∧
      (if agrees c = true then 1 else 0) + a.agreementsLeft ≤ c.before.agreementsLeft := by
  rcases step_cases genuine outcome with
    ⟨refused, rfl⟩ | ⟨k, sets, -⟩ | ⟨k, e, draws, rfl⟩ | ⟨k, b, before, uses, rfl⟩
  · simp [not_sends_of_refused refused, not_agrees_of_refused refused]
  · simp [sets.begins] at keeps
  · rw [draws.2.1]
    cases sends c <;> simp [draws.not_agrees, messagesLeft, agreementsLeft]
  · rw [before]
    cases agrees c <;> simp [uses.not_sends, messagesLeft, agreementsLeft]

/-! ## What precedes a call -/

/-- But for refusals, the last call set the key `k`: its session waits for the message. -/
def Opened (calls : List Call) (k : PrivateKey) : Prop := EndsIn (fun _ c => Sets c k) calls

/-- But for refusals, the last call drew the exponent `e`, in the session that the call before it
had begun with the key `k`. -/
def Drawn (tape : Tape) (patience : ℕ) (calls : List Call) (k : PrivateKey) (e : ℕ) : Prop :=
  EndsIn (fun before c => Opened before k ∧ Draws tape patience c k e) calls

/-- What has happened in front of a state. -/
def Past (tape : Tape) (patience : ℕ) (calls : List Call) : MtiAgreement → Prop
  | idle | done _ => True
  | awaitingMessage k => Opened calls k
  | awaitingAgreement k ephemeral =>
      ∃ e, ephemeral = Bytes.minimal e ∧ Drawn tape patience calls k e

/-- The past grows with every call that returns. -/
theorem past_step {calls : List Call} {answer : Except Error (Option ℕ)} {a : MtiAgreement}
    {stop : ℕ} (genuine : c.Genuine call tape patience)
    (outcome : c.outcome = .ok ((answer, a), stop)) (past : Past tape patience calls c.before) :
    Past tape patience (calls ++ [c]) a := by
  rcases step_cases genuine outcome with
    ⟨refused, rfl⟩ | ⟨k, sets, rfl⟩ | ⟨k, e, draws, rfl⟩ | ⟨k, b, before, uses, rfl⟩
  · cases before : c.before with
    | idle | done => trivial
    | awaitingMessage k =>
        rw [before] at past
        exact past.refused refused
    | awaitingAgreement k ephemeral =>
        rw [before] at past
        obtain ⟨e, kept, drawn⟩ := past
        exact ⟨e, kept, drawn.refused refused⟩
  · exact .now sets
  · rw [draws.2.1] at past
    exact ⟨e, rfl, .now ⟨past, draws⟩⟩
  · trivial

variable {a : MtiAgreement} {start : ℕ} {requests : List Request} {earlier later : List Call}

/-- What has happened in front of a call, in a transcript that begins outside of a session. -/
theorem past_before (outside : Past tape patience [] a)
    (h : transcript call tape patience a start requests = earlier ++ c :: later) :
    Past tape patience earlier c.before :=
  transcript_keeps (fun _ _ _ _ _ => past_step) outside h

/-- An agreement that is granted uses the exponent that was drawn just before it, in a transcript
that begins outside of a session. -/
theorem drawn_before_agreement (outside : Past tape patience [] a)
    (h : transcript call tape patience a start requests = earlier ++ c :: later)
    (agreed : agrees c = true) : ∃ k e, Drawn tape patience earlier k e ∧ Uses c k e := by
  obtain ⟨k, ephemeral, before, uses⟩ := uses_of_agrees (genuine_of_append h) agreed
  have past := past_before outside h
  rw [before] at past
  obtain ⟨e, rfl, drawn⟩ := past
  rw [Bytes.value_minimal] at uses
  exact ⟨k, e, drawn, uses⟩

/-- Once its exponent has been drawn, a session gives a shared value for every acceptable peer and
message, whatever has been refused since. -/
theorem uses_of_drawn {k : PrivateKey} {e : ℕ} {peer : PublicKey} {message : ℕ}
    (h : transcript call tape patience a start requests = earlier ++ c :: later)
    (drawn : Drawn tape patience earlier k e) (request : c.request = .agree peer message)
    (acceptable : Acceptable k e peer message) : Uses c k e := by
  have genuine : c.Genuine call tape patience := genuine_of_append h
  obtain ⟨before, drawing, refusals, rfl, ⟨-, draws⟩, refused⟩ := drawn
  rw [List.append_assoc] at h
  obtain ⟨-, -, stop, -, outcome⟩ := draws
  obtain ⟨rest, followed⟩ := transcript_after h outcome
  obtain ⟨found, -⟩ := before_of_refusals (I := fun _ => True) (fun s _ => call_decisive s) trivial
    followed.symm refused
  refine ⟨peer, message, request, acceptable, ?_⟩
  have agreed := agree_eq_ok_iff.mpr
    ⟨(Bytes.value_minimal e).symm ▸ acceptable, rfl, rfl⟩
  rw [Bytes.value_minimal] at agreed
  unfold Served.Genuine at genuine
  rw [genuine, found, request, call, agreed]
  rfl

/-- The discipline of the calls of an agreement. -/
structure Orderly (tape : Tape) (patience : ℕ) (calls : List Call) : Prop where
  /-- As long as no key is set, at most one message and at most one shared value is given. -/
  once : ∀ stretch, stretch <:+: calls → (∀ c ∈ stretch, begins c = false) →
    stretch.countP sends ≤ 1 ∧ stretch.countP agrees ≤ 1
  /-- A message is given with the key that was set in its session, and draws an exponent. -/
  opened : ∀ earlier c later, calls = earlier ++ c :: later → sends c = true →
    ∃ k e, Opened earlier k ∧ Draws tape patience c k e
  /-- A shared value is given with the exponent that the message of its session drew: no key has
  been set since. -/
  paired : ∀ earlier c later, calls = earlier ++ c :: later → agrees c = true →
    ∃ k e, Drawn tape patience earlier k e ∧ Uses c k e
  /-- Between two shared values a session is opened, and an exponent is drawn for the second. -/
  fresh : ∀ earlier c between c' later, calls = earlier ++ c :: (between ++ c' :: later) →
    agrees c = true → agrees c' = true →
    ∃ k e, Drawn tape patience between k e ∧ Uses c' k e
  /-- A refused call leaves the object and the place on the tape that it found. -/
  atomic : ∀ c ∈ calls, c.refused = true → ∃ e, c.outcome = .ok ((.error e, c.before), c.start)
  /-- Whatever has been refused, the session gives a shared value for every acceptable peer and
  message. -/
  lasting : ∀ earlier c later k e peer message, calls = earlier ++ c :: later →
    Drawn tape patience earlier k e → c.request = .agree peer message →
    Acceptable k e peer message → Uses c k e

/-- **The discipline of sessions.**  On every tape, the calls of a new agreement are orderly. -/
theorem calls_orderly (history : List Request) (tape : Tape) (patience start : ℕ) :
    Orderly tape patience (transcript call tape patience idle start history) where
  once stretch part keyless := by
    obtain ⟨a, start', rest, rfl⟩ := exists_transcript_of_infix part
    constructor
    · refine (countP_transcript_le (fun c => granted_of_sends) ?_).trans a.messagesLeft_le
      intro c member genuine _ _ _ outcome
      exact (spends genuine outcome (keyless c member)).1
    · refine (countP_transcript_le (fun c => granted_of_agrees) ?_).trans a.agreementsLeft_le
      intro c member genuine _ _ _ outcome
      exact (spends genuine outcome (keyless c member)).2
  opened earlier c later split sent := by
    obtain ⟨k, e, draws⟩ := draws_of_sends (genuine_of_append split) sent
    have past := past_before (a := idle) trivial split
    rw [draws.2.1] at past
    exact ⟨k, e, past, draws⟩
  paired earlier c later split agreed := drawn_before_agreement (a := idle) trivial split agreed
  fresh earlier c between c' later split agreed agreed' := by
    obtain ⟨k, ephemeral, -, uses⟩ := uses_of_agrees (genuine_of_append split) agreed
    obtain ⟨peer, message, -, -, outcome⟩ := uses
    -- After the first shared value no session is open, so that the second one's is opened later.
    obtain ⟨rest, followed⟩ := transcript_after split outcome
    exact drawn_before_agreement (a := done k) trivial followed.symm agreed'
  atomic c member refused :=
    outcome_of_refused (I := fun _ => True) (fun s _ => call_decisive s) trivial member refused
  lasting earlier c later k e peer message split drawn request acceptable :=
    uses_of_drawn split drawn request acceptable

end MtiAgreement

/-- The numbers from one to six, all of them powers of three. -/
def smallGroup : Group where
  p := 7
  g := 3
  order := none
  privateLength := 0
  p_size := by decide
  p_odd := by decide
  g_range := by decide
  order_range := by simp
  length_range := by decide

open MtiAgreement in
/-- A session with two refused agreements, of which the second is out of range.  The calls that are
granted have read one byte. -/
example :
    let peer : PublicKey := { y := 4, group := smallGroup }
    (transcript call (fun _ => 0) 1 idle 0
      [.init (.ofPrivate { x := 1, group := smallGroup }), .agree peer 5, .message, .agree peer 1,
        .agree peer 5, .agree peer 5]).map (fun c => c.outcome.map fun r => (r.1.1, r.2)) =
      [.ok (.ok none, 0), .ok (.error (.invalidState .messageNotSent), 0), .ok (.ok (some 2), 1),
        .ok (.error (.invalidKey (.publicValueRange .diffieHellman)), 1), .ok (.ok (some 3), 1),
        .ok (.error (.invalidState .agreementCompleted), 1)] := by
  cbv

end PublicKeyCrypto.DiffieHellman
