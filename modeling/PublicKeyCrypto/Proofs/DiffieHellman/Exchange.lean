import PublicKeyCrypto.Proofs.DiffieHellman.Session
import Mathlib

/-!
# Shared values of two parties

Parties call their agreements in any order, and each call reads a tape of its own.  The calls of
one party that follow a key being set, up to the next key, are a session of this party.  Whatever
the other parties do and whatever is refused, one exponent explains a session: its message is the
power of the generator, and its shared value is computed with it (`exists_exponent`).

For two sessions that agree on each other's message that leaves only the exponents.  Both shared
values are the power of the generator to the sum of the two products of a static exponent with the
other session's (`shared_of_powers`).

## Main Definitions

* `MtiAgreement.Exchange`, `MtiAgreement.Run` — calls of several parties
* `MtiAgreement.IsSession` — the calls of one party with one key

## Main Results

* `MtiAgreement.exists_exponent` — one exponent explains a session
* `MtiAgreement.shared_values_equal` — two sessions that agree with each other share their value
-/

namespace PublicKeyCrypto.DiffieHellman.MtiAgreement

variable {ι : Type}

/-- A call that returned: whose it was, what was asked, and what was answered. -/
structure Exchange (ι : Type) where
  party : ι
  request : Request
  answer : Except Error (Option ℕ)

/-- The exchange set a key. -/
def Exchange.Opens (x : Exchange ι) : Prop := ∃ key v, x.request = .init key ∧ x.answer = .ok v

/-- What was given in the exchange comes from the key `k` and the exponent `e`. -/
def Exchange.Explained (k : PrivateKey) (e : ℕ) (x : Exchange ι) : Prop :=
  ∀ v, x.answer = .ok v →
    match x.request with
    | .init _ => True
    | .message => v = some (k.group.g ^ e % k.group.p)
    | .agree peer message => v = some (shared k e peer message)

/-! ## One session -/

/-- The state of an agreement whose session has had these exchanges.  Before the message is sent any
exponent explains them, since nothing has been given. -/
def Fits (k : PrivateKey) (session : List (Exchange ι)) : MtiAgreement → Prop
  | idle => False
  | awaitingMessage k' => k' = k ∧ ∀ e, ∀ x ∈ session, x.Explained k e
  | awaitingAgreement k' ephemeral =>
      k' = k ∧ ∃ e, ephemeral = Bytes.minimal e ∧ ∀ x ∈ session, x.Explained k e
  | done k' => k' = k ∧ ∃ e, ∀ x ∈ session, x.Explained k e

variable {i : ι} {k : PrivateKey}

/-- A session stays explained with one more exchange that is. -/
theorem Exchange.explained_concat {session : List (Exchange ι)} {x : Exchange ι} {e : ℕ}
    (h : ∀ y ∈ session, y.Explained k e) (hx : x.Explained k e) :
    ∀ y ∈ session ++ [x], y.Explained k e := by
  intro y member
  rcases List.mem_append.mp member with earlier | last
  · exact h y earlier
  · rwa [List.mem_singleton.mp last]

/-- A refusal takes nothing from a session. -/
theorem Fits.refused {session : List (Exchange ι)} {a : MtiAgreement} {request : Request}
    (fits : Fits k session a) (error : Error) :
    Fits k (session ++ [⟨i, request, .error error⟩]) a := by
  have nothing : ∀ e, Exchange.Explained k e ⟨i, request, .error error⟩ := by
    rintro e v ⟨⟩
  cases a with
  | idle => exact fits
  | awaitingMessage k' =>
      exact ⟨fits.1, fun e => Exchange.explained_concat (fits.2 e) (nothing e)⟩
  | awaitingAgreement k' ephemeral =>
      obtain ⟨same, e, kept, explained⟩ := fits
      exact ⟨same, e, kept, Exchange.explained_concat explained (nothing e)⟩
  | done k' =>
      obtain ⟨same, e, explained⟩ := fits
      exact ⟨same, e, Exchange.explained_concat explained (nothing e)⟩

/-- **One call of a session.**  A call that sets no key takes the state that a session has reached
to the state that it has reached with the exchange. -/
theorem Fits.step {session : List (Exchange ι)} {before a : MtiAgreement} {request : Request}
    {answer : Except Error (Option ℕ)} {tape : Tape} {patience start stop : ℕ}
    (fits : Fits k session before) (keeps : ¬Exchange.Opens ⟨i, request, answer⟩)
    (returned : (before.call request).run tape patience start = .ok ((answer, a), stop)) :
    Fits k (session ++ [⟨i, request, answer⟩]) a := by
  rcases call_cases returned with
    ⟨error, rfl, rfl, -⟩ | ⟨k', rfl, rfl, -⟩ | ⟨k', e, rfl, rfl, -, rfl, rfl⟩ |
    ⟨k', ephemeral, peer, message, rfl, rfl, -, rfl, rfl, -⟩
  · exact fits.refused error
  · exact absurd ⟨_, none, rfl, rfl⟩ keeps
  · obtain ⟨rfl, explained⟩ := fits
    refine ⟨rfl, e, rfl, Exchange.explained_concat (explained e) ?_⟩
    rintro v ⟨⟩
    rfl
  · obtain ⟨rfl, e, rfl, explained⟩ := fits
    refine ⟨rfl, e, Exchange.explained_concat explained ?_⟩
    rintro v ⟨⟩
    exact congrArg (fun f => some (shared _ f peer message)) (Bytes.value_minimal e)

theorem Fits.exists_exponent {session : List (Exchange ι)} {a : MtiAgreement}
    (fits : Fits k session a) : ∃ e, ∀ x ∈ session, x.Explained k e := by
  cases a with
  | idle => exact fits.elim
  | awaitingMessage k' => exact ⟨0, fits.2 0⟩
  | awaitingAgreement k' ephemeral =>
      obtain ⟨-, e, -, explained⟩ := fits
      exact ⟨e, explained⟩
  | done k' => exact fits.2

/-! ## Runs -/

variable [DecidableEq ι]

/-- The parties may exchange these calls, from agreements `s₀` to agreements `s`.  Each call is
made on any tape, from any place. -/
inductive Run (s₀ : ι → MtiAgreement) : List (Exchange ι) → (ι → MtiAgreement) → Prop
  | nil : Run s₀ [] s₀
  | call {exchanges s} (before : Run s₀ exchanges s) (x : Exchange ι) {tape patience start stop}
      (a : MtiAgreement)
      (returned : ((s x.party).call x.request).run tape patience start =
        .ok ((x.answer, a), stop)) :
      Run s₀ (exchanges ++ [x]) (Function.update s x.party a)

/-- The exchanges of one party. -/
def Exchange.ofParty (i : ι) (exchanges : List (Exchange ι)) : List (Exchange ι) :=
  exchanges.filter fun x => x.party = i

/-- A session of the party: its exchanges since it set the key `k`, in which no other is set.  Later
exchanges may follow, in the same session or in others. -/
def IsSession (exchanges : List (Exchange ι)) (i : ι) (k : PrivateKey)
    (session : List (Exchange ι)) : Prop :=
  (∃ earlier later, Exchange.ofParty i exchanges =
    earlier ++ ⟨i, .init (.ofPrivate k), .ok none⟩ :: session ++ later) ∧
  ∀ x ∈ session, ¬x.Opens

variable {s₀ s : ι → MtiAgreement} {exchanges : List (Exchange ι)}

theorem Exchange.ofParty_concat_self {x : Exchange ι} (h : x.party = i) :
    ofParty i (exchanges ++ [x]) = ofParty i exchanges ++ [x] := by
  simp [ofParty, h]

theorem Exchange.ofParty_concat_other {x : Exchange ι} (h : x.party ≠ i) :
    ofParty i (exchanges ++ [x]) = ofParty i exchanges := by
  simp [ofParty, h]

/-- A run may be cut after any exchange of a party. -/
theorem Run.cut (run : Run s₀ exchanges s) {first rest : List (Exchange ι)}
    (split : Exchange.ofParty i exchanges = first ++ rest) :
    ∃ exchanges' s', Run s₀ exchanges' s' ∧ Exchange.ofParty i exchanges' = first := by
  induction run generalizing rest with
  | nil =>
      obtain ⟨rfl, -⟩ := List.append_eq_nil_iff.mp split.symm
      exact ⟨[], s₀, .nil, rfl⟩
  | @call exchanges s before x tape patience start stop a returned ih =>
      by_cases own : x.party = i
      · rcases List.eq_nil_or_concat rest with rfl | ⟨rest', last, rfl⟩
        · rw [List.append_nil] at split
          exact ⟨_, _, before.call x a returned, split⟩
        · rw [Exchange.ofParty_concat_self own, List.concat_eq_append, ← List.append_assoc] at split
          exact ih (List.append_inj_left' split rfl)
      · rw [Exchange.ofParty_concat_other own] at split
        exact ih split

/-- The state of a party whose last session has had the given exchanges. -/
theorem fits_of_run (run : Run s₀ exchanges s) {earlier session : List (Exchange ι)}
    (split : Exchange.ofParty i exchanges =
      earlier ++ ⟨i, .init (.ofPrivate k), .ok none⟩ :: session)
    (keeps : ∀ x ∈ session, ¬x.Opens) : Fits k session (s i) := by
  induction run generalizing session with
  | nil => cases (List.append_eq_nil_iff.mp split.symm).2
  | @call exchanges s before x tape patience start stop a returned ih =>
      by_cases own : x.party = i
      · rw [Exchange.ofParty_concat_self own] at split
        subst own
        rw [Function.update_self]
        -- The last exchange of the party either began the session or belongs to it.
        rcases List.eq_nil_or_concat session with rfl | ⟨session', last, rfl⟩
        · have opening := List.singleton_inj.mp (List.append_inj_right' split rfl)
          rw [opening] at returned
          cases returned
          exact ⟨rfl, by simp⟩
        · rw [List.concat_eq_append] at split keeps ⊢
          rw [← List.cons_append, ← List.append_assoc] at split
          obtain rfl := List.singleton_inj.mp (List.append_inj_right' split rfl)
          have fits := ih (List.append_inj_left' split rfl)
            fun y member => keeps y (List.mem_append_left _ member)
          exact fits.step (keeps x (by simp)) returned
      · rw [Exchange.ofParty_concat_other own] at split
        rw [Function.update_of_ne (Ne.symm own)]
        exact ih split keeps

/-- **One exponent explains a session.**  The message and the shared value of a session come from
the key and from one exponent, whatever the other parties do and whatever is refused. -/
theorem exists_exponent (run : Run s₀ exchanges s) {session : List (Exchange ι)}
    (current : IsSession exchanges i k session) : ∃ e, ∀ x ∈ session, x.Explained k e := by
  obtain ⟨⟨earlier, later, split⟩, keeps⟩ := current
  obtain ⟨exchanges', s', run', split'⟩ := run.cut split
  exact (fits_of_run run' split' keeps).exists_exponent

/-! ## Two parties -/

/-- The shared value of a party that is given the other's public key and message. -/
theorem shared_of_powers (group : Group) (x y e f : ℕ) :
    shared { x, group } e (PrivateKey.publicKey { x := y, group }) (group.g ^ f % group.p) =
      group.g ^ (f * x + y * e) % group.p := by
  calc shared { x, group } e (PrivateKey.publicKey { x := y, group }) (group.g ^ f % group.p)
      = (group.g ^ f % group.p) ^ x * (group.g ^ y % group.p) ^ e % group.p := by
        simp only [shared, PrivateKey.publicKey, powMod_eq]
    _ = (group.g ^ f) ^ x * (group.g ^ y) ^ e % group.p := by
        rw [Nat.mul_mod, ← Nat.pow_mod, ← Nat.pow_mod, ← Nat.mul_mod]
    _ = group.g ^ (f * x + y * e) % group.p := by rw [pow_add, pow_mul, pow_mul]

variable {A B : ι} {group : Group} {xA xB : ℕ} {sessionA sessionB : List (Exchange ι)}
  {messageA messageB zA zB : ℕ}

/-- **Agreement.**  Two parties with keys of one group, in any run of their calls: if a session of
each agreed with the other's public key on the message of the other's session, both were given the
same value. -/
theorem shared_values_equal (run : Run s₀ exchanges s)
    (currentA : IsSession exchanges A { x := xA, group } sessionA)
    (currentB : IsSession exchanges B { x := xB, group } sessionB)
    (sentA : ⟨A, .message, .ok (some messageA)⟩ ∈ sessionA)
    (sentB : ⟨B, .message, .ok (some messageB)⟩ ∈ sessionB)
    (agreedA : ⟨A, .agree (PrivateKey.publicKey { x := xB, group }) messageB, .ok (some zA)⟩ ∈
      sessionA)
    (agreedB : ⟨B, .agree (PrivateKey.publicKey { x := xA, group }) messageA, .ok (some zB)⟩ ∈
      sessionB) :
    zA = zB := by
  obtain ⟨eA, explainedA⟩ := exists_exponent run currentA
  obtain ⟨eB, explainedB⟩ := exists_exponent run currentB
  have hmA : messageA = group.g ^ eA % group.p :=
    Option.some.inj (explainedA _ sentA _ rfl)
  have hmB : messageB = group.g ^ eB % group.p :=
    Option.some.inj (explainedB _ sentB _ rfl)
  have hzA := Option.some.inj (explainedA _ agreedA _ rfl)
  have hzB := Option.some.inj (explainedB _ agreedB _ rfl)
  calc zA
      = group.g ^ (eB * xA + xB * eA) % group.p := by rw [hzA, hmB, shared_of_powers]
    _ = group.g ^ (eA * xB + xA * eB) % group.p := by
        congr 2
        ring
    _ = zB := by rw [hzB, hmA, shared_of_powers]

/-- Keys with the exponents one and four. -/
def smallKeys : Bool → PrivateKey
  | true => { x := 1, group := smallGroup }
  | false => { x := 4, group := smallGroup }

/-- Two parties agree.  The first is refused a message before it has a key; the second is refused
another message and a key that is public. -/
def interleaved : List (Exchange Bool) :=
  [⟨true, .message, .error (.notInitialised .diffieHellman)⟩,
    ⟨true, .init (.ofPrivate (smallKeys true)), .ok none⟩,
    ⟨false, .init (.ofPrivate (smallKeys false)), .ok none⟩,
    ⟨false, .message, .ok (some 5)⟩,
    ⟨true, .message, .ok (some 2)⟩,
    ⟨false, .message, .error (.invalidState .messageAlreadySent)⟩,
    ⟨true, .agree (smallKeys false).publicKey 5, .ok (some 3)⟩,
    ⟨false, .init (.ofPublic (smallKeys true).publicKey),
      .error (.invalidArgument .diffieHellmanNeedsPrivate)⟩,
    ⟨false, .agree (smallKeys true).publicKey 2, .ok (some 3)⟩]

/-- The exchanges take place if the first party draws the exponent two and the second five. -/
theorem run_interleaved : ∃ s, Run (fun _ => idle) interleaved s := by
  have run : Run (fun _ : Bool => idle) [] _ := .nil
  have run := run.call ⟨true, .message, .error (.notInitialised .diffieHellman)⟩ idle
    (rfl : (idle.call .message).run (fun _ => 0) 1 0 = .ok (_, 0))
  have run := run.call ⟨true, .init (.ofPrivate (smallKeys true)), .ok none⟩
    (awaitingMessage (smallKeys true))
    (rfl : (idle.call (.init (.ofPrivate (smallKeys true)))).run (fun _ => 0) 1 0 = .ok (_, 0))
  have run := run.call ⟨false, .init (.ofPrivate (smallKeys false)), .ok none⟩
    (awaitingMessage (smallKeys false))
    (rfl : (idle.call (.init (.ofPrivate (smallKeys false)))).run (fun _ => 0) 1 0 = .ok (_, 0))
  have run := run.call ⟨false, .message, .ok (some 5)⟩ (awaitingAgreement (smallKeys false) [5])
    (by cbv : ((awaitingMessage (smallKeys false)).call .message).run (fun _ => 3) 1 0 =
      .ok ((.ok (some 5), awaitingAgreement (smallKeys false) [5]), 1))
  have run := run.call ⟨true, .message, .ok (some 2)⟩ (awaitingAgreement (smallKeys true) [2])
    (by cbv : ((awaitingMessage (smallKeys true)).call .message).run (fun _ => 0) 1 0 =
      .ok ((.ok (some 2), awaitingAgreement (smallKeys true) [2]), 1))
  have run := run.call ⟨false, .message, .error (.invalidState .messageAlreadySent)⟩
    (awaitingAgreement (smallKeys false) [5])
    (rfl : ((awaitingAgreement (smallKeys false) [5]).call .message).run (fun _ => 0) 1 0 =
      .ok (_, 0))
  have run := run.call ⟨true, .agree (smallKeys false).publicKey 5, .ok (some 3)⟩
    (done (smallKeys true))
    (by cbv : ((awaitingAgreement (smallKeys true) [2]).call
      (.agree (smallKeys false).publicKey 5)).run (fun _ => 0) 1 0 =
        .ok ((.ok (some 3), done (smallKeys true)), 0))
  have run := run.call ⟨false, .init (.ofPublic (smallKeys true).publicKey),
      .error (.invalidArgument .diffieHellmanNeedsPrivate)⟩
    (awaitingAgreement (smallKeys false) [5])
    (rfl : ((awaitingAgreement (smallKeys false) [5]).call
      (.init (.ofPublic (smallKeys true).publicKey))).run (fun _ => 0) 1 0 = .ok (_, 0))
  have run := run.call ⟨false, .agree (smallKeys true).publicKey 2, .ok (some 3)⟩
    (done (smallKeys false))
    (by cbv : ((awaitingAgreement (smallKeys false) [5]).call
      (.agree (smallKeys true).publicKey 2)).run (fun _ => 0) 1 0 =
        .ok ((.ok (some 3), done (smallKeys false)), 0))
  exact ⟨_, run⟩

theorem shared_values_equal_interleaved :
    ∃ s zA zB, Run (fun _ => idle) interleaved s ∧
      ⟨true, .agree (smallKeys false).publicKey 5, .ok (some zA)⟩ ∈ interleaved ∧
      ⟨false, .agree (smallKeys true).publicKey 2, .ok (some zB)⟩ ∈ interleaved ∧ zA = zB := by
  obtain ⟨s, run⟩ := run_interleaved
  have currentA : IsSession interleaved true (smallKeys true)
      [⟨true, .message, .ok (some 2)⟩,
        ⟨true, .agree (smallKeys false).publicKey 5, .ok (some 3)⟩] := by
    refine ⟨⟨[⟨true, .message, .error (.notInitialised .diffieHellman)⟩], [], rfl⟩, ?_⟩
    simp [Exchange.Opens]
  have currentB : IsSession interleaved false (smallKeys false)
      [⟨false, .message, .ok (some 5)⟩,
        ⟨false, .message, .error (.invalidState .messageAlreadySent)⟩,
        ⟨false, .init (.ofPublic (smallKeys true).publicKey),
          .error (.invalidArgument .diffieHellmanNeedsPrivate)⟩,
        ⟨false, .agree (smallKeys true).publicKey 2, .ok (some 3)⟩] := by
    refine ⟨⟨[], [], rfl⟩, ?_⟩
    simp [Exchange.Opens]
  exact ⟨s, 3, 3, run, by simp [interleaved], by simp [interleaved],
    shared_values_equal run currentA currentB (by simp) (by simp) (.tail _ (.head _))
      (.tail _ (.tail _ (.tail _ (.head _))))⟩

end PublicKeyCrypto.DiffieHellman.MtiAgreement
