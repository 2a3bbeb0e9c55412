import PublicKeyCrypto.Proofs.Signature.DeterministicNonce
import PublicKeyCrypto.Proofs.Signature.Dsa
import PublicKeyCrypto.Proofs.Signature.Gost
import Mathlib

/-!
# The first suitable nonce is used

A signer sets its source of nonces up once and then asks it for one nonce after another, until one
suits.  So the signature is that of the first suitable nonce, the source is left as so many calls
leave it, and without a suitable nonce there is no answer.

What suits is said without the code that finds it.  DSA and ECDSA divide by the nonce: it has to be
coprime to the order, and `s` is the residue that the nonce brings back to `e + x r`.  GOST R 34.10
multiplies by it and inverts nothing.  In every scheme neither number may be zero.

The source is arbitrary, and so are the numbers that it gives: they may repeat, exceed the order or
depend on the tape, and a call may also halt.  What it gives is therefore said of runs: a number of
successive calls returned these numbers, and left this source at this place of the tape.

## Main Definitions

* `Signature.Divided`, `Signature.Multiplied` — the signature that a suitable nonce gives
* `Signer.UsesFirst` — signing with the first suitable nonce

## Main Results

* `Signer.rounds_attempt_eq_ok_iff` — the loop returns exactly for a nonce with a candidate, after
  nonces without one
* `Signer.run_sign_eq_ok_iff` — what a signer of any scheme answers
* `first_suitable_nonce_used` — the three schemes
-/

namespace PublicKeyCrypto

/-! ## What suits -/

namespace Signature

/-- The signature that a suitable nonce gives in a scheme that divides by it: with the number `e` of
the message, the secret `x` and the number `point` of the nonce's group element. -/
structure Divided (order e x point nonce : ℕ) (signature : Signature) : Prop where
  invertible : nonce.Coprime order
  r_eq : signature.r = point % order
  r_ne_zero : signature.r ≠ 0
  s_lt : signature.s < order
  equation : nonce * signature.s ≡ e + x * signature.r [MOD order]
  s_ne_zero : signature.s ≠ 0

/-- The signature that a suitable nonce gives in a scheme that multiplies by it. -/
structure Multiplied (order e x point nonce : ℕ) (signature : Signature) : Prop where
  r_eq : signature.r = point % order
  r_ne_zero : signature.r ≠ 0
  s_eq : signature.s = (nonce * e + x * signature.r) % order
  s_ne_zero : signature.s ≠ 0

variable {order e x point nonce : ℕ} {signature : Signature}

/-- Multiplying by an inverse is dividing. -/
theorem divided_iff (positive : 0 < order) :
    Divided order e x point nonce signature ↔
      ∃ inverse, invMod nonce order = some inverse ∧ signature.r = point % order ∧
        signature.s = inverse * (e + x * signature.r) % order ∧
        signature.r ≠ 0 ∧ signature.s ≠ 0 := by
  constructor
  · intro h
    obtain ⟨inverse, found⟩ := exists_invMod h.invertible
    refine ⟨inverse, found, h.r_eq, ?_, h.r_ne_zero, h.s_ne_zero⟩
    have product := (invMod_sound positive found).2
    have undone : signature.s ≡ inverse * (e + x * signature.r) [MOD order] := by
      calc signature.s = 1 * signature.s := (one_mul _).symm
        _ ≡ nonce * inverse * signature.s [MOD order] := product.symm.mul_right _
        _ = inverse * (nonce * signature.s) := by ring
        _ ≡ inverse * (e + x * signature.r) [MOD order] := h.equation.mul_left _
    rw [← Nat.mod_eq_of_lt h.s_lt]
    exact undone
  · rintro ⟨inverse, found, hr, hs, r_ne, s_ne⟩
    have product := (invMod_sound positive found).2
    refine ⟨coprime_of_mul_modEq_one product, hr, r_ne, hs ▸ Nat.mod_lt _ positive, ?_, s_ne⟩
    calc nonce * signature.s
        ≡ nonce * (inverse * (e + x * signature.r)) [MOD order] := by
          rw [hs]
          exact (Nat.mod_modEq _ _).mul_left _
      _ = nonce * inverse * (e + x * signature.r) := (mul_assoc _ _ _).symm
      _ ≡ 1 * (e + x * signature.r) [MOD order] := product.mul_right _
      _ = e + x * signature.r := one_mul _

theorem Divided.in_range (h : Divided order e x point nonce signature) :
    (1 ≤ signature.r ∧ signature.r ≤ order - 1) ∧ (1 ≤ signature.s ∧ signature.s ≤ order - 1) := by
  have positive : 0 < order := Nat.zero_lt_of_lt h.s_lt
  exact inRange_iff.mp (inRange_of_mod positive h.r_eq (Nat.mod_eq_of_lt h.s_lt).symm h.r_ne_zero
    h.s_ne_zero)

theorem Multiplied.in_range (positive : 0 < order)
    (h : Multiplied order e x point nonce signature) :
    (1 ≤ signature.r ∧ signature.r ≤ order - 1) ∧ (1 ≤ signature.s ∧ signature.s ≤ order - 1) :=
  inRange_iff.mp (inRange_of_mod positive h.r_eq h.s_eq h.r_ne_zero h.s_ne_zero)

end Signature

/-! ## The loop -/

namespace NonceSource

variable {K : Type} [NonceSource K] {tape : Tape} {patience start stop : ℕ}

/-- One call, and the calls after it. -/
theorem run_successive_succ {count : ℕ} {source source' : K} {nonces : List ℕ} :
    (successive (count + 1) source).run tape patience start = .ok ((nonces, source'), stop) ↔
      ∃ nonce next middle rest,
        (NonceSource.next source).run tape patience start = .ok ((nonce, next), middle) ∧
          (successive count next).run tape patience middle = .ok ((rest, source'), stop) ∧
          nonces = nonce :: rest := by
  rw [successive, Draw.run_bind_eq_ok]
  constructor
  · rintro ⟨⟨nonce, next⟩, middle, called, others⟩
    obtain ⟨⟨rest, last⟩, stop', returned, same⟩ := Draw.run_bind_eq_ok.mp others
    cases same
    exact ⟨nonce, next, middle, rest, called, returned, rfl⟩
  · rintro ⟨nonce, next, middle, rest, called, returned, rfl⟩
    exact ⟨(nonce, next), middle, called, Draw.run_bind_eq_ok.mpr ⟨_, _, returned, rfl⟩⟩

end NonceSource

namespace Signer

open NonceSource

variable {S P K : Type} [NonceSource K] {tape : Tape} {patience start stop : ℕ}

/-- One round of the loop. -/
def attempt (candidate : ℕ → Option Signature) (source : K) :
    Draw (Attempt K (Signature × K)) := do
  let (nonce, source') ← NonceSource.next source
  return match candidate nonce with
    | some signature => .done (signature, source')
    | none => .again source'

variable {candidate : ℕ → Option Signature}

theorem run_firstSuitable (source : K) :
    (firstSuitable candidate source).run tape patience start =
      Draw.rounds (attempt candidate) tape patience patience source start := rfl

/-- A round is a call of the source, and ends the loop if the nonce suits. -/
theorem rounds_attempt_succ (counter : ℕ) (source : K) :
    Draw.rounds (attempt candidate) tape patience (counter + 1) source start =
      match (NonceSource.next source).run tape patience start with
      | .error halt => .error halt
      | .ok ((nonce, source'), stop) =>
        match candidate nonce with
        | some signature => .ok ((signature, source'), stop)
        | none => Draw.rounds (attempt candidate) tape patience counter source' stop := by
  rw [Draw.rounds_succ, attempt, Draw.run_bind]
  cases (NonceSource.next source).run tape patience start with
  | error halt => rfl
  | ok called =>
      obtain ⟨⟨nonce, source'⟩, middle⟩ := called
      dsimp only
      cases candidate nonce <;> rfl

/-- **The first suitable nonce.**  The rounds end with a signature exactly if calls of the source
give some nonces without a candidate and then one with that candidate.  The induction is on the
rounds that are left. -/
theorem rounds_attempt_eq_ok_iff (counter : ℕ) (source : K) {signature : Signature}
    {source' : K} :
    Draw.rounds (attempt candidate) tape patience counter source start =
        .ok ((signature, source'), stop) ↔
      ∃ rejected nonce, rejected.length < counter ∧
        (successive (rejected.length + 1) source).run tape patience start =
          .ok ((rejected ++ [nonce], source'), stop) ∧
        (∀ earlier ∈ rejected, candidate earlier = none) ∧ candidate nonce = some signature := by
  induction counter generalizing source start with
  | zero =>
      rw [Draw.rounds_zero]
      refine ⟨fun same => ?_, fun ⟨_, _, fewer, _⟩ => absurd fewer (Nat.not_lt_zero _)⟩
      cases same
  | succ counter ih =>
      rw [rounds_attempt_succ]
      constructor
      · intro returned
        cases called : (NonceSource.next source).run tape patience start with
        | error halt =>
            rw [called] at returned
            cases returned
        | ok reached =>
            obtain ⟨⟨nonce, next⟩, middle⟩ := reached
            rw [called] at returned
            dsimp only at returned
            cases suits : candidate nonce with
            | some made =>
                rw [suits] at returned
                cases returned
                refine ⟨[], nonce, Nat.succ_pos _, ?_, fun _ none => absurd none List.not_mem_nil,
                  suits⟩
                exact run_successive_succ.mpr ⟨nonce, _, _, [], called, rfl, rfl⟩
            | none =>
                rw [suits] at returned
                obtain ⟨rejected, last, fewer, others, unsuitable, taken⟩ := (ih next).mp returned
                refine ⟨nonce :: rejected, last, Nat.succ_lt_succ fewer, ?_,
                  List.forall_mem_cons.mpr ⟨suits, unsuitable⟩, taken⟩
                exact run_successive_succ.mpr ⟨nonce, next, middle, _, called, others, rfl⟩
      · rintro ⟨rejected, last, fewer, calls, unsuitable, taken⟩
        obtain ⟨nonce, next, middle, rest, called, others, same⟩ := run_successive_succ.mp calls
        rw [called]
        dsimp only
        cases rejected with
        | nil =>
            cases same
            rw [taken]
            cases others
            rfl
        | cons first rejected =>
            cases same
            obtain ⟨suits, unsuitable⟩ := List.forall_mem_cons.mp unsuitable
            rw [suits]
            exact (ih next).mpr ⟨rejected, last, Nat.lt_of_succ_lt_succ fewer, others, unsuitable,
              taken⟩

/-- If as many calls as there are rounds give no suitable nonce, the rounds are used up. -/
theorem rounds_attempt_exhausted (counter : ℕ) {source source' : K} {nonces : List ℕ}
    (calls : (successive counter source).run tape patience start = .ok ((nonces, source'), stop))
    (unsuitable : ∀ nonce ∈ nonces, candidate nonce = none) :
    Draw.rounds (attempt candidate) tape patience counter source start = .error .exhausted := by
  induction counter generalizing source start nonces with
  | zero => exact Draw.rounds_zero ..
  | succ counter ih =>
      obtain ⟨nonce, next, middle, rest, called, others, rfl⟩ := run_successive_succ.mp calls
      obtain ⟨suits, unsuitable⟩ := List.forall_mem_cons.mp unsuitable
      rw [rounds_attempt_succ, called]
      dsimp only
      rw [suits]
      exact ih others unsuitable

/-! ## Signers -/

/-- A signer with a private key sets its source up and runs the loop. -/
theorem sign_eq {signer : Signer S P K} {k : S} (hkey : signer.key = some (.ofPrivate k))
    (message : Bytes) :
    signer.sign message =
      (do
        let (signature, nonces) ← firstSuitable (signer.scheme.candidate k message)
          (NonceSource.init signer.nonces (signer.scheme.order (.ofPrivate k))
            (signer.scheme.secret k) message)
        return (.ok signature, { signer with nonces })) := by
  rw [sign, hkey]

/-- What a signer answers, and what it is left with. -/
theorem run_sign_eq_ok_iff {signer : Signer S P K} {k : S}
    (hkey : signer.key = some (.ofPrivate k)) (message : Bytes)
    {reply : Reply (Signer S P K) Signature} :
    (signer.sign message).run tape patience start = .ok (reply, stop) ↔
      ∃ rejected nonce signature nonces, rejected.length < patience ∧
        (successive (rejected.length + 1) (NonceSource.init signer.nonces
          (signer.scheme.order (.ofPrivate k)) (signer.scheme.secret k) message)).run tape patience
            start = .ok ((rejected ++ [nonce], nonces), stop) ∧
        (∀ earlier ∈ rejected, signer.scheme.candidate k message earlier = none) ∧
        signer.scheme.candidate k message nonce = some signature ∧
        reply = (.ok signature, { signer with nonces }) := by
  rw [sign_eq hkey, Draw.run_bind_eq_ok]
  simp only [run_firstSuitable]
  constructor
  · rintro ⟨⟨signature, nonces⟩, middle, returned, answered⟩
    obtain ⟨rejected, nonce, fewer, calls, unsuitable, taken⟩ :=
      (rounds_attempt_eq_ok_iff _ _).mp returned
    cases answered
    exact ⟨rejected, nonce, signature, nonces, fewer, calls, unsuitable, taken, rfl⟩
  · rintro ⟨rejected, nonce, signature, nonces, fewer, calls, unsuitable, taken, rfl⟩
    exact ⟨(signature, nonces), stop, (rounds_attempt_eq_ok_iff _ _).mpr
      ⟨rejected, nonce, fewer, calls, unsuitable, taken⟩, rfl⟩

/-- Signing with the first suitable nonce.  A signer answers exactly if calls of the source, one for
each round, give a suitable nonce; then it answers with the signature that the first one gives, and
keeps the source that the last call left.  Otherwise the loop goes on. -/
structure UsesFirst (signer : Signer S P K) (order : ℕ) (seeded : K) (message : Bytes)
    (Gives : ℕ → Signature → Prop) : Prop where
  returns_iff : ∀ tape patience start reply stop,
    (signer.sign message).run tape patience start = .ok (reply, stop) ↔
      ∃ rejected nonce signature nonces, rejected.length < patience ∧
        (successive (rejected.length + 1) seeded).run tape patience start =
          .ok ((rejected ++ [nonce], nonces), stop) ∧
        (∀ earlier ∈ rejected, ∀ other, ¬ Gives earlier other) ∧ Gives nonce signature ∧
        reply = (.ok signature, { signer with nonces })
  in_range : ∀ nonce signature, Gives nonce signature →
    (1 ≤ signature.r ∧ signature.r ≤ order - 1) ∧ (1 ≤ signature.s ∧ signature.s ≤ order - 1)
  exhausted : ∀ tape patience start nonces source stop,
    (successive patience seeded).run tape patience start = .ok ((nonces, source), stop) →
      (∀ nonce ∈ nonces, ∀ other, ¬ Gives nonce other) →
      (signer.sign message).run tape patience start = .error .exhausted

/-- A signer uses the first nonce for which its scheme has a candidate. -/
theorem usesFirst {signer : Signer S P K} {k : S} (hkey : signer.key = some (.ofPrivate k))
    (message : Bytes) {order : ℕ} {Gives : ℕ → Signature → Prop}
    (gives : ∀ nonce signature,
      signer.scheme.candidate k message nonce = some signature ↔ Gives nonce signature)
    (in_range : ∀ nonce signature, Gives nonce signature →
      (1 ≤ signature.r ∧ signature.r ≤ order - 1) ∧
        (1 ≤ signature.s ∧ signature.s ≤ order - 1)) :
    signer.UsesFirst order (NonceSource.init signer.nonces (signer.scheme.order (.ofPrivate k))
      (signer.scheme.secret k) message) message Gives := by
  have unsuitable_iff (nonce : ℕ) :
      signer.scheme.candidate k message nonce = none ↔ ∀ other, ¬ Gives nonce other := by
    rw [Option.eq_none_iff_forall_ne_some]
    exact forall_congr' fun other => not_congr (gives nonce other)
  refine ⟨fun tape patience start reply stop => ?_, in_range, ?_⟩
  · simp only [run_sign_eq_ok_iff hkey, unsuitable_iff, gives]
  · intro tape patience start nonces source stop calls unsuitable
    rw [sign_eq hkey, Draw.run_bind, run_firstSuitable, rounds_attempt_exhausted _ calls
      fun nonce among => (unsuitable_iff nonce).mpr (unsuitable nonce among)]

end Signer

/-- **The first suitable nonce is used.**  For every source of nonces, in any state, a signer that
holds a private key sets the source up once for the message and then signs with the first nonce that
suits.  DSA is over any group whose components were checked, and the curves need not have a prime
order, or even be groups. -/
theorem first_suitable_nonce_used {K : Type} [NonceSource K] (nonces : K) (message : Bytes) :
    (∀ k : Dsa.PrivateKey,
      let signer : Signer Dsa.PrivateKey Dsa.PublicKey K :=
        { scheme := Dsa.scheme, nonces, key := some (.ofPrivate k) }
      let q := k.group.q
      signer.UsesFirst q (NonceSource.init nonces q k.x message) message fun nonce =>
        Signature.Divided q (Dsa.messageNumber q message) k.x
          (k.group.g ^ nonce % k.group.p) nonce) ∧
    ∀ (P : Type) [Curve P], 0 < Curve.order P → ∀ k : Curve.PrivateKey P,
      let n := Curve.order P
      let x (nonce : ℕ) := Curve.xCoordinate (Curve.mulGenerator nonce : P)
      let ecdsa : Signer (Curve.PrivateKey P) (Curve.PublicKey P) K :=
        { scheme := Ecdsa.scheme P, nonces, key := some (.ofPrivate k) }
      let gost : Signer (Curve.PrivateKey P) (Curve.PublicKey P) K :=
        { scheme := Gost.scheme P, nonces, key := some (.ofPrivate k) }
      (ecdsa.UsesFirst n (NonceSource.init nonces n k.scalar message) message fun nonce =>
        Signature.Divided n (leftmostBits n message) k.scalar (x nonce) nonce) ∧
      gost.UsesFirst n (NonceSource.init nonces n k.scalar message) message fun nonce =>
        Signature.Multiplied n (Gost.messageNumber n message) k.scalar (x nonce) nonce := by
  refine ⟨fun k => ?_, fun P _ positive k => ⟨?_, ?_⟩⟩
  · have positive : 0 < k.group.q := Nat.zero_lt_of_lt k.group.two_le_q
    refine Signer.usesFirst rfl message (fun nonce signature => ?_) fun _ _ => (·.in_range)
    exact Dsa.candidate_eq_some_iff.trans (Signature.divided_iff positive).symm
  · refine Signer.usesFirst rfl message (fun nonce signature => ?_) fun _ _ => (·.in_range)
    exact Ecdsa.candidate_eq_some_iff.trans (Signature.divided_iff positive).symm
  · refine Signer.usesFirst rfl message (fun nonce signature => ?_) fun _ _ => (·.in_range positive)
    refine Gost.candidate_eq_some_iff.trans
      ⟨?_, fun h => ⟨h.r_eq, h.s_eq, h.r_ne_zero, h.s_ne_zero⟩⟩
    rintro ⟨hr, hs, r_ne, s_ne⟩
    exact ⟨hr, r_ne, hs, s_ne⟩

/-- Two nonces that give `r = 0` and one that gives `s = 0` are passed over by four calls of the
source.  Three calls are not enough. -/
theorem first_suitable_nonce_used_on_small_curve :
    let k : Curve.PrivateKey Ecdsa.smallCurve.Multiple := { scalar := 5 }
    let signer : Signer (Curve.PrivateKey Ecdsa.smallCurve.Multiple)
        (Curve.PublicKey Ecdsa.smallCurve.Multiple) ScriptedNonce :=
      { scheme := Gost.scheme Ecdsa.smallCurve.Multiple, nonces := { values := [0, 13, 3, 30] },
        key := some (.ofPrivate k) }
    0 < Curve.order Ecdsa.smallCurve.Multiple ∧
      (∃ nonces, (signer.sign [0x04, 0x01]).run (fun _ => 0) 4 0 =
        .ok ((.ok { r := 4, s := 11 }, { signer with nonces }), 0)) ∧
      (signer.sign [0x04, 0x01]).run (fun _ => 0) 3 0 = .error .exhausted := by
  intro k signer
  have positive : 0 < Curve.order Ecdsa.smallCurve.Multiple := by decide
  obtain ⟨-, curves⟩ := first_suitable_nonce_used signer.nonces [0x04, 0x01]
  obtain ⟨-, uses⟩ := curves Ecdsa.smallCurve.Multiple positive k
  have unsuitable : ∀ earlier ∈ [0, 13, 3], ∀ other, ¬ Signature.Multiplied 13
      (Gost.messageNumber 13 [0x04, 0x01]) 5
      (Curve.xCoordinate (Curve.mulGenerator earlier : Ecdsa.smallCurve.Multiple)) earlier
      other := by
    simp only [List.forall_mem_cons]
    refine ⟨fun _ h => h.r_ne_zero (h.r_eq.trans (by cbv)),
      fun _ h => h.r_ne_zero (h.r_eq.trans (by cbv)), fun _ h => h.s_ne_zero ?_,
      fun _ none => absurd none List.not_mem_nil⟩
    rw [h.s_eq, h.r_eq]
    cbv
  have signed : ∃ nonces, (signer.sign [0x04, 0x01]).run (fun _ => 0) 4 0 =
      .ok ((.ok { r := 4, s := 11 }, { signer with nonces }), 0) :=
    ⟨_, (uses.returns_iff _ _ _ _ _).mpr ⟨[0, 13, 3], 30, _, _, by decide, by cbv, unsuitable,
      ⟨by cbv, by decide, by cbv, by decide⟩, rfl⟩⟩
  exact ⟨positive, signed, uses.exhausted _ _ _ [0, 13, 3] _ _ (by cbv) unsuitable⟩

end PublicKeyCrypto
