import PublicKeyCrypto.Proofs.Signature.FirstSuitable
import Mathlib

/-!
# The deterministic source after a rejected nonce

The standard has one loop for nonces (step h).  A candidate can be unsuitable because it is out of
range, or because the signature has a zero in it, and in both cases the key and the value are
renewed before the next candidate is computed (the end of step h.3).

Here the loop is cut in two.  The source tests the range and renews its state between candidates
that are out of range; the signer tests the signature and calls the source again.  The source is not
told why it is called, and does not renew its state then.  So after a nonce that the signer rejected
the key stays as it was, and the next string is built of the values that follow those of the
rejected nonce.

Both procedures are one series of loops, with a step between two of them: the standard renews the
state there, and the source leaves it as it is.

## Main Definitions

* `Rfc6979.Loop` — the loop from any state to the next candidate in range
* `Rfc6979.Series` — nonces one after the other, with a step between two of them

## Main Results

* `HmacNonce.series_of_run`, `HmacNonce.run_of_series` — calls of the source are a series without
  steps
* `HmacNonce.rejected_nonce_not_renewed` — the source, and any signer that uses it, go on without
  renewing the state
* `HmacNonce.rejected_nonce_not_standard` — so a signature need not be that of the standard
-/

namespace PublicKeyCrypto

namespace Rfc6979

/-! ## Loops and series of them -/

variable (H : Hash) (q : ℕ)

/-- Step h from a state: candidates are computed until one is in range, and the state is renewed
after each one that is not.  The loop gives the candidate and the state in which it was computed. -/
inductive Loop : State → ℕ → State → Prop
  | found {s : State} : Suitable q (candidate H q s).1 →
      Loop s (candidate H q s).1 (candidate H q s).2
  | renewed {s s' : State} {k : ℕ} : ¬ Suitable q (candidate H q s).1 →
      Loop (renew H (candidate H q s).2) k s' → Loop s k s'

/-- Nonces one after the other, with a step after each of them. -/
inductive Series (after : State → State) : State → List ℕ → State → Prop
  | nil (s : State) : Series after s [] s
  | cons {s s' s'' : State} {k : ℕ} {ks : List ℕ} : Loop H q s k s' →
      Series after (after s') ks s'' → Series after s (k :: ks) s''

/-- The signature for the last nonce of a series that begins with the seeded state, after nonces
that were rejected. -/
def Signs (after : State → State) (x : ℕ) (h1 : Bytes) (candidate : ℕ → Option Signature)
    (signature : Signature) : Prop :=
  ∃ rejected nonce s, Series H q after (seeded H q x h1) (rejected ++ [nonce]) s ∧
    (∀ earlier ∈ rejected, candidate earlier = none) ∧ candidate nonce = some signature

variable {H q} {s s' : State} {k : ℕ}

/-- A loop leaves a key of digest length. -/
theorem Loop.length_key (h : Loop H q s k s') (length : s.key.length = H.size) :
    s'.key.length = H.size := by
  induction h with
  | found _ => exact length
  | renewed _ _ ih => exact ih (length_hmac H _ _)

/-- A loop has one result. -/
theorem Loop.unique (h : Loop H q s k s') {k₁ : ℕ} {s₁ : State} (h₁ : Loop H q s k₁ s₁) :
    k₁ = k ∧ s₁ = s' := by
  induction h with
  | found suitable =>
      cases h₁ with
      | found _ => exact ⟨rfl, rfl⟩
      | renewed unsuitable _ => exact absurd suitable unsuitable
  | renewed unsuitable _ ih =>
      cases h₁ with
      | found suitable => exact absurd suitable unsuitable
      | renewed _ rest => exact ih rest

/-- A series that leaves the states as they are keeps keys of digest length. -/
theorem Series.length_key {ks : List ℕ} (h : Series H q id s ks s')
    (length : s.key.length = H.size) : s'.key.length = H.size := by
  induction h with
  | nil s => exact length
  | cons loop _ ih => exact ih (loop.length_key length)

/-- A candidate in range is the result of its loop. -/
theorem Loop.of_candidate (computed : (candidate H q s).1 = k) (suitable : Suitable q k) :
    Loop H q s k (candidate H q s).2 := by
  subst computed
  exact .found suitable

variable {after : State → State} {make : ℕ → Option Signature}

/-- The last nonces of two series are the same, if each is the first one with a signature.  The
induction is on the nonces that the first series rejects. -/
theorem Series.last_unique {rejected rejected' : List ℕ} {nonce nonce' : ℕ} {t t' : State}
    (series : Series H q after s (rejected ++ [nonce]) t)
    (series' : Series H q after s (rejected' ++ [nonce']) t')
    (unsuitable : ∀ earlier ∈ rejected, make earlier = none)
    (unsuitable' : ∀ earlier ∈ rejected', make earlier = none)
    (taken : make nonce ≠ none) (taken' : make nonce' ≠ none) : nonce' = nonce := by
  induction rejected generalizing s rejected' with
  | nil =>
      cases series with
      | cons loop _ =>
          cases rejected' with
          | nil =>
              cases series' with
              | cons loop' _ => exact (loop.unique loop').1
          | cons first rejected' =>
              cases series' with
              | cons loop' _ =>
                  rw [← (loop.unique loop').1] at taken
                  exact absurd (unsuitable' first List.mem_cons_self) taken
  | cons first rejected ih =>
      obtain ⟨none, unsuitable⟩ := List.forall_mem_cons.mp unsuitable
      cases series with
      | cons loop rest =>
          cases rejected' with
          | nil =>
              cases series' with
              | cons loop' _ =>
                  rw [(loop.unique loop').1] at taken'
                  exact absurd none taken'
          | cons first' rejected' =>
              cases series' with
              | cons loop' rest' =>
                  rw [(loop.unique loop').2] at rest'
                  exact ih rest rest' unsuitable (List.forall_mem_cons.mp unsuitable').2

/-- There is only one signature. -/
theorem Signs.unique {x : ℕ} {h1 : Bytes} {signature signature' : Signature}
    (h : Signs H q after x h1 make signature) (h' : Signs H q after x h1 make signature') :
    signature' = signature := by
  obtain ⟨rejected, nonce, t, series, unsuitable, taken⟩ := h
  obtain ⟨rejected', nonce', t', series', unsuitable', taken'⟩ := h'
  have same : nonce' = nonce := series.last_unique series' unsuitable unsuitable'
    (by simp [taken]) (by simp [taken'])
  rw [same, taken] at taken'
  exact (Option.some.inj taken').symm

end Rfc6979

namespace HmacNonce

open Rfc6979

variable {H : Hash} {q : ℕ} {s s' : State} {tape : Tape} {patience start stop k : ℕ}

/-! ## Calls of the source -/

/-- The rounds end with the result of the loop. -/
theorem loop_of_rounds (length : s.key.length = H.size) (counter : ℕ) {source' : HmacNonce H}
    (h : Draw.rounds (fun k => pure (attempt k)) tape patience counter (source q s) start =
      .ok ((k, source'), stop)) :
    stop = start ∧ ∃ s', Loop H q s k s' ∧ source' = source q s' := by
  induction counter generalizing s with
  | zero => cases h
  | succ counter ih =>
      rw [rounds_source_succ length] at h
      split_ifs at h with suitable
      · cases h
        exact ⟨rfl, _, .found suitable, rfl⟩
      · obtain ⟨same, s', loop, left⟩ := ih (length_hmac H _ _) h
        exact ⟨same, s', .renewed suitable loop, left⟩

/-- With enough rounds the result of the loop is reached. -/
theorem rounds_of_loop (h : Loop H q s k s') (length : s.key.length = H.size) :
    ∃ bound, ∀ counter, bound ≤ counter → ∀ tape patience start,
      Draw.rounds (fun k => pure (attempt k)) tape patience counter (source q s : HmacNonce H)
        start = .ok ((k, source q s'), start) := by
  induction h with
  | found suitable =>
      refine ⟨1, fun counter enough tape patience start => ?_⟩
      obtain ⟨rest, rfl⟩ := Nat.exists_eq_add_of_le' enough
      rw [rounds_source_succ length, if_pos suitable]
  | renewed unsuitable _ ih =>
      obtain ⟨bound, run⟩ := ih (length_hmac H _ _)
      refine ⟨bound + 1, fun counter enough tape patience start => ?_⟩
      obtain ⟨rest, rfl⟩ := Nat.exists_eq_add_of_le' (Nat.le_of_add_left_le enough)
      rw [rounds_source_succ length, if_neg unsuitable]
      exact run rest (by omega) tape patience start

/-! ## Calls one after the other -/

/-- What successive calls give is a series without a step after the nonces. -/
theorem series_of_run (count : ℕ) {ks : List ℕ} {source' : HmacNonce H}
    (length : s.key.length = H.size)
    (h : (NonceSource.successive count (source q s : HmacNonce H)).run tape patience start =
      .ok ((ks, source'), stop)) :
    ks.length = count ∧ stop = start ∧ ∃ s', Series H q id s ks s' ∧ source' = source q s' := by
  induction count generalizing s ks start with
  | zero =>
      cases h
      exact ⟨rfl, rfl, s, .nil s, rfl⟩
  | succ count ih =>
      obtain ⟨k, next, middle, rest, called, others, rfl⟩ := NonceSource.run_successive_succ.mp h
      rw [run_next] at called
      obtain ⟨rfl, s₁, loop, rfl⟩ := loop_of_rounds length _ called
      obtain ⟨length', same, s', series, left⟩ := ih (loop.length_key length) others
      exact ⟨congrArg (· + 1) length', same, s', .cons loop series, left⟩

/-- With enough patience successive calls give a series. -/
theorem run_of_series {ks : List ℕ} (h : Series H q id s ks s') (length : s.key.length = H.size) :
    ∃ bound, ∀ patience, bound ≤ patience → ∀ tape start,
      (NonceSource.successive ks.length (source q s : HmacNonce H)).run tape patience start =
        .ok ((ks, source q s'), start) := by
  induction h with
  | nil s => exact ⟨0, fun _ _ _ _ => rfl⟩
  | cons loop _ ih =>
      obtain ⟨bound, call⟩ := rounds_of_loop loop length
      obtain ⟨bound', others⟩ := ih (loop.length_key length)
      refine ⟨max bound bound', fun patience enough tape start => ?_⟩
      refine NonceSource.run_successive_succ.mpr ⟨_, _, start, _, ?_,
        others patience (le_of_max_le_right enough) tape start, rfl⟩
      rw [run_next]
      exact call patience (le_of_max_le_left enough) tape patience start

/-- **No renewal after a rejected nonce.**  A source that is set up for an order, a private key
below it and a message gives, in any number of calls, a series of nonces in which nothing is done
between two of them.  So a signer of any scheme goes on from the state in which the rejected nonce
was computed, where the standard renews it. -/
theorem rejected_nonce_not_renewed (before : HmacNonce H) {n d : ℕ} (secret : d < n)
    (message : Bytes) :
    (∀ count ks (source' : HmacNonce H),
      (∃ patience, ∀ tape start,
        (NonceSource.successive count (NonceSource.init before n d message : HmacNonce H)).run tape
          patience start = .ok ((ks, source'), start)) ↔
      ks.length = count ∧
        ∃ s, Series H n id (seeded H n d message) ks s ∧ source' = source n s) ∧
    ∀ {S P : Type} (scheme : SignatureScheme S P) (k : S), scheme.order (.ofPrivate k) = n →
      scheme.secret k = d → ∀ signature,
      let signer : Signer S P (HmacNonce H) :=
        { scheme, nonces := before, key := some (.ofPrivate k) }
      (∃ patience signer', ∀ tape start,
        (signer.sign message).run tape patience start = .ok ((.ok signature, signer'), start)) ↔
      Signs H n id d message (scheme.candidate k message) signature := by
  have length : (seeded H n d message).key.length = H.size := length_hmac H _ _
  have seededSource : (NonceSource.init before n d message : HmacNonce H) =
      source n (seeded H n d message) := init_eq secret message
  rw [seededSource]
  refine ⟨fun count ks source' => ⟨?_, ?_⟩, fun scheme k order key signature => ⟨?_, ?_⟩⟩
  · rintro ⟨patience, run⟩
    obtain ⟨count_eq, -, s, series, left⟩ := series_of_run count length (run (fun _ => 0) 0)
    exact ⟨count_eq, s, series, left⟩
  · rintro ⟨rfl, s, series, rfl⟩
    obtain ⟨bound, run⟩ := run_of_series series length
    exact ⟨bound, fun tape start => run bound le_rfl tape start⟩
  · rintro ⟨patience, signer', run⟩
    obtain ⟨rejected, nonce, signature', nonces, -, calls, unsuitable, taken, answered⟩ :=
      (Signer.run_sign_eq_ok_iff rfl message).mp (run (fun _ => 0) 0)
    cases answered
    dsimp only at calls
    rw [order, key, seededSource] at calls
    obtain ⟨-, -, s, series, -⟩ := series_of_run _ length calls
    exact ⟨rejected, nonce, s, series, unsuitable, taken⟩
  · rintro ⟨rejected, nonce, s, series, unsuitable, taken⟩
    obtain ⟨bound, run⟩ := run_of_series series length
    rw [List.length_append, List.length_singleton] at run
    refine ⟨max bound (rejected.length + 1),
      { scheme, nonces := source n s, key := some (.ofPrivate k) }, fun tape start => ?_⟩
    refine (Signer.run_sign_eq_ok_iff rfl message).mpr ⟨rejected, nonce, signature, _,
      by omega, ?_, unsuitable, taken, rfl⟩
    dsimp only
    rw [order, key, seededSource]
    exact run _ (le_max_left _ _) tape start

/-! ## A nonce that gives zero -/

/-- A group with an order of five bits, in which the fourteenth power of the generator is the
order itself. -/
def fiveBitGroup : Dsa.Group where
  p := 59
  q := 29
  g := 4
  q_size := by decide
  q_lt := by decide
  q_dvd := by decide
  g_range := by decide
  g_order := by cbv

/-- A signer over the group whose first candidate for the byte `80` is out of range, and the second
one is fourteen. -/
def fiveBitSigner : Signer Dsa.PrivateKey Dsa.PublicKey (HmacNonce twoSums) where
  scheme := Dsa.scheme
  nonces := {}
  key := some (.ofPrivate { x := 9, group := fiveBitGroup })

theorem run_fiveBitSigner : ∃ signer', ∀ tape start,
    (fiveBitSigner.sign [0x80]).run tape 2 start =
      .ok ((.ok { r := 25, s := 23 }, signer'), start) :=
  ⟨_, fun tape start => by cbv⟩

/-- The nonces are fourteen, which the signer rejects, and six. -/
theorem rejected_nonce_not_renewed_after_zero :
    9 < 29 ∧ Signs twoSums 29 id 9 [0x80]
      (Dsa.candidate { x := 9, group := fiveBitGroup } [0x80]) { r := 25, s := 23 } := by
  have secret : 9 < 29 := by decide
  obtain ⟨-, signers⟩ := rejected_nonce_not_renewed (H := twoSums) {} secret [0x80]
  refine ⟨secret, (signers Dsa.scheme { x := 9, group := fiveBitGroup } rfl rfl _).mp ?_⟩
  obtain ⟨signer', run⟩ := run_fiveBitSigner
  exact ⟨2, signer', run⟩

/-- In the standard the state is renewed after fourteen, too, and the next nonce is three. -/
theorem signs_fiveBitGroup : Signs twoSums 29 (renew twoSums) 9 [0x80]
    (Dsa.candidate { x := 9, group := fiveBitGroup } [0x80]) { r := 5, s := 15 } := by
  have first : Loop twoSums 29 (seeded twoSums 29 9 [0x80]) 14 _ :=
    .renewed (by decide +kernel) (.of_candidate (by decide +kernel) (by decide))
  have second : Loop twoSums 29 (renew twoSums (Rfc6979.candidate twoSums 29 (renew twoSums
      (Rfc6979.candidate twoSums 29 (seeded twoSums 29 9 [0x80])).2)).2) 3 _ :=
    .of_candidate (by decide +kernel) (by decide)
  refine ⟨[14], 3, _, .cons first (.cons second (.nil _)), ?_, by cbv⟩
  rw [List.forall_mem_singleton]
  cbv

/-- **A rejected nonce does not lead to the next nonce of the standard**, not even with a private
key in range, and so the signature is another one. -/
theorem rejected_nonce_not_standard :
    ¬∀ (H : Hash) (k : Dsa.PrivateKey) (message : Bytes) (signature : Signature),
      k.x < k.group.q →
      let signer : Signer Dsa.PrivateKey Dsa.PublicKey (HmacNonce H) :=
        { scheme := Dsa.scheme, nonces := {}, key := some (.ofPrivate k) }
      (∃ patience signer', ∀ tape start,
        (signer.sign message).run tape patience start = .ok ((.ok signature, signer'), start)) →
      Signs H k.group.q (renew H) k.x message (Dsa.candidate k message) signature := by
  intro claimed
  obtain ⟨signer', run⟩ := run_fiveBitSigner
  have standard := claimed twoSums { x := 9, group := fiveBitGroup } [0x80] { r := 25, s := 23 }
    (by decide) ⟨2, signer', run⟩
  exact absurd (standard.unique signs_fiveBitGroup) (by decide)

end HmacNonce

end PublicKeyCrypto
