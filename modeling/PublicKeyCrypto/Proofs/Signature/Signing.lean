import PublicKeyCrypto.Proofs.Number.Modular
import PublicKeyCrypto.Proofs.Random.Outcomes
import PublicKeyCrypto.Signature.Signer
import Mathlib

/-!
# What a signer returns

The signing loop is the same for every scheme, and so is the argument about it: whatever the nonce
source gives, the loop returns only what the scheme gives for *some* nonce.  A scheme that accepts
its own candidates therefore accepts every signature that is returned, and nothing has to be known
about the nonces — neither their range, nor that they differ, nor that the source ever gives a
suitable one.

The arithmetic that two of the schemes share is here as well: verification divides by `s` what
signing divided by the nonce, and so comes back to the nonce.

## Main Definitions

* `SignatureScheme.AcceptsOwn` — a key pair whose candidates are in range and are valid

## Main Results

* `Signer.sign_yields` — what is returned was a candidate for some nonce
* `Signer.sign_accepted` — a signature of a scheme that accepts its own is verified
* `nonce_recovered` — the exponent that verification computes is the nonce
-/

namespace PublicKeyCrypto

/-- The range check, as inequalities. -/
theorem Signature.inRange_iff {signature : Signature} {order : ℕ} :
    signature.inRange order = true ↔
      (1 ≤ signature.r ∧ signature.r ≤ order - 1) ∧
        (1 ≤ signature.s ∧ signature.s ≤ order - 1) := by
  simp only [Signature.inRange, ne_eq, decide_not, Bool.and_eq_true, Bool.not_eq_true',
    decide_eq_false_iff_not, decide_eq_true_eq]
  omega

/-- Numbers that were reduced modulo the order and are not zero are in range. -/
theorem Signature.inRange_of_mod {signature : Signature} {order a b : ℕ} (positive : 0 < order)
    (hr : signature.r = a % order) (hs : signature.s = b % order) (r_ne : signature.r ≠ 0)
    (s_ne : signature.s ≠ 0) : signature.inRange order = true := by
  have r_lt : signature.r < order := hr ▸ Nat.mod_lt a positive
  have s_lt : signature.s < order := hs ▸ Nat.mod_lt b positive
  rw [inRange_iff]
  omega

variable {S P K : Type}

/-- Every signature that some nonce gives under the private key is in range for the order and is
valid under the public key. -/
def SignatureScheme.AcceptsOwn (scheme : SignatureScheme S P) (order : ℕ) (k : S) (pk : P) :
    Prop :=
  ∀ message nonce signature, scheme.candidate k message nonce = some signature →
    signature.inRange order = true ∧ scheme.verify pk message signature = true

namespace Signer

variable [NonceSource K]

/-- The loop returns what some nonce gave.  The states of the loop are nonce sources, of which
nothing is kept: any source may follow. -/
theorem firstSuitable_yields (candidate : ℕ → Option Signature) (nonces : K) :
    (firstSuitable candidate nonces).Yields fun found => ∃ nonce, candidate nonce = some found.1 := by
  refine Draw.ensures_untilDone trivial (fun _ => True) trivial fun source _ => ?_
  -- Nothing is known of what a source gives; only the candidate made of it is looked at.
  have anyNonce : (NonceSource.next source).Yields fun _ => True :=
    Draw.yields_iff.mpr fun _ _ _ _ _ _ => trivial
  refine Draw.ensures_bind (anyNonce.mono ?_)
  rintro ⟨nonce, nonces'⟩ -
  refine Draw.ensures_pure ?_
  cases suitable : candidate nonce with
  | none => trivial
  | some signature => exact ⟨nonce, suitable⟩

/-- A signer with a private key answers with a candidate of its scheme, never with an error. -/
theorem sign_yields {signer : Signer S P K} {k : S} (hkey : signer.key = some (.ofPrivate k))
    (message : Bytes) :
    (signer.sign message).Yields fun reply =>
      ∃ nonce signature, signer.scheme.candidate k message nonce = some signature ∧
        reply.1 = .ok signature := by
  unfold sign
  rw [hkey]
  refine Draw.ensures_bind ((firstSuitable_yields _ _).mono ?_)
  rintro ⟨signature, nonces⟩ ⟨nonce, suitable⟩
  exact Draw.ensures_pure ⟨nonce, signature, suitable, rfl⟩

/-- **Signing, then verifying.**  Both signers may have been in any state before their keys were
set. -/
theorem sign_accepted {K' : Type} (signer : Signer S P K) (verifier : Signer S P K') {order : ℕ}
    {k : S} {pk : P} (same : verifier.scheme = signer.scheme)
    (accepts : signer.scheme.AcceptsOwn order k pk) (message : Bytes) :
    ((signer.init .sign (.ofPrivate k)).2.sign message).Yields fun reply =>
      ∃ signature, reply.1 = .ok signature ∧
        (1 ≤ signature.r ∧ signature.r ≤ order - 1) ∧
        (1 ≤ signature.s ∧ signature.s ≤ order - 1) ∧
        (verifier.init .verify (.ofPublic pk)).2.verify message signature = .ok true := by
  have keyed : (signer.init .sign (.ofPrivate k)).2.key = some (.ofPrivate k) := rfl
  refine (sign_yields keyed message).mono ?_
  rintro reply ⟨nonce, signature, suitable, answered⟩
  obtain ⟨inRange, valid⟩ := accepts message nonce signature suitable
  obtain ⟨hr, hs⟩ := Signature.inRange_iff.mp inRange
  refine ⟨signature, answered, hr, hs, ?_⟩
  show Except.ok (verifier.scheme.verify pk message signature) = _
  rw [same, valid]

end Signer

/-! ## The signing equation -/

/-- With `s = (e + x r) / k` and `w = 1 / s`, the exponents `e w` and `r w` of verification add up
to the nonce `k`, the second one counted `x` times. -/
theorem nonce_recovered {n k inverse e x r s w : ℕ} (hk : k * inverse ≡ 1 [MOD n])
    (hs : s = inverse * (e + x * r) % n) (hw : s * w ≡ 1 [MOD n]) :
    e * w % n + x * (r * w % n) ≡ k [MOD n] := by
  have signed : inverse * (e + x * r) ≡ s [MOD n] := by
    rw [hs]
    exact (Nat.mod_modEq _ _).symm
  calc e * w % n + x * (r * w % n)
      ≡ e * w + x * (r * w) [MOD n] :=
        (Nat.mod_modEq _ _).add ((Nat.mod_modEq _ _).mul_left x)
    _ = 1 * ((e + x * r) * w) := by ring
    _ ≡ k * inverse * ((e + x * r) * w) [MOD n] := hk.symm.mul_right _
    _ = k * (inverse * (e + x * r) * w) := by ring
    _ ≡ k * (s * w) [MOD n] := (signed.mul_right w).mul_left k
    _ ≡ k * 1 [MOD n] := hw.mul_left k
    _ = k := mul_one k

end PublicKeyCrypto
