import PublicKeyCrypto.Proofs.DiffieHellman.Exchange
import Mathlib

/-!
# Degenerate shared values

A shared value of one can be guessed, and it is meant to be refused.  The basic agreement compares
its shared value with one.  MTI/A0 compares a factor of it: the power of the peer's public value.
Modulo a prime neither gives zero, but the product of two factors may be one while neither of them
is, and then it is given (`shared_one_iff_inverse_factors`).  No value out of range is needed for
that.  For parties that keep to the protocol it is a matter of their exponents
(`shared_eq_one_iff`).

## Main Results

* `shared_one_iff_inverse_factors` — which degenerate values are given
* `shared_one_not_excluded` — a session that gives the shared value one
-/

namespace PublicKeyCrypto.DiffieHellman

variable {group : Group} {k : PrivateKey} {x : ℕ}

/-- An accepted key has the given exponent and group. -/
theorem PrivateKey.eq_of_make (h : PrivateKey.make x group = .ok k) : k = { x, group } :=
  (PrivateKey.make_eq_ok_iff.mp h).2

/-- A value in range is not a multiple of the modulus. -/
theorem Group.not_dvd_of_range {y : ℕ} (range : 2 ≤ y ∧ y ≤ group.p - 2) : ¬group.p ∣ y := by
  have large := group.four_le_p
  exact Nat.not_dvd_of_pos_of_lt (by omega) (by omega)

/-- Modulo a prime, powers of values in range are not zero. -/
theorem Group.pow_ne_zero_of_range (prime : group.p.Prime) {y : ℕ}
    (range : 2 ≤ y ∧ y ≤ group.p - 2) (n : ℕ) : (y : ZMod group.p) ^ n ≠ 0 := by
  have := Fact.mk prime
  apply pow_ne_zero
  rw [Ne, ZMod.natCast_eq_zero_iff]
  exact Group.not_dvd_of_range range

/-- A residue is one if its number is. -/
theorem Group.mod_eq_one_iff (n : ℕ) : n % group.p = 1 ↔ (n : ZMod group.p) = 1 := by
  have large := group.four_le_p
  exact PublicKeyCrypto.mod_eq_one_iff (by omega) n

theorem Group.mod_eq_zero_iff (n : ℕ) : n % group.p = 0 ↔ (n : ZMod group.p) = 0 := by
  rw [ZMod.natCast_eq_zero_iff, Nat.dvd_iff_mod_eq_zero]

/-- What the basic agreement does with a peer that passes its check. -/
theorem Agreement.agree_of_checkPeer {peer : PublicKey} (accepted : k.checkPeer peer = .ok ()) :
    Agreement.agree { key := some k } peer =
      if peer.y ^ k.x % k.group.p = 1 then .error (.invalidAgreement .sharedOne)
      else .ok (peer.y ^ k.x % k.group.p) := by
  unfold agree
  dsimp only
  rw [accepted, powMod_eq]
  rfl

/-- What the basic agreement gives for a peer, and when. -/
theorem Agreement.agree_eq_ok_iff {peer : PublicKey} {z : ℕ} :
    Agreement.agree { key := some k } peer = .ok z ↔
      peer.group = k.group ∧ (2 ≤ peer.y ∧ peer.y ≤ k.group.p - 2) ∧
        z = peer.y ^ k.x % k.group.p ∧ z ≠ 1 := by
  rw [← and_assoc, ← PrivateKey.checkPeer_eq_ok_iff]
  cases checked : k.checkPeer peer with
  | error e => simp [agree, checked, bind, Except.bind]
  | ok _ =>
      rw [agree_of_checkPeer checked, and_iff_right rfl]
      split
      · next one =>
        constructor
        · rintro ⟨⟩
        · rintro ⟨rfl, other⟩
          exact absurd one other
      · next other =>
        constructor
        · rintro ⟨⟩
          exact ⟨rfl, other⟩
        · rintro ⟨rfl, -⟩
          rfl

/-- **Degenerate shared values.**  Modulo a prime no agreement gives zero, and the basic agreement
does not give one.  MTI/A0 gives one if its two factors are inverse to each other and neither of
them is one. -/
theorem shared_one_iff_inverse_factors (prime : group.p.Prime)
    (made : PrivateKey.make x group = .ok k) :
    (∀ peer z, Agreement.agree { key := some k } peer = .ok z → z ≠ 0 ∧ z ≠ 1) ∧
      ∀ e peer message z a,
        (MtiAgreement.awaitingAgreement k (Bytes.minimal e)).agree peer message = (.ok z, a) →
          z ≠ 0 ∧
            (z = 1 ↔ (message : ZMod group.p) ^ x * (peer.y : ZMod group.p) ^ e = 1 ∧
              (message : ZMod group.p) ^ x ≠ 1 ∧ (peer.y : ZMod group.p) ^ e ≠ 1) := by
  have := Fact.mk prime
  obtain rfl := PrivateKey.eq_of_make made
  constructor
  · intro peer z given
    obtain ⟨-, range, rfl, other⟩ := Agreement.agree_eq_ok_iff.mp given
    refine ⟨?_, other⟩
    rw [Ne, Group.mod_eq_zero_iff, Nat.cast_pow]
    exact Group.pow_ne_zero_of_range prime range x
  · intro e peer message z a given
    obtain ⟨acceptable, rfl, -⟩ := MtiAgreement.agree_eq_ok_iff.mp given
    rw [Bytes.value_minimal] at acceptable ⊢
    have factor : (peer.y : ZMod group.p) ^ e ≠ 1 := by
      rw [← Nat.cast_pow, Ne, ← Group.mod_eq_one_iff]
      exact acceptable.factor_ne_one
    constructor
    · rw [MtiAgreement.shared, Ne, Group.mod_eq_zero_iff, Nat.cast_mul, Nat.cast_pow, Nat.cast_pow]
      exact mul_ne_zero (Group.pow_ne_zero_of_range prime acceptable.message_range x)
        (Group.pow_ne_zero_of_range prime acceptable.peer_range e)
    · rw [MtiAgreement.shared, Group.mod_eq_one_iff, Nat.cast_mul, Nat.cast_pow, Nat.cast_pow]
      refine ⟨fun one => ⟨one, fun other => factor ?_, factor⟩, fun h => h.1⟩
      rwa [other, one_mul] at one

theorem smallGroup_prime : smallGroup.p.Prime := by
  show Nat.Prime 7
  norm_num

/-- The exponent one modulo seven, with the peer's public value three.  The basic agreement gives
three; with the session's exponent two and the message four, MTI/A0 gives one. -/
theorem shared_one_iff_inverse_factors_modulo_seven :
    let k : PrivateKey := { x := 1, group := smallGroup }
    let peer : PublicKey := { y := 3, group := smallGroup }
    (∃ z, Agreement.agree { key := some k } peer = .ok z ∧ z ≠ 0 ∧ z ≠ 1) ∧
      ∃ z a, (MtiAgreement.awaitingAgreement k (Bytes.minimal 2)).agree peer 4 = (.ok z, a) ∧
        z ≠ 0 ∧ (z = 1 ↔ (4 : ZMod 7) ^ 1 * (3 : ZMod 7) ^ 2 = 1 ∧ (4 : ZMod 7) ^ 1 ≠ 1 ∧
          (3 : ZMod 7) ^ 2 ≠ 1) := by
  intro k peer
  have basic : Agreement.agree { key := some k } peer = .ok 3 := by cbv
  have product : (MtiAgreement.awaitingAgreement k (Bytes.minimal 2)).agree peer 4 =
      (.ok 1, .done k) := by cbv
  have cases := shared_one_iff_inverse_factors smallGroup_prime (rfl : PrivateKey.make 1 _ = .ok k)
  exact ⟨⟨3, basic, cases.1 peer 3 basic⟩, 1, .done k, product, cases.2 2 peer 4 1 _ product⟩

/-- For a peer with the exponent `y`, which sends the power of the generator to `f`, the shared value
is one if the order of the generator divides the sum of the products of the exponents. -/
theorem MtiAgreement.shared_eq_one_iff (y e f : ℕ) :
    shared { x, group } e (PrivateKey.publicKey { x := y, group }) (group.g ^ f % group.p) = 1 ↔
      orderOf (group.g : ZMod group.p) ∣ f * x + y * e := by
  rw [shared_of_powers, Group.mod_eq_one_iff, Nat.cast_pow, orderOf_dvd_iff_pow_eq_one]

open MtiAgreement in
/-- **One is given.**  A session modulo seven, with the peer's public value three and its message
four, gives the shared value one. -/
theorem shared_one_not_excluded :
    ¬∀ (group : Group) (x : ℕ) (k : PrivateKey) (peer : PublicKey) (message : ℕ)
        (tape : Tape) (patience start : ℕ),
      group.p.Prime → PrivateKey.make x group = .ok k →
      2 ≤ peer.y ∧ peer.y ≤ group.p - 2 → 2 ≤ message ∧ message ≤ group.p - 2 →
      ∀ c ∈ transcript call tape patience idle start
          [.init (.ofPrivate k), .message, .agree peer message],
        ∀ z a stop, c.request = .agree peer message → c.outcome = .ok ((.ok (some z), a), stop) →
          z ≠ 0 ∧ z ≠ 1 := by
  intro promise
  let k : PrivateKey := { x := 1, group := smallGroup }
  let peer : PublicKey := { y := 3, group := smallGroup }
  have calls : transcript call (fun _ => 0) 1 idle 0
      [.init (.ofPrivate k), .message, .agree peer 4] =
        [⟨idle, .init (.ofPrivate k), 0, .ok ((.ok none, awaitingMessage k), 0)⟩,
          ⟨awaitingMessage k, .message, 0, .ok ((.ok (some 2), awaitingAgreement k [2]), 1)⟩,
          ⟨awaitingAgreement k [2], .agree peer 4, 1, .ok ((.ok (some 1), done k), 1)⟩] := by
    cbv
  have kept := promise smallGroup 1 k peer 4 (fun _ => 0) 1 0 smallGroup_prime rfl (by decide)
    (by decide)
  rw [calls] at kept
  exact (kept _ (.tail _ (.tail _ (.head _))) 1 (done k) 1 rfl rfl).2 rfl

end PublicKeyCrypto.DiffieHellman
