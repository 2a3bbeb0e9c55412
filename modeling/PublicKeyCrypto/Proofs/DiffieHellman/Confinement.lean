import PublicKeyCrypto.Proofs.DiffieHellman.Degenerate
import PublicKeyCrypto.Proofs.Keys.Generated
import PublicKeyCrypto.Proofs.Number.Subgroup
import Mathlib

/-!
# Peers that were validated

A peer chooses its public value, and may choose it in a small subgroup, so that few shared values
are left.  The check against that is one power: the value to the known order is one.  It says that
the order of the value divides the known one, which is prime, and the check of the range excludes
the value one.  So the two orders are equal (`PublicKey.orderOf_of_make`).  Nothing is used of the
generator, of which the order is not checked, and the modulus need not be prime.

Powers of such a value have the same order, unless the exponent is a multiple of it
(`orderOf_pow_of_prime`).  The refusal of the shared value one is therefore a matter of the private
exponent alone, and no choice of the peer leads there.

## Main Results

* `PublicKey.orderOf_of_make` — the order of a public value that was accepted
* `agree_validated` — what is shared with a validated peer, and when it is refused
-/

namespace PublicKeyCrypto.DiffieHellman

/-- A group that was accepted has the given components. -/
theorem Group.eq_of_make {p g length : ℕ} {order : Option ℕ} {group : Group}
    (h : Group.make p g order length = .ok group) : group.p = p ∧ group.order = order := by
  unfold Group.make at h
  split_ifs at h
  cases h
  exact ⟨rfl, rfl⟩

/-- The components of every group are accepted. -/
theorem Group.make_self (group : Group) :
    Group.make group.p group.g group.order group.privateLength = .ok group := by
  rw [Group.make, dif_pos ⟨group.p_size, group.p_odd⟩, dif_pos group.g_range,
    dif_pos group.order_range, dif_pos group.length_range]

/-- An element of prime order keeps it in the powers whose exponents are not multiples of it. -/
theorem orderOf_pow_of_prime {M : Type*} [Monoid M] {a : M} {q x : ℕ} (prime : q.Prime)
    (order : orderOf a = q) (free : ¬q ∣ x) : orderOf (a ^ x) = q := by
  have coprime : (orderOf a).Coprime x := by rwa [order, prime.coprime_iff_not_dvd]
  rw [coprime.orderOf_pow, order]

/-- **Accepted public values** have the known order, if that is prime. -/
theorem PublicKey.orderOf_of_make {group : Group} {peer : PublicKey} {q y : ℕ}
    (known : group.order = some q) (prime : q.Prime) (made : PublicKey.make y group = .ok peer) :
    orderOf (y : ZMod group.p) = q := by
  obtain ⟨range, root, -⟩ := PublicKey.make_eq_ok_iff.mp made
  have large := group.four_le_p
  exact orderOf_root prime (by omega) (root q known)

/-- **The value shared with a validated peer.**  It has the known order, so that its power is one
and it is not one itself; whatever the peer has chosen, it is refused only if the private exponent
is a multiple of the order.  The modulus is not assumed to be prime. -/
theorem agree_validated {p g q length x y : ℕ} {group : Group} {peer : PublicKey} {k : PrivateKey}
    (parameters : Group.make p g (some q) length = .ok group) (prime : q.Prime)
    (validated : PublicKey.make y group = .ok peer) (held : PrivateKey.make x group = .ok k)
    (a : Agreement) :
    (¬q ∣ x → ∃ z, (a.init (.ofPrivate k)).2.agree peer = .ok z ∧
      z ^ q ≡ 1 [MOD p] ∧ z ≠ 1 ∧ orderOf (z : ZMod p) = q) ∧
    (q ∣ x → (a.init (.ofPrivate k)).2.agree peer = .error (.invalidAgreement .sharedOne)) := by
  obtain ⟨rfl, known⟩ := Group.eq_of_make parameters
  obtain rfl := PrivateKey.eq_of_make held
  have order := PublicKey.orderOf_of_make known prime validated
  obtain ⟨range, root, rfl⟩ := PublicKey.make_eq_ok_iff.mp validated
  have accepted : ({ x, group } : PrivateKey).checkPeer { y, group } = .ok () :=
    PrivateKey.checkPeer_eq_ok_iff.mpr ⟨rfl, range⟩
  have answer : (a.init (.ofPrivate { x, group })).2.agree { y, group } =
      if y ^ x % group.p = 1 then _ else _ := Agreement.agree_of_checkPeer accepted
  rw [answer]
  constructor
  · intro free
    have shared : orderOf ((y ^ x % group.p : ℕ) : ZMod group.p) = q := by
      rw [ZMod.natCast_mod, Nat.cast_pow]
      exact orderOf_pow_of_prime prime order free
    have other : y ^ x % group.p ≠ 1 := by
      intro one
      rw [one, Nat.cast_one, orderOf_one] at shared
      exact prime.one_lt.ne shared
    refine ⟨y ^ x % group.p, if_neg other, ?_, other, shared⟩
    rw [← ZMod.natCast_eq_natCast_iff, Nat.cast_pow, Nat.cast_one, ← shared, pow_orderOf_eq_one]
  · intro multiple
    rw [if_pos]
    rw [Group.mod_eq_one_iff, Nat.cast_pow, ← orderOf_dvd_iff_pow_eq_one, order]
    exact multiple

/-- A group of order five modulo the product of eleven and 31. -/
def productGroup : Group where
  p := 341
  g := 311
  order := some 5
  privateLength := 0
  p_size := by decide
  p_odd := by decide
  g_range := by decide
  order_range := by
    rintro q ⟨⟩
    decide
  length_range := by decide

/-- The powers of the generator are one modulo 31, and the public value of the peer is not, so that
it is none of them.  With the exponent seven the shared value is 221, and it has the order five
too; with the exponent ten it is refused. -/
theorem agree_validated_outside_generated :
    Group.make 341 311 (some 5) 0 = .ok productGroup ∧ Nat.Prime 5 ∧
      ∃ peer, PublicKey.make 188 productGroup = .ok peer ∧
        (∃ k, PrivateKey.make 7 productGroup = .ok k ∧ ¬5 ∣ 7 ∧
          ∃ z, (Agreement.init {} (.ofPrivate k)).2.agree peer = .ok z ∧
            z ^ 5 ≡ 1 [MOD 341] ∧ z ≠ 1 ∧ orderOf (z : ZMod 341) = 5) ∧
        ∃ k, PrivateKey.make 10 productGroup = .ok k ∧ 5 ∣ 10 ∧
          (Agreement.init {} (.ofPrivate k)).2.agree peer =
            .error (.invalidAgreement .sharedOne) := by
  have parameters : Group.make 341 311 (some 5) 0 = .ok productGroup := Group.make_self productGroup
  have prime : Nat.Prime 5 := by norm_num
  have validated : PublicKey.make 188 productGroup = .ok { y := 188, group := productGroup } := by
    refine PublicKey.make_eq_ok_iff.mpr ⟨by decide, ?_, rfl⟩
    rintro q ⟨⟩
    decide
  have seven : PrivateKey.make 7 productGroup = .ok { x := 7, group := productGroup } := by cbv
  have ten : PrivateKey.make 10 productGroup = .ok { x := 10, group := productGroup } := by cbv
  refine ⟨parameters, prime, _, validated, ⟨_, seven, by decide, ?_⟩, ⟨_, ten, by decide, ?_⟩⟩
  · exact (agree_validated parameters prime validated seven {}).1 (by decide)
  · exact (agree_validated parameters prime validated ten {}).2 (by decide)

end PublicKeyCrypto.DiffieHellman
