import PublicKeyCrypto.Proofs.DiffieHellman.Session
import PublicKeyCrypto.Proofs.ElGamal.Operation
import PublicKeyCrypto.Proofs.Number.Subgroup
import PublicKeyCrypto.Proofs.Random.PrivateValue
import PublicKeyCrypto.Proofs.Signature.Dsa
import Mathlib

/-!
# Generated keys

A generator of keys draws an exponent and makes a key of it without the checks that keys from outside
have to pass.  So the bounds of the sampler and those of the checks are two sets of bounds, and this
module compares them, for the three kinds of groups.

Private keys pass the checks in every group, whatever its components are: an exponent of a fixed
length is short enough because the modulus is odd, and the others are bounded by the order.  Public
keys pass them if the order is an odd prime.  A power of the generator is then a root of unity of that
order, other than one because the exponent is positive and below the order (`root_pow`), and other
than `-1` because the order is odd (`root_le`).

That the generators give a key at all is the other half.  No range is empty, and no range is without
an exponent of sufficient weight, down to the smallest groups.

## Main Results

* `DiffieHellman.Group.attains_generate`, `ElGamal.Group.attains_generate`,
  `Dsa.Group.attains_generate` — which keys are generated
* `generated_keys_accepted` — the checks that generated keys pass
* `first_candidate_suffices` — every key of the right size and weight is generated at once on some tape
-/

namespace PublicKeyCrypto

open Draw

/-! ## Sizes of exponents -/

/-- Numbers with fewer bits than an odd number are not its predecessor. -/
theorem le_of_bitLength_lt {p x : ℕ} (odd : p % 2 = 1) (shorter : bitLength x < bitLength p) :
    x ≤ p - 2 := by
  obtain ⟨k, length⟩ := Nat.exists_eq_succ_of_ne_zero (Nat.ne_zero_of_lt shorter)
  have least : 2 ^ k ≤ p := (bitLength_eq_succ_iff.mp length).1
  have small : x < 2 ^ k := bitLength_le_iff.mp (by omega)
  cases k with
  | zero => omega
  | succ k =>
      rw [pow_succ] at least small
      omega

/-- A private exponent is in the range that is checked. -/
theorem Draw.IsPrivateValue.in_range {p length x : ℕ} {order : Option ℕ}
    (exponent : IsPrivateValue p order length x) (odd : p % 2 = 1)
    (shorter : length = 0 ∨ length < bitLength p) (bounded : order.getD p ≤ p) :
    1 ≤ x ∧ x ≤ p - 2 := by
  by_cases fixed : length = 0
  · have between := exponent.between fixed
    omega
  · have exact_length := exponent.fixed fixed
    refine ⟨Nat.pos_of_ne_zero fun zero => fixed ?_, le_of_bitLength_lt odd (by omega)⟩
    rw [← exact_length, zero]
    rfl

/-! ## The three kinds of groups -/

namespace DiffieHellman

variable {group : Group} {x y : ℕ}

/-- The order, or else the modulus, leaves room for exponents and is at most the modulus. -/
theorem Group.order_bounds (group : Group) :
    4 ≤ group.order.getD group.p ∧ group.order.getD group.p ≤ group.p := by
  have large := group.four_le_p
  cases known : group.order with
  | none => exact ⟨large, le_rfl⟩
  | some q =>
      have range := group.order_range q known
      rw [Option.getD_some]
      omega

theorem Group.attains_generate (group : Group) : group.generate.Attains
    (fun k => ∃ x, IsPrivateValue group.p group.order group.privateLength x ∧ k = { x, group })
    (privateBytes group.p group.order group.privateLength) :=
  (attains_privateValue group.order_bounds.1).map _

/-- What a public key that was accepted is made of. -/
theorem PublicKey.make_eq_ok_iff {peer : PublicKey} :
    PublicKey.make y group = .ok peer ↔
      (2 ≤ y ∧ y ≤ group.p - 2) ∧ (∀ q ∈ group.order, y ^ q ≡ 1 [MOD group.p]) ∧
        peer = { y, group } := by
  have large := group.four_le_p
  rw [PublicKey.make]
  cases checked : group.checkValue y with
  | error e =>
      constructor
      · rintro ⟨⟩
      · rintro ⟨range, -⟩
        rw [Group.checkValue_eq_ok_iff.mpr range] at checked
        cases checked
  | ok _ =>
      rw [and_iff_right (Group.checkValue_eq_ok_iff.mp checked)]
      cases group.order with
      | none =>
          constructor
          · rintro ⟨⟩
            exact ⟨nofun, rfl⟩
          · rintro ⟨-, rfl⟩
            rfl
      | some q =>
          have root : powMod y q group.p = 1 ↔ y ^ q ≡ 1 [MOD group.p] :=
            powMod_eq_one_iff (by omega)
          change (if powMod y q group.p ≠ 1 then _ else _) = _ ↔ _
          split_ifs with outside
          · constructor
            · rintro ⟨⟩
            · rintro ⟨inside, -⟩
              exact absurd (root.mpr (inside q rfl)) outside
          · constructor
            · rintro ⟨⟩
              refine ⟨?_, rfl⟩
              rintro q' ⟨⟩
              exact root.mp (not_not.mp outside)
            · rintro ⟨-, rfl⟩
              rfl

/-- A power of a generator of odd prime order is accepted. -/
theorem PublicKey.make_powMod {q : ℕ} (known : group.order = some q) (prime : q.Prime)
    (root : group.g ^ q ≡ 1 [MOD group.p]) (positive : 1 ≤ x) (small : x ≤ q - 1) :
    PublicKey.make (powMod group.g x group.p) group =
      .ok { y := powMod group.g x group.p, group } := by
  have range := group.order_range q known
  have generator := group.g_range
  have odd : q % 2 = 1 := prime.eq_two_or_odd.resolve_left (by omega)
  obtain ⟨between, power⟩ := root_pow prime (by omega) root positive small
  rw [powMod_eq]
  refine PublicKey.make_eq_ok_iff.mpr ⟨⟨between.1, root_le odd between power⟩, ?_, rfl⟩
  rw [known]
  rintro q' ⟨⟩
  exact power

end DiffieHellman

namespace ElGamal

theorem Group.attains_generate (group : Group) : group.generate.Attains
    (fun k => ∃ x, IsPrivateValue group.p none group.privateLength x ∧ k = { x, group })
    (privateBytes group.p none group.privateLength) :=
  (attains_privateValue (show 4 ≤ Option.getD none group.p from group.four_le_p)).map _

end ElGamal

namespace Dsa

variable {group : Group} {x : ℕ}

theorem Group.attains_generate (group : Group) : group.generate.Attains
    (fun k => ∃ x, ((0 < x ∧ x < group.q) ∧ bitLength group.q / 4 ≤ nafWeight x) ∧ k = { x, group })
    (byteLength group.q) := by
  have large := group.two_le_q
  have longer := group.q_size
  obtain ⟨x, shorter, below, weight⟩ := exists_heavy_below (Nat.zero_lt_of_lt large)
  have positive : 0 < x := by
    refine Nat.pos_of_ne_zero fun zero => ?_
    rw [zero] at shorter
    change 0 = _ at shorter
    omega
  exact (attains_heavy (attains_positiveBelow large) ⟨x, ⟨positive, below⟩, weight⟩).map _

/-- A power of a generator of odd prime order is accepted. -/
theorem PublicKey.make_powMod (prime : group.q.Prime) (odd : Odd group.q) (positive : 1 ≤ x)
    (small : x ≤ group.q - 1) :
    PublicKey.make (powMod group.g x group.p) group =
      .ok { y := powMod group.g x group.p, group } := by
  obtain ⟨between, power⟩ := root_pow prime group.g_range group.pow_q positive small
  have upper := root_le (Nat.odd_iff.mp odd) between power
  rw [powMod_eq]
  refine if_neg fun refused => ?_
  have root := (powMod_eq_one_iff group.one_lt_p).mpr power
  omega

end Dsa

/-! ## Generated keys are accepted -/

/-- **Generated keys pass the checks.**  Private keys are accepted in every group, their weight is at
least a quarter of the length that it is measured by, and a length that is fixed is exact.  Public keys
are accepted if the order is known, prime and odd and the generator is a root of unity of that order.
Where the length of Diffie-Hellman keys is open, the order is used as a bound; where it is fixed, the
exponent may exceed the order and be a multiple of it. -/
theorem generated_keys_accepted :
    (∀ group : DiffieHellman.Group, group.generate.Always fun k =>
      DiffieHellman.PrivateKey.make k.x group = .ok k ∧
      privateBits group.p group.order group.privateLength / 4 ≤ nafWeight k.x ∧
      (group.privateLength ≠ 0 → bitLength k.x = group.privateLength) ∧
      (group.privateLength = 0 → ∀ q ∈ group.order, q.Prime → group.g ^ q ≡ 1 [MOD group.p] →
        DiffieHellman.PublicKey.make k.publicKey.y group = .ok k.publicKey)) ∧
    (∀ group : ElGamal.Group, group.generate.Always fun k =>
      ElGamal.PrivateKey.make k.x group = .ok k ∧
      privateBits group.p none group.privateLength / 4 ≤ nafWeight k.x ∧
      (group.privateLength ≠ 0 → bitLength k.x = group.privateLength)) ∧
    (∀ group : Dsa.Group, group.generate.Always fun k =>
      Dsa.PrivateKey.make k.x group = .ok k ∧
      bitLength group.q / 4 ≤ nafWeight k.x ∧
      (group.q.Prime → Odd group.q →
        Dsa.PublicKey.make k.publicKey.y group = .ok k.publicKey)) := by
  refine ⟨fun group => ?_, fun group => ?_, fun group => ?_⟩
  · refine group.attains_generate.always.mono ?_
    rintro _ ⟨x, exponent, rfl⟩
    have range := exponent.in_range group.p_odd group.length_range group.order_bounds.2
    refine ⟨DiffieHellman.PrivateKey.make_eq_ok_iff.mpr ⟨range, rfl⟩, exponent.heavy, exponent.fixed, ?_⟩
    intro unfixed q known prime root
    have between := exponent.between unfixed
    rw [show group.order = some q from known, Option.getD_some] at between
    have small : x ≤ q - 1 := by omega
    exact DiffieHellman.PublicKey.make_powMod known prime root range.1 small
  · refine group.attains_generate.always.mono ?_
    rintro _ ⟨x, exponent, rfl⟩
    have range := exponent.in_range group.p_odd group.length_range le_rfl
    exact ⟨ElGamal.PrivateKey.make_eq_ok_iff.mpr ⟨range, rfl⟩, exponent.heavy, exponent.fixed⟩
  · refine group.attains_generate.always.mono ?_
    rintro _ ⟨x, ⟨between, weight⟩, rfl⟩
    have small : x ≤ group.q - 1 := by omega
    exact ⟨Dsa.PrivateKey.make_eq_ok_iff.mpr ⟨⟨between.1, small⟩, rfl⟩, weight,
      fun prime odd => Dsa.PublicKey.make_powMod prime odd between.1 small⟩

/-- A group of order five modulo eleven, with an open length. -/
def DiffieHellman.groupOfFive : DiffieHellman.Group where
  p := 11
  g := 3
  order := some 5
  privateLength := 0
  p_size := by decide
  p_odd := by decide
  g_range := by decide
  order_range := by
    rintro q ⟨⟩
    decide
  length_range := by decide

/-- A modulus of 16 bits, with exponents of nine bits. -/
def ElGamal.nineBitGroup : ElGamal.Group where
  p := 32771
  g := 3
  privateLength := 9
  p_size := by decide
  p_odd := by decide
  g_range := by decide
  length_range := by decide

/-- One key of each kind.  The first exponent is the greatest of its range.  The nine bits of the
second one are read from two bytes, and its highest bit is set.  Before the third one, a number is
passed over because it is out of range, one because it is zero, and one because of its weight. -/
theorem generated_keys_accepted_in_small_groups :
    (∃ k, (DiffieHellman.groupOfFive.generate.run (fun _ => 5) 1 0 = .ok (k, 1) ∧ k.x = 3) ∧
      (Nat.Prime 5 ∧ 3 ^ 5 ≡ 1 [MOD 11]) ∧ k.publicKey.y = 5 ∧
      DiffieHellman.PublicKey.make k.publicKey.y DiffieHellman.groupOfFive = .ok k.publicKey) ∧
    (∃ k, ElGamal.nineBitGroup.generate.run (fun _ => 0x5A) 1 0 = .ok (k, 2) ∧ k.x = 0x15A ∧
      9 ≠ 0 ∧ bitLength k.x = 9) ∧
    ∃ k, (Dsa.smallGroup.generate.run (fun i => [0xFF, 0, 1, 7].getD i 0) 3 0 = .ok (k, 4) ∧
      k.x = 7) ∧ (Nat.Prime 131 ∧ Odd 131) ∧ k.publicKey.y = 78 ∧
      Dsa.PublicKey.make k.publicKey.y Dsa.smallGroup = .ok k.publicKey := by
  obtain ⟨diffieHellman, elGamal, dsa⟩ := generated_keys_accepted
  refine ⟨⟨{ x := 3, group := DiffieHellman.groupOfFive }, ?_⟩,
    ⟨{ x := 0x15A, group := ElGamal.nineBitGroup }, ?_⟩, ⟨{ x := 7, group := Dsa.smallGroup }, ?_⟩⟩
  · have drawn : DiffieHellman.groupOfFive.generate.run (fun _ => 5) 1 0 =
        .ok ({ x := 3, group := DiffieHellman.groupOfFive }, 1) := by cbv
    obtain ⟨-, -, -, accepted⟩ := (diffieHellman _).value drawn
    have prime : Nat.Prime 5 := by norm_num
    exact ⟨⟨drawn, rfl⟩, ⟨prime, by decide⟩, by cbv, accepted rfl 5 rfl prime (by decide)⟩
  · have drawn : ElGamal.nineBitGroup.generate.run (fun _ => 0x5A) 1 0 =
        .ok ({ x := 0x15A, group := ElGamal.nineBitGroup }, 2) := by cbv
    obtain ⟨-, -, fixed⟩ := (elGamal _).value drawn
    exact ⟨drawn, rfl, by decide, fixed (by decide)⟩
  · have drawn : Dsa.smallGroup.generate.run (fun i => [0xFF, 0, 1, 7].getD i 0) 3 0 =
        .ok ({ x := 7, group := Dsa.smallGroup }, 4) := by cbv
    obtain ⟨-, -, accepted⟩ := (dsa _).value drawn
    have prime : Nat.Prime 131 := by norm_num
    have odd : Odd 131 := Nat.odd_iff.mpr rfl
    have power : powMod 4 7 263 = 78 := powMod_eq 4 7 263
    exact ⟨⟨drawn, rfl⟩, ⟨prime, odd⟩, power, accepted prime odd⟩

/-! ## Every key is generated at once on some tape -/

/-- **One candidate is enough.**  In every group, whatever its components are, there are exponents of
the right size and weight; exactly the keys of such exponents are generated, each of them from some
tape with its first candidate, and no difference is negative and no range is empty on the way. -/
theorem first_candidate_suffices :
    (∀ group : DiffieHellman.Group, group.generate.Attains
      (fun k => ∃ x, IsPrivateValue group.p group.order group.privateLength x ∧ k = { x, group })
      (privateBytes group.p group.order group.privateLength)) ∧
    (∀ group : ElGamal.Group, group.generate.Attains
      (fun k => ∃ x, IsPrivateValue group.p none group.privateLength x ∧ k = { x, group })
      (privateBytes group.p none group.privateLength)) ∧
    ∀ group : Dsa.Group, group.generate.Attains
      (fun k => ∃ x, ((1 ≤ x ∧ x < group.q) ∧ bitLength group.q / 4 ≤ nafWeight x) ∧
        k = { x, group })
      (byteLength group.q) :=
  ⟨DiffieHellman.Group.attains_generate, ElGamal.Group.attains_generate,
    Dsa.Group.attains_generate⟩

end PublicKeyCrypto
