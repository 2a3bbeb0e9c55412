import PublicKeyCrypto.Proofs.Number.Subgroup
import PublicKeyCrypto.Proofs.Random.Sampler
import PublicKeyCrypto.Proofs.Signature.FirstSuitable
import Mathlib

/-!
# When a DSA signature can be made

A nonce suits if it has an inverse and neither number of the signature is zero.  The first number is
the residue modulo `q` of an element of the subgroup, and the second one is zero exactly if that
element solves a linear congruence that the key and the message give.  So what suits is a question
about the subgroup alone: whether it has an element other than one that lies in neither of two
residue classes modulo `q`.  With `p` and `q` prime these elements are the roots of unity, whatever
the generator is.

The checks of the components of a group do not answer this question.  In a group of order two the
only root is `p - 1`, which `q` divides, and there is no signature at all; modulo 13 both roots of
order three are multiples of three.  But a class has only `(p - 1) / q` numbers, so that a subgroup
that is not much smaller than `p` has a root outside of both.

## Main Definitions

* `Group.IsRoot`, `Group.powers` — the roots of unity of order `q`, and the powers of the generator
* `Signable` — some nonce below the order suits

## Main Results

* `signable_iff` — the condition on the roots
* `signable_of_large` — groups with more roots than two classes have numbers
* `not_signable_of_two` — groups of order two
* `exists_run_sign`, `sign_random_never` — random nonces lead to a signature, or never do
* `signable_or_never_signed` — the two cases, for every private key that is accepted
* `not_signable_modulo_three` — in the smallest group nothing is signed
-/

namespace PublicKeyCrypto.Dsa

/-! ## The roots of unity -/

namespace Group

variable (group : Group)

/-- The number is a root of unity of order `q`: an element of the subgroup other than one. -/
def IsRoot (y : ℕ) : Prop := (1 < y ∧ y < group.p) ∧ y ^ group.q ≡ 1 [MOD group.p]

/-- The order of the generator as a residue. -/
theorem orderOf_g (prime : group.q.Prime) : orderOf (group.g : ZMod group.p) = group.q :=
  orderOf_root prime group.g_range group.pow_q

variable {group}

/-- The powers with exponents below the order are different elements. -/
theorem pow_inj (prime : group.q.Prime) {a b : ℕ} (ha : a < group.q) (hb : b < group.q)
    (same : group.g ^ a % group.p = group.g ^ b % group.p) : a = b :=
  root_pow_inj prime group.g_range group.pow_q ha hb same

/-- The powers with positive exponents below the order. -/
def powers (group : Group) : Finset ℕ :=
  (Finset.Icc 1 (group.q - 1)).image fun nonce => group.g ^ nonce % group.p

theorem card_powers (prime : group.q.Prime) : group.powers.card = group.q - 1 := by
  rw [powers, Finset.card_image_of_injOn, Nat.card_Icc, Nat.add_sub_cancel]
  intro a ha b hb same
  rw [Finset.mem_coe, Finset.mem_Icc] at ha hb
  exact pow_inj prime (by omega) (by omega) same

/-- These powers are roots. -/
theorem isRoot_pow (prime : group.q.Prime) {nonce : ℕ} (positive : 1 ≤ nonce)
    (small : nonce ≤ group.q - 1) : group.IsRoot (group.g ^ nonce % group.p) :=
  root_pow prime group.g_range group.pow_q positive small

/-- Modulo a prime there are no other roots. -/
theorem IsRoot.exists_pow (prime_p : group.p.Prime) (prime_q : group.q.Prime) {y : ℕ}
    (root : group.IsRoot y) :
    ∃ nonce, (1 ≤ nonce ∧ nonce ≤ group.q - 1) ∧ group.g ^ nonce % group.p = y := by
  have : Fact group.p.Prime := ⟨prime_p⟩
  have : NeZero group.q := ⟨prime_q.ne_zero⟩
  have primitive : IsPrimitiveRoot (group.g : ZMod group.p) group.q := by
    rw [← group.orderOf_g prime_q]
    exact IsPrimitiveRoot.orderOf _
  have unity : (y : ZMod group.p) ^ group.q = 1 := by
    have power := (ZMod.natCast_eq_natCast_iff _ _ _).mpr root.2
    rwa [Nat.cast_pow, Nat.cast_one] at power
  obtain ⟨nonce, small, same⟩ := primitive.eq_pow_of_pow_eq_one unity
  have element : group.g ^ nonce % group.p = y := by
    rw [← Nat.cast_pow, ZMod.natCast_eq_natCast_iff] at same
    rw [show group.g ^ nonce % group.p = y % group.p from same, Nat.mod_eq_of_lt root.1.2]
  refine ⟨nonce, ⟨?_, by omega⟩, element⟩
  rw [Nat.one_le_iff_ne_zero]
  rintro rfl
  rw [pow_zero, Nat.mod_eq_of_lt group.one_lt_p] at element
  exact absurd element root.1.1.ne

end Group

/-! ## What suits -/

/-- Some nonce below the order suits. -/
def Signable (k : PrivateKey) (message : Bytes) : Prop :=
  ∃ nonce, (1 ≤ nonce ∧ nonce ≤ k.group.q - 1) ∧
    ∃ signature, candidate k message nonce = some signature

variable {k : PrivateKey} {message : Bytes} {nonce : ℕ}

/-- A nonce suits if it has an inverse and its element lies in neither of two residue classes. -/
theorem exists_candidate_iff :
    (∃ signature, candidate k message nonce = some signature) ↔
      nonce.Coprime k.group.q ∧ k.group.g ^ nonce % k.group.p % k.group.q ≠ 0 ∧
        (messageNumber k.group.q message + k.x * (k.group.g ^ nonce % k.group.p))
          % k.group.q ≠ 0 := by
  have positive : 0 < k.group.q := Nat.zero_lt_of_lt k.group.two_le_q
  set y := k.group.g ^ nonce % k.group.p with hy
  set e := messageNumber k.group.q message
  -- The signature has the residue of the element in place of the element.
  have residue : (e + k.x * (y % k.group.q)) % k.group.q = (e + k.x * y) % k.group.q :=
    ((Nat.mod_modEq _ _).mul_left k.x).add_left e
  constructor
  · rintro ⟨signature, made⟩
    obtain ⟨inverse, found, hr, hs, r_ne, s_ne⟩ := candidate_eq_some_iff.mp made
    refine ⟨(exists_invMod_iff positive).mp ⟨inverse, found⟩, hr ▸ r_ne, fun zero => s_ne ?_⟩
    rw [hs, hr, Nat.mul_mod, residue, zero, Nat.mul_zero, Nat.zero_mod]
  · rintro ⟨coprime, r_ne, s_ne⟩
    obtain ⟨inverse, found⟩ := exists_invMod coprime
    refine ⟨{ r := y % k.group.q, s := inverse * (e + k.x * (y % k.group.q)) % k.group.q },
      candidate_eq_some_iff.mpr ⟨inverse, found, rfl, rfl, r_ne, fun zero => s_ne ?_⟩⟩
    have invertible : inverse.Coprime k.group.q := by
      have product := (invMod_sound positive found).2
      rw [mul_comm] at product
      exact coprime_of_mul_modEq_one product
    rw [← residue]
    exact Nat.mod_eq_zero_of_dvd
      (invertible.symm.dvd_of_dvd_mul_left (Nat.dvd_of_mod_eq_zero zero))

/-- Below a prime order every nonce has an inverse. -/
theorem exists_candidate_iff_of_prime (prime : k.group.q.Prime) (positive : 1 ≤ nonce)
    (small : nonce ≤ k.group.q - 1) :
    (∃ signature, candidate k message nonce = some signature) ↔
      k.group.g ^ nonce % k.group.p % k.group.q ≠ 0 ∧
        (messageNumber k.group.q message + k.x * (k.group.g ^ nonce % k.group.p))
          % k.group.q ≠ 0 := by
  have coprime : nonce.Coprime k.group.q :=
    (Nat.coprime_of_lt_prime (by omega) (by omega) prime).symm
  rw [exists_candidate_iff]
  exact and_iff_right coprime

/-- If any nonce suits, then one below the order does. -/
theorem signable_of_candidate {signature : Signature}
    (made : candidate k message nonce = some signature) : Signable k message := by
  obtain ⟨coprime, r_ne, s_ne⟩ := exists_candidate_iff.mp ⟨signature, made⟩
  have large := k.group.two_le_q
  have same : k.group.g ^ (nonce % k.group.q) % k.group.p = k.group.g ^ nonce % k.group.p :=
    k.group.pow_modEq (Nat.mod_modEq _ _)
  have reduced : (nonce % k.group.q).Coprime k.group.q := by
    rw [Nat.Coprime, ← Nat.gcd_rec, Nat.gcd_comm]
    exact coprime
  have positive : nonce % k.group.q ≠ 0 := by
    intro zero
    rw [zero, Nat.coprime_zero_left] at reduced
    omega
  have small := Nat.mod_lt nonce (show 0 < k.group.q by omega)
  exact ⟨nonce % k.group.q, ⟨by omega, by omega⟩,
    exists_candidate_iff.mpr ⟨reduced, same ▸ r_ne, same ▸ s_ne⟩⟩

/-- **The condition on the roots.**  A signature can be made exactly if a root of unity is neither
zero modulo `q` nor the solution of the congruence for `s = 0`. -/
theorem signable_iff (prime_p : k.group.p.Prime) (prime_q : k.group.q.Prime) :
    Signable k message ↔ ∃ y, k.group.IsRoot y ∧ y % k.group.q ≠ 0 ∧
      (messageNumber k.group.q message + k.x * y) % k.group.q ≠ 0 := by
  constructor
  · rintro ⟨nonce, ⟨positive, small⟩, suits⟩
    exact ⟨_, Group.isRoot_pow prime_q positive small,
      (exists_candidate_iff_of_prime prime_q positive small).mp suits⟩
  · rintro ⟨y, root, suits⟩
    obtain ⟨nonce, ⟨positive, small⟩, rfl⟩ := root.exists_pow prime_p prime_q
    exact ⟨nonce, ⟨positive, small⟩,
      (exists_candidate_iff_of_prime prime_q positive small).mpr suits⟩

/-- In a group of order two nothing can be signed: the only root is `p - 1`. -/
theorem not_signable_of_two (prime_p : k.group.p.Prime) (two : k.group.q = 2) :
    ¬ Signable k message := by
  have : Fact k.group.p.Prime := ⟨prime_p⟩
  rw [signable_iff prime_p (two ▸ Nat.prime_two)]
  rintro ⟨y, ⟨⟨above, below⟩, power⟩, r_ne, -⟩
  have square : (y : ZMod k.group.p) * y = 1 := by
    rw [two] at power
    have cast := (ZMod.natCast_eq_natCast_iff _ _ _).mpr power
    rwa [Nat.cast_pow, Nat.cast_one, pow_two] at cast
  have last : y + 1 = k.group.p := by
    rcases mul_self_eq_one_iff.mp square with one | minus
    · have same : y ≡ 1 [MOD k.group.p] :=
        (ZMod.natCast_eq_natCast_iff _ _ _).mp (one.trans Nat.cast_one.symm)
      exact absurd (same.eq_of_lt_of_lt below k.group.one_lt_p) above.ne'
    · have zero : y + 1 ≡ 0 [MOD k.group.p] :=
        (ZMod.natCast_eq_natCast_iff _ _ _).mp (by
          rw [Nat.cast_add, minus, Nat.cast_one, Nat.cast_zero, neg_add_cancel])
      exact le_antisymm below (Nat.le_of_dvd (Nat.succ_pos y) (Nat.modEq_zero_iff_dvd.mp zero))
  apply r_ne
  rw [show y = k.group.p - 1 by omega]
  exact k.group.q_dvd

/-- Numbers up to `q m` that lie in two residue classes modulo `q` are at most `2 m`: they are told
apart by their class and by the interval of length `q` in which they lie. -/
theorem card_le_of_two_classes {q m : ℕ} {numbers : Finset ℕ}
    (inside : ∀ a ∈ numbers, 1 ≤ a ∧ a ≤ q * m) (first : ℕ → Prop) [DecidablePred first]
    (classes : ∀ a ∈ numbers, ∀ b ∈ numbers, (first a ↔ first b) → a ≡ b [MOD q]) :
    numbers.card ≤ 2 * m := by
  let place (a : ℕ) : Bool × ℕ := (decide (first a), (a - 1) / q)
  have places : ∀ a ∈ numbers, place a ∈ (Finset.univ : Finset Bool) ×ˢ Finset.range m := by
    intro a ha
    obtain ⟨positive, small⟩ := inside a ha
    refine Finset.mem_product.mpr ⟨Finset.mem_univ _, Finset.mem_range.mpr ?_⟩
    exact Nat.div_lt_of_lt_mul (by omega)
  by_contra more
  have fewer : ((Finset.univ : Finset Bool) ×ˢ Finset.range m).card < numbers.card := by
    rw [Finset.card_product, Finset.card_univ, Fintype.card_bool, Finset.card_range]
    exact not_le.mp more
  obtain ⟨a, ha, b, hb, distinct, same⟩ :=
    Finset.exists_ne_map_eq_of_card_lt_of_maps_to fewer places
  obtain ⟨class_eq, interval⟩ := Prod.mk.inj same
  have residue : a - 1 ≡ b - 1 [MOD q] := by
    apply Nat.ModEq.add_right_cancel' 1
    rw [Nat.sub_add_cancel (inside a ha).1, Nat.sub_add_cancel (inside b hb).1]
    exact classes a ha b hb (decide_eq_decide.mp class_eq)
  have before : a - 1 = b - 1 := by
    rw [← Nat.div_add_mod (a - 1) q, ← Nat.div_add_mod (b - 1) q, interval,
      show (a - 1) % q = (b - 1) % q from residue]
  have := (inside a ha).1
  have := (inside b hb).1
  omega

/-- **Large groups.**  If there are more roots than numbers in two residue classes, then a signature
can be made for every key and message. -/
theorem signable_of_large (prime : k.group.q.Prime) (unit : k.x.Coprime k.group.q)
    (large : 2 * (k.group.p - 1) < k.group.q * (k.group.q - 1)) : Signable k message := by
  obtain ⟨m, whole⟩ := Nat.dvd_of_mod_eq_zero k.group.q_dvd
  by_contra none
  have unsuitable : ∀ y ∈ k.group.powers, (1 ≤ y ∧ y ≤ k.group.q * m) ∧ (y % k.group.q ≠ 0 →
      (messageNumber k.group.q message + k.x * y) % k.group.q = 0) := by
    intro y hy
    obtain ⟨nonce, inside, rfl⟩ := Finset.mem_image.mp hy
    obtain ⟨positive, small⟩ := Finset.mem_Icc.mp inside
    obtain ⟨⟨above, below⟩, -⟩ := Group.isRoot_pow prime positive small
    refine ⟨⟨above.le, by rw [← whole]; exact Nat.le_sub_one_of_lt below⟩, fun r_ne => ?_⟩
    by_contra s_ne
    exact none ⟨nonce, ⟨positive, small⟩,
      (exists_candidate_iff_of_prime prime positive small).mpr ⟨r_ne, s_ne⟩⟩
  -- The roots that do not give `r = 0` all solve one congruence, so that they are in one class.
  have few : k.group.q - 1 ≤ 2 * m := by
    rw [← Group.card_powers prime]
    refine card_le_of_two_classes (fun y hy => (unsuitable y hy).1) (· % k.group.q = 0) ?_
    intro y hy y' hy' same
    by_cases zero : y % k.group.q = 0
    · exact zero.trans (same.mp zero).symm
    · have solves := (unsuitable y hy).2 zero
      have solves' := (unsuitable y' hy').2 fun zero' => zero (same.mpr zero')
      have product : k.x * y ≡ k.x * y' [MOD k.group.q] :=
        Nat.ModEq.add_left_cancel' _ (solves.trans solves'.symm)
      exact Nat.ModEq.cancel_left_of_coprime unit.symm product
  have product : k.group.q * (k.group.q - 1) ≤ 2 * (k.group.p - 1) := by
    calc k.group.q * (k.group.q - 1) ≤ k.group.q * (2 * m) := Nat.mul_le_mul_left _ few
      _ = 2 * (k.group.p - 1) := by rw [whole]; ring
  omega

/-! ## Signing -/

/-- Without a suitable nonce below the order no source leads to an answer. -/
theorem sign_never {K : Type} [NonceSource K] (nonces : K) (none : ¬ Signable k message) :
    let signer : Signer PrivateKey PublicKey K := { scheme, nonces, key := some (.ofPrivate k) }
    (signer.sign message).Yields fun _ => False := by
  intro signer
  refine (signer.sign_yields rfl message).mono ?_
  rintro reply ⟨nonce, signature, made, -⟩
  exact none (signable_of_candidate made)

/-- Random nonces are then drawn for ever: no run ends but with its patience used up. -/
theorem sign_random_never (nonces : RandomNonce) (none : ¬ Signable k message) :
    let signer : Signer PrivateKey PublicKey RandomNonce :=
      { scheme, nonces, key := some (.ofPrivate k) }
    (signer.sign message).Always fun _ => False := by
  intro signer
  have keyed : signer.key = some (.ofPrivate k) := rfl
  rw [Signer.sign_eq keyed]
  refine Draw.ensures_bind ?_
  -- The source keeps the order, so that there always is a nonce to be drawn.
  refine Draw.ensures_untilDone rfl (fun source : RandomNonce => source.order = k.group.q) rfl
    fun source kept => ?_
  have large : 2 ≤ source.order := kept ▸ k.group.two_le_q
  refine Draw.ensures_bind (Draw.ensures_bind ((Draw.positiveBelow_always large).mono
    fun nonce _ => Draw.ensures_pure (Draw.ensures_pure ?_)))
  have unsuitable : signer.scheme.candidate k message nonce = Option.none :=
    Option.eq_none_iff_forall_ne_some.mpr fun signature made => none (signable_of_candidate made)
  rw [unsuitable]
  exact kept

/-- A suitable nonce is drawn at once from some tape. -/
theorem exists_run_sign (nonces : RandomNonce) (signable : Signable k message) :
    let signer : Signer PrivateKey PublicKey RandomNonce :=
      { scheme, nonces, key := some (.ofPrivate k) }
    ∃ tape reply stop, (signer.sign message).run tape 1 0 = .ok (reply, stop) := by
  intro signer
  have keyed : signer.key = some (.ofPrivate k) := rfl
  obtain ⟨nonce, ⟨positive, small⟩, signature, made⟩ := signable
  have below : nonce < k.group.q := by omega
  have samples := Draw.samplesRange_positiveBelow k.group.two_le_q
  obtain ⟨tape, first⟩ := samples.exists_tape (fun _ inside => inside.2) ⟨positive, below⟩
  let seeded : RandomNonce := { order := k.group.q }
  have called : (NonceSource.next seeded).run tape 1 0 =
      .ok ((nonce, seeded), byteLength k.group.q) :=
    Draw.run_bind_eq_ok.mpr ⟨_, _, first 1 Nat.one_pos, rfl⟩
  exact ⟨tape, _, _, (Signer.run_sign_eq_ok_iff keyed message).mpr
    ⟨[], nonce, signature, seeded, Nat.one_pos,
      NonceSource.run_successive_succ.mpr ⟨nonce, seeded, _, [], called, rfl, rfl⟩,
      fun _ among => absurd among List.not_mem_nil, made, rfl⟩⟩

/-- **Signed or never signed.**  Let the group have prime `p` and `q`, and the private key be one
that is accepted.  Some nonce below the order suits a message exactly if a root of unity lies outside
of two residue classes modulo `q`, which is so for every message if the roots are many, and for none
if the order is two.  If some nonce suits, random nonces lead to a signature on some tape.  If not,
then they do on none, and no other source leads to one either. -/
theorem signable_or_never_signed {group : Group} {x : ℕ} {k : PrivateKey}
    (prime_p : group.p.Prime) (prime_q : group.q.Prime) (accepted : PrivateKey.make x group = .ok k)
    (message : Bytes) :
    (Signable k message ↔ ∃ y, group.IsRoot y ∧ y % group.q ≠ 0 ∧
      (messageNumber group.q message + x * y) % group.q ≠ 0) ∧
    (2 * (group.p - 1) < group.q * (group.q - 1) → Signable k message) ∧
    (group.q = 2 → ¬ Signable k message) ∧
    (Signable k message → ∀ nonces : RandomNonce,
      let signer : Signer PrivateKey PublicKey RandomNonce :=
        { scheme, nonces, key := some (.ofPrivate k) }
      ∃ tape reply stop, (signer.sign message).run tape 1 0 = .ok (reply, stop)) ∧
    (¬ Signable k message →
      (∀ nonces : RandomNonce,
        let signer : Signer PrivateKey PublicKey RandomNonce :=
          { scheme, nonces, key := some (.ofPrivate k) }
        (signer.sign message).Always fun _ => False) ∧
      ∀ {K : Type} [NonceSource K] (nonces : K),
        let signer : Signer PrivateKey PublicKey K :=
          { scheme, nonces, key := some (.ofPrivate k) }
        (signer.sign message).Yields fun _ => False) := by
  obtain ⟨⟨positive, small⟩, rfl⟩ := PrivateKey.make_eq_ok_iff.mp accepted
  have unit : x.Coprime group.q := (Nat.coprime_of_lt_prime (by omega) (by omega) prime_q).symm
  refine ⟨signable_iff prime_p prime_q, fun large => signable_of_large prime_q unit large,
    fun two => not_signable_of_two prime_p two,
    fun signable nonces => exists_run_sign nonces signable,
    fun none => ⟨fun nonces => sign_random_never nonces none, fun nonces => sign_never nonces none⟩⟩

/-! ## Two small groups -/

/-- A group with an order of four bits. -/
def elevenGroup : Group where
  p := 23
  q := 11
  g := 2
  q_size := by decide
  q_lt := by decide
  q_dvd := by decide
  g_range := by decide
  g_order := by cbv

/-- In a group of order eleven modulo 23 every message can be signed. -/
theorem signable_or_never_signed_of_eleven :
    let k : PrivateKey := { x := 7, group := elevenGroup }
    (elevenGroup.p.Prime ∧ elevenGroup.q.Prime ∧ PrivateKey.make 7 elevenGroup = .ok k) ∧
      ∀ message, ∃ tape reply stop,
        ((({ scheme, nonces := {}, key := some (.ofPrivate k) } :
          Signer PrivateKey PublicKey RandomNonce).sign message).run tape 1 0 =
            .ok (reply, stop)) := by
  intro k
  have prime_p : elevenGroup.p.Prime := by
    show Nat.Prime 23
    norm_num
  have prime_q : elevenGroup.q.Prime := by
    show Nat.Prime 11
    norm_num
  have accepted : PrivateKey.make 7 elevenGroup = .ok k := rfl
  refine ⟨⟨prime_p, prime_q, accepted⟩, fun message => ?_⟩
  obtain ⟨-, large, -, signed, -⟩ := signable_or_never_signed prime_p prime_q accepted message
  exact signed (large (by decide)) {}

/-- The smallest group: its only root is two, which is the order. -/
def twoGroup : Group where
  p := 3
  q := 2
  g := 2
  q_size := by decide
  q_lt := by decide
  q_dvd := by decide
  g_range := by decide
  g_order := by cbv

/-- **Accepted components do not make sure that there is a signature.**  In the smallest group no
nonce suits any message, and random nonces are drawn for ever. -/
theorem not_signable_modulo_three :
    ((Nat.Prime 3 ∧ Nat.Prime 2) ∧ Group.make 3 2 2 = .ok twoGroup ∧
      PrivateKey.make 1 twoGroup = .ok { x := 1, group := twoGroup }) ∧
    ∀ message,
      (¬∃ nonce, (1 ≤ nonce ∧ nonce ≤ 2 - 1) ∧ ∃ signature,
        candidate { x := 1, group := twoGroup } message nonce = some signature) ∧
      ∀ nonces : RandomNonce,
        let signer : Signer PrivateKey PublicKey RandomNonce :=
          { scheme, nonces, key := some (.ofPrivate { x := 1, group := twoGroup }) }
        (signer.sign message).Always fun _ => False := by
  have accepted : Group.make 3 2 2 = .ok twoGroup := by
    rw [Group.make, dif_pos (by decide), dif_pos (by decide), dif_pos ⟨by decide, by cbv⟩]
    rfl
  refine ⟨⟨⟨Nat.prime_three, Nat.prime_two⟩, accepted, rfl⟩, fun message => ?_⟩
  have none : ¬ Signable { x := 1, group := twoGroup } message :=
    not_signable_of_two Nat.prime_three rfl
  exact ⟨none, fun nonces => sign_random_never nonces none⟩

end PublicKeyCrypto.Dsa
