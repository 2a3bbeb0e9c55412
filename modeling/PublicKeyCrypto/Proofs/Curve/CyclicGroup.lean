import PublicKeyCrypto.Curve.Basic
import PublicKeyCrypto.Curve.Weierstrass
import Mathlib

/-!
# Curves as cyclic groups

What the curve schemes rely on is that the points form a cyclic group of prime order which the
generator generates.  A cyclic group of order `n` is the integers modulo `n`, so the laws are
stated on *discrete logarithms*: each point stands for a multiplier modulo the order, the generator
for one, and each operation does on points what it does on multipliers.

Points are not assumed to be unique: two points may stand for one multiplier, as projective
coordinates do, and then only the first coordinate and the equality test have to agree on them.
No logarithm is ever computed; the laws only say that there is one.

The second half shows that the laws can be met.  The multiples of the generator of a short
Weierstrass curve, with the operations of that curve, obey all of them, once sums of multiples are
known to be multiples.  For a curve given by numbers that is a finite check.

## Main Definitions

* `Curve.DiscreteLog` — the laws of a cyclic group of prime order
* `WeierstrassCurve.IsCyclic`, `WeierstrassCurve.Multiple` — curves whose multiples of the
  generator add up as their multipliers do, and these multiples as points

## Main Results

* `WeierstrassCurve.Multiple.discreteLog` — the multiples of the generator obey the laws
-/

namespace PublicKeyCrypto

/-- The laws of a cyclic group of prime order under a generator, given the multiplier that each
point stands for. -/
structure Curve.DiscreteLog {P : Type} [Curve P] (log : P → ZMod (Curve.order P)) : Prop where
  prime : (Curve.order P).Prime
  log_mulGenerator : ∀ k, log (Curve.mulGenerator k) = k
  log_mul : ∀ p k, log (Curve.mul p k) = k * log p
  log_add : ∀ p q, log (Curve.add p q) = log p + log q
  log_mulAddGenerator : ∀ p u v, log (Curve.mulAddGenerator p u v) = u * log p + v
  isNeutral_iff : ∀ p, Curve.isNeutral p = true ↔ log p = 0
  equals_iff : ∀ p q, Curve.equals p q = true ↔ log p = log q
  /-- The first coordinate does not depend on how the point is represented. -/
  xCoordinate_congr : ∀ p q, log p = log q → Curve.xCoordinate p = Curve.xCoordinate q
  xCoordinate_neutral : ∀ p, log p = 0 → Curve.xCoordinate p = 0

namespace WeierstrassCurve

/-- Sums of multiples of the generator are the multiples by the sums, and among the multipliers
below the order, which is prime, only zero leads to infinity. -/
class IsCyclic (c : WeierstrassCurve) : Prop where
  prime : c.order.Prime
  add_multiples : ∀ i ∈ List.range c.order, ∀ j ∈ List.range c.order,
    ((Point.generator c).mul i).add ((Point.generator c).mul j) = (Point.generator c).mul (i + j)
  ne_infinity : ∀ i ∈ List.range c.order, i ≠ 0 → (Point.generator c).mul i ≠ .infinity

variable {c : WeierstrassCurve}

/-- Multipliers count modulo the order. -/
theorem mul_mod_order (p : Point c) (k : ℕ) : p.mul (k % c.order) = p.mul k := by
  rw [Point.mul, Point.mul, Nat.mod_mod]

theorem Point.mul_zero (p : Point c) : p.mul 0 = .infinity := by
  rw [Point.mul, Nat.zero_mod, Point.times, if_pos rfl]

namespace IsCyclic

variable [cyclic : IsCyclic c]

theorem mul_add_mul (i j : ℕ) :
    ((Point.generator c).mul i).add ((Point.generator c).mul j) =
      (Point.generator c).mul (i + j) := by
  have positive : 0 < c.order := cyclic.prime.pos
  rw [← mul_mod_order _ i, ← mul_mod_order _ j, ← mul_mod_order _ (i + j), Nat.add_mod,
    mul_mod_order _ (i % c.order + j % c.order)]
  exact cyclic.add_multiples _ (List.mem_range.mpr (Nat.mod_lt _ positive)) _
    (List.mem_range.mpr (Nat.mod_lt _ positive))

theorem mul_eq_infinity_iff {i : ℕ} :
    (Point.generator c).mul i = .infinity ↔ i ≡ 0 [MOD c.order] := by
  rw [← mul_mod_order]
  constructor
  · intro h
    by_contra nonzero
    exact cyclic.ne_infinity _ (List.mem_range.mpr (Nat.mod_lt _ cyclic.prime.pos)) nonzero h
  · intro h
    rw [show i % c.order = 0 from h]
    exact Point.mul_zero _

/-- Multiples of the generator agree exactly when the multipliers do.  The second multiplier is
taken off both sides by adding what it lacks to a multiple of the order. -/
theorem mul_eq_mul_iff {i j : ℕ} :
    (Point.generator c).mul i = (Point.generator c).mul j ↔ i ≡ j [MOD c.order] := by
  constructor
  · intro h
    have complete : j + j * (c.order - 1) ≡ 0 [MOD c.order] := by
      have positive := cyclic.prime.pos
      rw [show j + j * (c.order - 1) = j * c.order by
        obtain ⟨n, hn⟩ : ∃ n, c.order = n + 1 := ⟨c.order - 1, by omega⟩
        rw [hn, Nat.add_sub_cancel]
        ring]
      exact (Nat.modEq_zero_iff_dvd.mpr (dvd_mul_left _ _))
    have sums : (Point.generator c).mul (i + j * (c.order - 1)) = .infinity := by
      rw [← mul_add_mul, h, mul_add_mul]
      exact mul_eq_infinity_iff.mpr complete
    exact Nat.ModEq.add_right_cancel' _ ((mul_eq_infinity_iff.mp sums).trans complete.symm)
  · intro h
    rw [← mul_mod_order _ i, ← mul_mod_order _ j, show i % c.order = j % c.order from h]

/-- Doubling computes multiples of multiples. -/
theorem times_mul (i k : ℕ) :
    ((Point.generator c).mul i).times k = (Point.generator c).mul (i * k) := by
  induction k using Nat.strong_induction_on with
  | _ k ih =>
      by_cases zero : k = 0
      · rw [Point.times, if_pos zero, zero, Nat.mul_zero, Point.mul_zero]
      · -- The half is doubled, and the point added once more for an odd multiplier.
        have half := ih (k / 2) (Nat.div_lt_self (Nat.pos_of_ne_zero zero) (by decide))
        rw [Point.times, if_neg zero]
        dsimp only
        rw [half, mul_add_mul, mul_add_mul]
        by_cases odd : k % 2 = 1
        · rw [if_pos odd, ← Nat.mul_add, ← Nat.mul_succ]
          congr 2
          omega
        · rw [if_neg odd, ← Nat.mul_add]
          congr 2
          omega

theorem mul_mul (i k : ℕ) :
    ((Point.generator c).mul i).mul k = (Point.generator c).mul (i * k) := by
  rw [Point.mul, times_mul, mul_eq_mul_iff]
  exact (Nat.mod_modEq _ _).mul_left i

end IsCyclic

/-! ## The multiples as points -/

/-- The multiples of the generator. -/
def Multiple (c : WeierstrassCurve) : Type :=
  { p : Point c // ∃ i < c.order, p = (Point.generator c).mul i }

namespace Multiple

variable [cyclic : IsCyclic c]

/-- The multiple by any multiplier. -/
def ofMultiplier (c : WeierstrassCurve) [cyclic : IsCyclic c] (i : ℕ) : Multiple c :=
  ⟨(Point.generator c).mul i, i % c.order, Nat.mod_lt _ cyclic.prime.pos,
    (mul_mod_order _ i).symm⟩

omit cyclic in
theorem exists_val_eq (p : Multiple c) : ∃ i, p.val = (Point.generator c).mul i := by
  obtain ⟨i, -, h⟩ := p.property
  exact ⟨i, h⟩

theorem exists_mul_eq (p : Multiple c) (k : ℕ) :
    ∃ i < c.order, p.val.mul k = (Point.generator c).mul i := by
  obtain ⟨i, h⟩ := p.exists_val_eq
  rw [h, IsCyclic.mul_mul]
  exact (ofMultiplier c (i * k)).property

theorem exists_add_eq (p q : Multiple c) :
    ∃ i < c.order, p.val.add q.val = (Point.generator c).mul i := by
  obtain ⟨i, hp⟩ := p.exists_val_eq
  obtain ⟨j, hq⟩ := q.exists_val_eq
  rw [hp, hq, IsCyclic.mul_add_mul]
  exact (ofMultiplier c (i + j)).property

/-- The operations of the curve, on the multiples of its generator. -/
instance : Curve (Multiple c) where
  name := c.name
  order := c.order
  fieldSize := c.coordinateSize
  mulGenerator := ofMultiplier c
  mul p k := ⟨p.val.mul k, p.exists_mul_eq k⟩
  add p q := ⟨p.val.add q.val, p.exists_add_eq q⟩
  mulAddGenerator p u v :=
    ⟨(p.val.mul u).add ((Point.generator c).mul v),
      exists_add_eq ⟨p.val.mul u, p.exists_mul_eq u⟩ (ofMultiplier c v)⟩
  isNeutral p := p.val.isInfinity
  equals p q := p.val = q.val
  xCoordinate p := p.val.x
  encode p := p.val.encode
  decode b := (Point.decode c b).bind fun p =>
    if h : ∃ i < c.order, p = (Point.generator c).mul i then some ⟨p, h⟩ else none

/-- The multiplier modulo the order. -/
noncomputable def log (p : Multiple c) : ZMod (Curve.order (Multiple c)) :=
  (p.exists_val_eq.choose : ℕ)

theorem log_eq {p : Multiple c} {i : ℕ} (h : p.val = (Point.generator c).mul i) : p.log = i := by
  have same := p.exists_val_eq.choose_spec.symm.trans h
  exact (ZMod.natCast_eq_natCast_iff _ _ _).mpr (IsCyclic.mul_eq_mul_iff.mp same)

omit cyclic in
theorem isInfinity_iff (p : Point c) : p.isInfinity = true ↔ p = .infinity := by
  cases p <;> simp [Point.isInfinity]

/-- **The multiples of the generator are a cyclic group of prime order.**  Every point is written
as a multiple, after which each law is one about multipliers. -/
theorem discreteLog : Curve.DiscreteLog (log : Multiple c → _) where
  prime := cyclic.prime
  log_mulGenerator k := log_eq rfl
  log_mul p k := by
    obtain ⟨i, hp⟩ := p.exists_val_eq
    rw [log_eq hp, log_eq (i := i * k) (by
      show p.val.mul k = _
      rw [hp, IsCyclic.mul_mul])]
    push_cast
    ring
  log_add p q := by
    obtain ⟨i, hp⟩ := p.exists_val_eq
    obtain ⟨j, hq⟩ := q.exists_val_eq
    rw [log_eq hp, log_eq hq, log_eq (i := i + j) (by
      show p.val.add q.val = _
      rw [hp, hq, IsCyclic.mul_add_mul])]
    push_cast
    rfl
  log_mulAddGenerator p u v := by
    obtain ⟨i, hp⟩ := p.exists_val_eq
    rw [log_eq hp, log_eq (i := i * u + v) (by
      show (p.val.mul u).add _ = _
      rw [hp, IsCyclic.mul_mul, IsCyclic.mul_add_mul])]
    push_cast
    ring
  isNeutral_iff p := by
    obtain ⟨i, hp⟩ := p.exists_val_eq
    show p.val.isInfinity = true ↔ _
    rw [isInfinity_iff, log_eq hp, hp, IsCyclic.mul_eq_infinity_iff,
      ← ZMod.natCast_eq_natCast_iff]
    norm_num
  equals_iff p q := by
    obtain ⟨i, hp⟩ := p.exists_val_eq
    obtain ⟨j, hq⟩ := q.exists_val_eq
    show decide (p.val = q.val) = true ↔ _
    rw [decide_eq_true_iff, log_eq hp, log_eq hq, hp, hq, IsCyclic.mul_eq_mul_iff,
      ZMod.natCast_eq_natCast_iff]
    rfl
  xCoordinate_congr p q h := by
    obtain ⟨i, hp⟩ := p.exists_val_eq
    obtain ⟨j, hq⟩ := q.exists_val_eq
    rw [log_eq hp, log_eq hq, ZMod.natCast_eq_natCast_iff] at h
    show p.val.x = q.val.x
    rw [hp, hq, IsCyclic.mul_eq_mul_iff.mpr h]
  xCoordinate_neutral p h := by
    obtain ⟨i, hp⟩ := p.exists_val_eq
    have zero : i ≡ 0 [MOD c.order] := by
      rw [log_eq hp] at h
      exact (ZMod.natCast_eq_natCast_iff _ _ _).mp (h.trans Nat.cast_zero.symm)
    show p.val.x = 0
    rw [hp, IsCyclic.mul_eq_infinity_iff.mpr zero]
    rfl

end Multiple

end WeierstrassCurve

end PublicKeyCrypto
