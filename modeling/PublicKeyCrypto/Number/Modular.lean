import PublicKeyCrypto.Number.Bits

/-!
# Modular arithmetic

## Main Definitions

* `powMod` — exponentiation modulo a number, by repeated squaring
* `invMod` — the inverse modulo a number, by the extended Euclidean algorithm
-/

namespace PublicKeyCrypto

/-- `base ^ exponent` modulo `modulus`. The exponent is halved in each step, so that no
intermediate value exceeds the square of the modulus. -/
def powMod (base exponent modulus : Nat) : Nat :=
  if exponent = 0 then 1 % modulus
  else
    let root := powMod (base * base % modulus) (exponent / 2) modulus
    if exponent % 2 = 1 then base * root % modulus else root
termination_by exponent

/-- The greatest common divisor of `r₀` and `r₁`, with the factor that belongs to it: both pairs
`(r, s)` keep the congruence `s * a = r` that they have at the start, for any `a` and modulus. -/
def bezout (r₀ r₁ : Nat) (s₀ s₁ : Int) : Nat × Int :=
  if r₁ = 0 then (r₀, s₀)
  else bezout r₁ (r₀ % r₁) s₁ (s₀ - (r₀ / r₁ : Nat) * s₁)
termination_by r₁
decreasing_by exact Nat.mod_lt _ (by omega)

/-- The inverse of `a` modulo `modulus`, below the modulus; there is none when the two have a
common divisor. Modulo one the inverse is zero. -/
def invMod (a modulus : Nat) : Option Nat :=
  match bezout modulus (a % modulus) 0 1 with
  | (1, s) => some (s % modulus).toNat
  | _ => none

end PublicKeyCrypto
