import PublicKeyCrypto.Number.Modular
import PublicKeyCrypto.Random.Sampler

/-!
# Probable primes

A number is tried against the small primes, then against random bases with the strong test: with
`n - 1 = d * 2 ^ s` and `d` odd, the base raised to `d` must be `1`, or one of the first `s`
squarings must reach `-1`, modulo `n`.

## Main Definitions

* `strongTest` — the strong test for one base
* `Draw.isProbablePrime` — the test with random bases
* `Draw.prime` — a random probable prime of a given size
-/

namespace PublicKeyCrypto

/-- The odd primes below 256. -/
def smallOddPrimes : List Nat :=
  [3, 5, 7, 11, 13, 17, 19, 23, 29, 31, 37, 41, 43, 47, 53, 59, 61, 67, 71, 73, 79, 83, 89, 97,
   101, 103, 107, 109, 113, 127, 131, 137, 139, 149, 151, 157, 163, 167, 173, 179, 181, 191, 193,
   197, 199, 211, 223, 227, 229, 233, 239, 241, 251]

/-- The verdict of trial division by the given primes, in order: the number is one of them, or it
is a multiple of one of them, or they do not decide. -/
def trialDivision (n : Nat) : (primes : List Nat) → Option Bool
  | [] => none
  | p :: rest =>
    if n = p then some true
    else if n % p = 0 then some false
    else trialDivision n rest

/-- The number as an odd number times a power of two: the exponent and the odd number. -/
def oddPart (n : Nat) : Nat × Nat :=
  if n = 0 then (0, 0)
  else if n % 2 = 1 then (0, n)
  else
    let (s, d) := oddPart (n / 2)
    (s + 1, d)
termination_by n

/-- Whether one of the next squarings of `x` reaches `-1` modulo `n` before any reaches `1`. -/
def squaringsReachMinusOne (n : Nat) : (squarings : Nat) → (x : Nat) → Bool
  | 0, _ => false
  | k + 1, x =>
    let y := x * x % n
    if y = n - 1 then true
    else if y = 1 then false
    else squaringsReachMinusOne n k y

/-- The strong test of `n` for the base `a`. -/
def strongTest (n a : Nat) : Bool :=
  let (s, d) := oddPart (n - 1)
  let x := powMod a d n
  x = 1 || x = n - 1 || squaringsReachMinusOne n (s - 1) x

namespace Draw

/-- Whether `n` passes the strong test for `count` random bases from `2` to `n - 2`; the first
failure ends the test. -/
def passesStrongTests (n : Nat) : (count : Nat) → Draw Bool
  | 0 => pure true
  | count + 1 => do
    let a ← inRange 2 (n - 2)
    if strongTest n a then passesStrongTests n count else return false

/-- Whether `n` is a probable prime, by trial division and `count` strong tests. -/
def isProbablePrime (n count : Nat) : Draw Bool :=
  if n < 2 then pure false
  else if bitLength n ≤ 2 then pure true
  else if n % 2 = 0 then pure false
  else match trialDivision n smallOddPrimes with
    | some verdict => pure verdict
    | none => passesStrongTests n count

/-- A probable prime of exactly `bits` bits, at least three. Its two top bits are set, so that
the product of two such primes has exactly the sum of their sizes. -/
def prime (bits count : Nat) : Draw Nat :=
  if bits < 3 then fail .primeTooShort
  else untilDone (fun _ => do
    let c := (← number bits) ||| (1 <<< (bits - 1) ||| 1 <<< (bits - 2)) ||| 1
    if ← isProbablePrime c count then return .done c else return .again ()) ()

end Draw

end PublicKeyCrypto
