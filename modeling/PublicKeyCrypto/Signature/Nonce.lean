import PublicKeyCrypto.Hash.Basic
import PublicKeyCrypto.Random.Sampler

/-!
# Nonces

Every signature uses up a secret number, the nonce. A nonce source is told the group order, the
private key and the message, and then gives one candidate after another.

The deterministic source is that of RFC 6979: a generator with two states, `key` and `value`,
both of digest length, seeded with the private key and the message.

## Main Definitions

* `NonceSource` — the interface of a source
* `RandomNonce`, `HmacNonce` — the random source and the deterministic one
* `ScriptedNonce` — given values first, then the random source
-/

namespace PublicKeyCrypto

/-- A source of nonces with states of type `K`. -/
class NonceSource (K : Type) where
  /-- Whether the candidates do not depend on the tape. -/
  deterministic : K → Bool
  /-- The source set up for a signature. -/
  init : K → (order secret : Nat) → (message : Bytes) → K
  /-- The next candidate, with the source that gives the following ones. -/
  next : K → Draw (Nat × K)

/-- Uniform nonces below the order. -/
structure RandomNonce where
  order : Nat := 0

instance : NonceSource RandomNonce where
  deterministic _ := false
  init _ order _ _ := { order }
  next k := do return (← Draw.positiveBelow k.order, k)

/-- The leftmost bits of a string, as many as the bound has, as a number. A shorter string is
taken whole. -/
def leftmostBits (bound : Nat) (b : Bytes) : Nat :=
  Bytes.value b >>> (8 * b.length - bitLength bound)

/-- The deterministic source over a hash function. -/
structure HmacNonce (H : Hash) where
  order : Nat := 0
  key : Bytes := []
  value : Bytes := []

namespace HmacNonce

variable {H : Hash}

/-- The encoding of a number over the length of the order; zeros if it does not fit. -/
def octets (order n : Nat) : Bytes :=
  match fixedBytes n (byteLength order) with
  | .ok b => b
  | .error _ => Bytes.zeros (byteLength order)

/-- The message as the generator takes it in: its leftmost bits, reduced once. -/
def messageOctets (order : Nat) (message : Bytes) : Bytes :=
  let m := leftmostBits order message
  octets order (if order ≤ m then m - order else m)

/-- The generator seeded with the private key and the message. -/
def init (order secret : Nat) (message : Bytes) : HmacNonce H :=
  let seed := octets order secret ++ messageOctets order message
  let value₀ : Bytes := List.replicate H.size 0x01
  let key₁ := H.hmac (List.replicate H.size 0x00) (value₀ ++ 0x00 :: seed)
  let value₁ := H.hmac key₁ value₀
  let key₂ := H.hmac key₁ (value₁ ++ 0x01 :: seed)
  { order, key := key₂, value := H.hmac key₂ value₁ }

/-- The generator with its value renewed until `count` values have been given, and these values
one after another. -/
def stretch (H : Hash) (key : Bytes) : (count : Nat) → (value : Bytes) → Bytes × Bytes
  | 0, value => ([], value)
  | count + 1, value =>
    let value' := H.hmac key value
    let (rest, last) := stretch H key count value'
    (value' ++ rest, last)

/-- The next candidate of the generator, in range or not, and the generator after it. -/
def candidate (k : HmacNonce H) : Nat × HmacNonce H :=
  let len := byteLength k.order
  let (bytes, value) := stretch H k.key ((len + H.size - 1) / H.size) k.value
  (leftmostBits k.order (bytes.take len), { k with value })

/-- The generator after an unsuitable candidate. -/
def refresh (k : HmacNonce H) : HmacNonce H :=
  let key := H.hmac k.key (k.value ++ [0x00])
  { k with key, value := H.hmac key k.value }

/-- The next candidate from `1` to the order less one. -/
def next (k : HmacNonce H) : Draw (Nat × HmacNonce H) :=
  Draw.untilDone (fun k => do
    let (n, k') := candidate k
    return if n ≠ 0 ∧ n < k'.order then .done (n, k') else .again k'.refresh) k

instance : NonceSource (HmacNonce H) where
  deterministic _ := true
  init _ order secret message := init order secret message
  next := next

end HmacNonce

/-- Given values first, in order and unchecked; then random nonces. -/
structure ScriptedNonce where
  values : List Nat
  random : RandomNonce := {}

instance : NonceSource ScriptedNonce where
  deterministic k := NonceSource.deterministic k.random
  init k order secret message :=
    { k with random := NonceSource.init k.random order secret message }
  next k :=
    match k.values with
    | n :: rest => return (n, { k with values := rest })
    | [] => do
      let (n, random) ← NonceSource.next k.random
      return (n, { k with random })

end PublicKeyCrypto
