import PublicKeyCrypto.Proofs.Rsa.Consistent

/-!
# What the RSA permutation answers

The input is taken exactly when it is an encoding, leading zeros allowed, of a number below the
modulus over at most the bytes of the modulus; this holds in both directions, although the sizes
that the cipher announces differ.  The public operation then answers without reading the tape.  The
private operation reads a blinding factor, and answers the same whatever the factor was.

## Main Definitions

* `Cipher.encoding` — a number below the modulus as an output block
* `PrivateKey.half`, `PrivateKey.Consistent.image` — either half of a pair, and what it computes

## Main Results

* `Cipher.readInput_eq_ok_iff` — which inputs are taken
* `Cipher.run_process_public`, `Cipher.run_process_private` — the answers with a public key, and
  with a consistent private one
* `Cipher.run_process_outside` — every other input is refused with one error
* `Cipher.process_private_yields` — an answer of the private operation is checked, whatever the
  key
* `PrivateKey.Consistent.process_half_always` — the answers of either half, as one statement
-/

namespace PublicKeyCrypto.Rsa

@[simp] theorem Key.modulus_ofPrivate (k : PrivateKey) : Key.modulus (.ofPrivate k) = k.modulus :=
  rfl

namespace PrivateKey

@[simp] theorem publicKey_modulus (k : PrivateKey) : k.publicKey.modulus = k.modulus := rfl

@[simp] theorem publicKey_exponent (k : PrivateKey) :
    k.publicKey.exponent = k.publicExponent := rfl

/-! ## Blinding -/

/-- A blinding factor comes with its inverse. -/
theorem blinding_yields {n : ℕ} (hn : 0 < n) :
    (blinding n).Yields fun b => b.1 * b.2 ≡ 1 [MOD n] := by
  refine Draw.ensures_firstAccepted trivial fun tape patience start => ?_
  cases (Draw.positiveBelow n).run tape patience start with
  | error halt => trivial
  | ok reached =>
      intro b accepted
      obtain ⟨inverse, found, rfl⟩ := Option.map_eq_some_iff.mp accepted
      exact (invMod_sound hn found).2

/-- The blinding loop breaks no precondition. -/
theorem blinding_always {n : ℕ} (hn : 2 ≤ n) : (blinding n).Always fun _ => True :=
  Draw.ensures_firstAccepted rfl ((Draw.positiveBelow_always hn).mono fun _ _ _ _ => trivial)

/-- The blinding loop ends at once when the first candidate is coprime to the modulus. -/
theorem run_blinding {n r : ℕ} {tape : Tape} {patience start stop : ℕ} (patient : 0 < patience)
    (positive : 0 < r) (small : r < n) (coprime : Nat.Coprime r n)
    (drawn : (Draw.number (bitLength n)).run tape patience start = .ok (r, stop)) :
    ∃ factor, (blinding n).run tape patience start = .ok (factor, stop) := by
  obtain ⟨inverse, found⟩ := exists_invMod coprime
  exact ⟨(r, inverse), Draw.run_firstAccepted patient
    (Draw.run_positiveBelow patient positive small drawn) (by rw [found]; rfl)⟩

/-- A factor with its inverse cancels from the power and the root. -/
theorem Consistent.root_blinded {k : PrivateKey} (hk : k.Consistent) {r inverse : ℕ}
    (h : r * inverse ≡ 1 [MOD k.modulus]) (c : ℕ) :
    hk.root (c * powMod r k.publicExponent k.modulus % k.modulus) * inverse % k.modulus =
      hk.root c := by
  have positive : 0 < k.modulus := (Nat.zero_lt_two).trans_le hk.two_le_modulus
  refine hk.eq_root (Nat.mod_lt _ positive) ?_
  calc (hk.root (c * powMod r k.publicExponent k.modulus % k.modulus) * inverse % k.modulus) ^
        k.publicExponent
      ≡ (hk.root (c * powMod r k.publicExponent k.modulus % k.modulus) * inverse) ^
          k.publicExponent [MOD k.modulus] := (Nat.mod_modEq _ _).pow _
    _ = hk.root (c * powMod r k.publicExponent k.modulus % k.modulus) ^ k.publicExponent *
          inverse ^ k.publicExponent := mul_pow _ _ _
    _ ≡ c * powMod r k.publicExponent k.modulus * inverse ^ k.publicExponent [MOD k.modulus] :=
        ((hk.root_pow _).trans (Nat.mod_modEq _ _)).mul_right _
    _ ≡ c * r ^ k.publicExponent * inverse ^ k.publicExponent [MOD k.modulus] :=
        ((powMod_modEq _ _ _).mul_left _).mul_right _
    _ = c * (r * inverse) ^ k.publicExponent := by rw [mul_pow]; ring
    _ ≡ c * 1 ^ k.publicExponent [MOD k.modulus] := (h.pow _).mul_left _
    _ = c := by rw [one_pow, mul_one]

/-- **Blinding cancels.**  With a consistent key the private operation is the blinding loop,
followed by the root of the number. -/
theorem Consistent.run_blindedPower {k : PrivateKey} (hk : k.Consistent) {c : ℕ}
    (hc : c < k.modulus) :
    (k.blindedPower c).run = (fun _ => .ok (hk.root c)) <$> blinding k.modulus := by
  have positive : 0 < k.modulus := (Nat.zero_lt_two).trans_le hk.two_le_modulus
  refine Draw.ext fun tape patience start => ?_
  cases hb : (blinding k.modulus).run tape patience start with
  | error halt => simp [blindedPower, hb]
  | ok reached =>
      obtain ⟨⟨r, inverse⟩, stop⟩ := reached
      have cancels := (blinding_yields positive).value hb
      -- The power of the root is the number again, so that the check never refuses.
      have checked : powMod (hk.root c) k.publicExponent k.modulus = c := by
        rw [powMod_eq, hk.root_pow_mod hc]
      simp [blindedPower, hb, hk.crtPower_eq, hk.root_blinded cancels, checked]

/-- **The check.**  Whatever the key, an answer of the private operation is a residue whose power
is the number. -/
theorem blindedPower_yields {k : PrivateKey} (positive : 0 < k.modulus) (c : ℕ) :
    (k.blindedPower c).run.Yields fun answer => ∀ m, answer = .ok m →
      m < k.modulus ∧ m ^ k.publicExponent % k.modulus = c := by
  refine Call.ensures_lift_bind ((blinding_yields positive).mono fun b _ => ?_)
  refine Call.ensures_bind ?_
  cases k.crtPower (c * powMod b.1 k.publicExponent k.modulus % k.modulus) with
  | error broken => exact fun _ _ _ => trivial
  | ok power =>
      refine Draw.ensures_pure ?_
      dsimp only
      split
      · refine Draw.ensures_pure fun m answered => ?_
        cases answered
      · next checked =>
        refine Draw.ensures_pure fun m answered => ?_
        cases answered
        rw [powMod_eq] at checked
        exact ⟨Nat.mod_lt _ positive, not_ne_iff.mp checked⟩

end PrivateKey

namespace Cipher

/-! ## Blocks -/

/-- A number below the modulus as an output block: over all bytes of the modulus when encrypting,
in the shortest form when decrypting. -/
def encoding (direction : Direction) (modulus m : ℕ) : Bytes :=
  match direction with
  | .encrypt => Bytes.wide (byteLength modulus) m
  | .decrypt => Bytes.minimal m

theorem lt_pow_of_lt {modulus m : ℕ} (h : m < modulus) : m < 256 ^ byteLength modulus :=
  h.trans (lt_pow_byteLength modulus)

@[simp] theorem value_encoding {modulus m : ℕ} (direction : Direction) (h : m < modulus) :
    (encoding direction modulus m).value = m := by
  cases direction with
  | encrypt => exact Bytes.value_wide_of_lt (lt_pow_of_lt h)
  | decrypt => exact Bytes.value_minimal m

/-- An output block is not longer than the modulus. -/
theorem length_encoding_le {modulus m : ℕ} (direction : Direction) (h : m < modulus) :
    (encoding direction modulus m).length ≤ byteLength modulus := by
  cases direction with
  | encrypt => exact (Bytes.length_wide _ _).le
  | decrypt =>
      rw [encoding, Bytes.length_minimal, byteLength_le_iff]
      exact lt_pow_of_lt h

/-- The cipher with a key, in a direction. -/
def keyed (direction : Direction) (key : Key) : Cipher := { key := some key, direction }

variable (direction : Direction) (key : Key)

/-- Inputs are taken exactly when they encode a number below the modulus over at most the bytes of
the modulus.  One byte more than the announced size is all bytes of the modulus when encrypting,
and is refused when decrypting, where the announced size is already that. -/
theorem readInput_eq_ok_iff {input : Bytes} {m : ℕ} :
    (keyed direction key).readInput (Key.modulus key) input = .ok m ↔
      input.length ≤ byteLength (Key.modulus key) ∧ input.value < Key.modulus key ∧
        m = input.value := by
  -- A number below the modulus shows that it is not zero, without which the sizes do not match.
  have sizes : input.value < Key.modulus key →
      (¬(input.length > (keyed direction key).inputSize + 1 ∨
          input.length = (keyed direction key).inputSize + 1 ∧
            (keyed direction key).direction = .decrypt) ↔
        input.length ≤ byteLength (Key.modulus key)) := by
    intro below
    have bits : bitLength (Key.modulus key) ≠ 0 := by
      intro none
      have := bitLength_le_iff.mp none.le
      omega
    cases direction <;>
      simp only [inputSize, keyed, keySize, shortSize, fullSize, byteLength] <;> grind
  unfold readInput
  dsimp only
  split
  · next long =>
    constructor
    · rintro ⟨⟩
    · rintro ⟨fits, below, -⟩
      exact absurd long ((sizes below).mpr fits)
  · next short =>
    split
    · next large =>
      constructor
      · rintro ⟨⟩
      · rintro ⟨-, below, -⟩
        omega
    · next small =>
      have below : input.value < Key.modulus key := by omega
      constructor
      · rintro ⟨⟩
        exact ⟨(sizes below).mp short, below, rfl⟩
      · rintro ⟨-, -, rfl⟩
        rfl

theorem writeOutput_eq {m : ℕ} (h : m < Key.modulus key) :
    (keyed direction key).writeOutput m = .ok (encoding direction (Key.modulus key) m) := by
  cases direction with
  | encrypt => exact fixedBytes_of_lt (lt_pow_of_lt h)
  | decrypt => rfl

/-! ## Operations -/

variable (input : Bytes)

/-- An input that is not taken is refused with the same error. -/
theorem run_process_of_refused {e : Error}
    (refused : (keyed direction key).readInput (Key.modulus key) input = .error e) :
    ((keyed direction key).process input).run = pure (.error e) := by
  simp only [process, keyed] at refused ⊢
  simp [refused]

variable {input} in
/-- An input that encodes no number below the modulus is refused, whatever the key. -/
theorem run_process_outside
    (outside : ¬(input.length ≤ byteLength (Key.modulus key) ∧ input.value < Key.modulus key)) :
    ((keyed direction key).process input).run = pure (.error (.dataLength .rsaInput)) := by
  refine run_process_of_refused direction key input ?_
  cases read : (keyed direction key).readInput (Key.modulus key) input with
  | error e =>
      unfold readInput at read
      dsimp only at read
      split_ifs at read <;> exact congrArg Except.error (Except.error.inj read).symm
  | ok m =>
      obtain ⟨fits, below, -⟩ := (readInput_eq_ok_iff direction key).mp read
      exact absurd ⟨fits, below⟩ outside

/-- The public operation on a number below the modulus reads nothing and gives the power. -/
theorem run_process_public (k : PublicKey) (fits : input.length ≤ byteLength k.modulus)
    (below : input.value < k.modulus) :
    ((keyed direction (.ofPublic k)).process input).run =
      pure (.ok (encoding direction k.modulus (input.value ^ k.exponent % k.modulus))) := by
  have taken := (readInput_eq_ok_iff direction (.ofPublic k)).mpr ⟨fits, below, rfl⟩
  have written := writeOutput_eq direction (.ofPublic k)
    (powMod_lt input.value k.exponent (Nat.zero_lt_of_lt below))
  simp only [process, keyed, Key.modulus, powMod_eq] at taken written ⊢
  simp [taken, written]

/-- The public operation answers every input. -/
theorem process_public_returns (k : PublicKey) :
    ((keyed direction (.ofPublic k)).process input).run.Returns fun _ => True := by
  by_cases taken : input.length ≤ byteLength k.modulus ∧ input.value < k.modulus
  · rw [run_process_public direction input k taken.1 taken.2]
    exact Draw.ensures_pure trivial
  · rw [run_process_outside direction (.ofPublic k) taken]
    exact Draw.ensures_pure trivial

/-- The private operation of a consistent key on a number below the modulus reads a blinding
factor, and gives the root whatever the factor is. -/
theorem run_process_private {k : PrivateKey} (hk : k.Consistent)
    (fits : input.length ≤ byteLength k.modulus) (below : input.value < k.modulus) :
    ((keyed direction (.ofPrivate k)).process input).run =
      (fun _ => .ok (encoding direction k.modulus (hk.root input.value))) <$>
        PrivateKey.blinding k.modulus := by
  have taken := (readInput_eq_ok_iff direction (.ofPrivate k)).mpr ⟨fits, below, rfl⟩
  have written := writeOutput_eq direction (.ofPrivate k) (hk.root_lt input.value)
  simp only [process, keyed, Key.modulus] at taken written ⊢
  simp [taken, written, hk.run_blindedPower below]

/-- The private operation of a consistent key has one answer for an input, on all tapes. -/
theorem exists_process_private_yields {k : PrivateKey} (hk : k.Consistent) :
    ∃ answer, ((keyed direction (.ofPrivate k)).process input).run.Yields (· = answer) := by
  by_cases taken : input.length ≤ byteLength k.modulus ∧ input.value < k.modulus
  · refine ⟨.ok (encoding direction k.modulus (hk.root input.value)), ?_⟩
    rw [run_process_private direction input hk taken.1 taken.2]
    exact Draw.ensures_map (Draw.yields_iff.mpr fun _ _ _ _ _ _ => rfl)
  · refine ⟨.error (.dataLength .rsaInput), ?_⟩
    rw [run_process_outside direction (.ofPrivate k) taken]
    exact Draw.ensures_pure rfl

/-- Whatever the private key, an answer encodes a residue whose power is the number given. -/
theorem process_private_yields {k : PrivateKey} (positive : 0 < k.modulus) :
    ((keyed direction (.ofPrivate k)).process input).run.Yields fun answer =>
      ∀ output, answer = .ok output →
        output.value < k.modulus ∧ output.value ^ k.publicExponent % k.modulus = input.value := by
  refine Call.ensures_bind (Draw.ensures_pure ?_)
  cases taken : (keyed direction (.ofPrivate k)).readInput (Key.modulus (.ofPrivate k)) input with
  | error e =>
      intro output answered
      cases answered
  | ok m =>
      obtain ⟨-, -, rfl⟩ := (readInput_eq_ok_iff direction (.ofPrivate k)).mp taken
      refine Call.ensures_bind ((PrivateKey.blindedPower_yields positive _).mono ?_)
      rintro (e | power) outcome
      · intro output answered
        cases answered
      · obtain ⟨small, checked⟩ := outcome power rfl
        dsimp only
        rw [writeOutput_eq direction (.ofPrivate k) small, Call.run_ofExcept]
        refine Draw.ensures_pure fun output answered => ?_
        cases answered
        rw [Key.modulus_ofPrivate, value_encoding direction small]
        exact ⟨small, checked⟩

end Cipher

/-! ## Either half of a pair -/

/-- The private or the public half of a key pair. -/
def PrivateKey.half (k : PrivateKey) : (isPrivate : Bool) → Key
  | true => .ofPrivate k
  | false => .ofPublic k.publicKey

namespace PrivateKey.Consistent

variable {k : PrivateKey}

/-- What a half of a consistent pair makes of a number below the modulus. -/
def image (hk : k.Consistent) : (isPrivate : Bool) → ℕ → ℕ
  | true, m => hk.root m
  | false, m => m ^ k.publicExponent % k.modulus

theorem image_lt (hk : k.Consistent) (isPrivate : Bool) (m : ℕ) :
    hk.image isPrivate m < k.modulus := by
  cases isPrivate with
  | false => exact Nat.mod_lt _ (Nat.zero_lt_two.trans_le hk.two_le_modulus)
  | true => exact hk.root_lt m

/-- The two halves undo each other, in either order. -/
theorem image_image (hk : k.Consistent) (isPrivate : Bool) {m : ℕ} (small : m < k.modulus) :
    hk.image (!isPrivate) (hk.image isPrivate m) = m := by
  cases isPrivate with
  | false => exact hk.root_of_pow_mod small
  | true => exact hk.root_pow_mod small

/-- Either half gives the encoding of the image of its input, on every tape on which it answers. -/
theorem process_half_always (hk : k.Consistent) (direction : Direction) (isPrivate : Bool)
    {input : Bytes} (fits : input.length ≤ byteLength k.modulus)
    (below : input.value < k.modulus) :
    ((Cipher.keyed direction (k.half isPrivate)).process input).run.Always
      (· = .ok (Cipher.encoding direction k.modulus (hk.image isPrivate input.value))) := by
  cases isPrivate with
  | false =>
      rw [half, Cipher.run_process_public direction input k.publicKey fits below]
      exact Draw.ensures_pure rfl
  | true =>
      rw [half, Cipher.run_process_private direction input hk fits below]
      exact Draw.ensures_map ((blinding_always hk.two_le_modulus).mono fun _ _ => rfl)

/-- Either half answers every input or refuses it, and breaks no precondition; only the private half
has a loop that may not end. -/
theorem process_half_ensures (hk : k.Consistent) (direction : Direction) (isPrivate : Bool)
    (input : Bytes) :
    ((Cipher.keyed direction (k.half isPrivate)).process input).run.Ensures
      (fun halt => isPrivate = true ∧ halt = .exhausted) fun _ => True := by
  cases isPrivate with
  | false =>
      exact (Cipher.process_public_returns direction input k.publicKey).mono_halts
        fun _ halted => halted.elim
  | true =>
      by_cases taken : input.length ≤ byteLength k.modulus ∧ input.value < k.modulus
      · exact ((hk.process_half_always direction true taken.1 taken.2).mono_halts
          fun _ exhausted => ⟨rfl, exhausted⟩).mono fun _ _ => trivial
      · rw [half, Cipher.run_process_outside direction (.ofPrivate k) taken]
        exact Draw.ensures_pure trivial

end PrivateKey.Consistent

end PublicKeyCrypto.Rsa
