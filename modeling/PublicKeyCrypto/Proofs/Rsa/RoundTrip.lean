import PublicKeyCrypto.Proofs.Rsa.Operation

/-!
# The private operation undoes the public one

With a consistent key the private operation gives the only root of its input, on every tape on which
the blinding loop ends; so either operation undoes the other.  With a key whose components do not
belong together the result is checked before it is given, so that an answer is still a root.

## Main Results

* `PrivateKey.Consistent.private_undoes_public` — the public operation first, then the private one
* `root_on_every_tape` — the private operation with a consistent key and with any other
-/

namespace PublicKeyCrypto.Rsa

open Cipher

/-- The call gives the output and reads nothing. -/
def Gives (call : Call Bytes) (output : Bytes) : Prop :=
  ∀ tape patience start, call.run.run tape patience start = .ok (.ok output, start)

/-- On every tape on which the blinding loop ends, the call gives the output and reads no further
than the loop.  It never gives anything else, and never breaks a precondition. -/
def GivesBlinded (n : ℕ) (call : Call Bytes) (output : Bytes) : Prop :=
  (∀ tape patience start factor stop,
    (PrivateKey.blinding n).run tape patience start = .ok (factor, stop) →
    call.run.run tape patience start = .ok (.ok output, stop)) ∧
  call.run.Always (· = .ok output)

theorem gives_of_run_eq {call : Call Bytes} {output : Bytes} (h : call.run = pure (.ok output)) :
    Gives call output := by
  intro tape patience start
  rw [h, Draw.run_pure]

theorem givesBlinded_of_run_eq {n : ℕ} (hn : 2 ≤ n) {call : Call Bytes} {output : Bytes}
    (h : call.run = (fun _ => .ok output) <$> PrivateKey.blinding n) :
    GivesBlinded n call output := by
  rw [GivesBlinded, h]
  refine ⟨fun tape patience start factor stop ended => ?_, ?_⟩
  · rw [Draw.run_map, ended]
  · exact Draw.ensures_map ((PrivateKey.blinding_always hn).mono fun _ _ => rfl)

/-- The private operation undoes the public one, for a consistent key and any number below the
modulus, whatever the two ciphers were used for before. -/
theorem PrivateKey.Consistent.private_undoes_public {k : PrivateKey} (hk : k.Consistent)
    (e e' : Cipher) (direction direction' : Direction) {input : Bytes}
    (fits : input.length ≤ byteLength k.modulus) (below : input.value < k.modulus) :
    ∃ middle,
      Gives ((e.init direction (.ofPublic k.publicKey)).2.process input) middle ∧
      GivesBlinded k.modulus ((e'.init direction' (.ofPrivate k)).2.process middle)
        (encoding direction' k.modulus input.value) := by
  -- The output of the public operation encodes the power, in either form.
  have small : input.value ^ k.publicExponent % k.modulus < k.modulus :=
    Nat.mod_lt _ (Nat.zero_lt_of_lt below)
  have undone := run_process_private direction' _ hk
    (length_encoding_le direction small) (by rwa [value_encoding direction small])
  rw [value_encoding direction small, hk.root_of_pow_mod below] at undone
  exact ⟨_, gives_of_run_eq (run_process_public direction input k.publicKey fits below),
    givesBlinded_of_run_eq hk.two_le_modulus undone⟩

/-- **The private operation.**  With a consistent key it gives the only number below the modulus
whose power is the input, whatever the blinding factor; hence it undoes the public operation and is
undone by it.  With any key that passes the checks of its components, an answer is a number below
the modulus whose power is the input.

The input is any encoding of a number below the modulus over at most the bytes of the modulus, and
the direction that the cipher is set to only chooses the form of the output. -/
theorem root_on_every_tape (e e' : Cipher) (direction direction' : Direction) (k : PrivateKey) :
    (k.Consistent → ∀ input : Bytes, input.length ≤ byteLength k.modulus →
      input.value < k.modulus →
      (∃ m, m < k.modulus ∧ m ^ k.publicExponent % k.modulus = input.value ∧
        (∀ other, other < k.modulus →
          other ^ k.publicExponent % k.modulus = input.value → other = m) ∧
        GivesBlinded k.modulus ((e.init direction (.ofPrivate k)).2.process input)
          (encoding direction k.modulus m)) ∧
      (∃ middle,
        Gives ((e.init direction (.ofPublic k.publicKey)).2.process input) middle ∧
        GivesBlinded k.modulus ((e'.init direction' (.ofPrivate k)).2.process middle)
          (encoding direction' k.modulus input.value)) ∧
      (∃ middle,
        GivesBlinded k.modulus ((e.init direction (.ofPrivate k)).2.process input) middle ∧
        Gives ((e'.init direction' (.ofPublic k.publicKey)).2.process middle)
          (encoding direction' k.modulus input.value))) ∧
    (k.validate = .ok k → 2 ≤ k.modulus → ∀ (input output : Bytes) (tape : Tape)
      (patience start stop : ℕ),
      ((e.init direction (.ofPrivate k)).2.process input).run.run tape patience start =
        .ok (.ok output, stop) →
      output.value < k.modulus ∧ output.value ^ k.publicExponent % k.modulus = input.value) := by
  refine ⟨fun hk input fits below => ⟨?_, ?_, ?_⟩, fun _ large input output => ?_⟩
  · exact ⟨hk.root input.value, hk.root_lt _, hk.root_pow_mod below,
      fun other small power => hk.eq_root small (power ▸ (Nat.mod_modEq _ _).symm),
      givesBlinded_of_run_eq hk.two_le_modulus (run_process_private direction input hk fits below)⟩
  · exact hk.private_undoes_public e e' direction direction' fits below
  · -- The private operation first: the power of the root is the number again.
    have small := hk.root_lt input.value
    have undone := run_process_public direction'
      (encoding direction k.modulus (hk.root input.value)) k.publicKey
      (length_encoding_le direction small) (by rwa [value_encoding direction small])
    rw [value_encoding direction small, k.publicKey_modulus, k.publicKey_exponent,
      hk.root_pow_mod below] at undone
    exact ⟨_, givesBlinded_of_run_eq hk.two_le_modulus
      (run_process_private direction input hk fits below), gives_of_run_eq undone⟩
  · intro tape patience start stop answered
    exact (process_private_yields direction input (Nat.zero_lt_two.trans_le large)).value
      answered output rfl

/-- A key with factors of nine bits. -/
def smallKey : PrivateKey where
  modulus := 67591
  publicExponent := 3
  privateExponent := 44715
  p := 263
  q := 257
  dp := 175
  dq := 171
  qinv := 219

theorem smallKey_consistent : smallKey.Consistent where
  p_prime := by norm_num [smallKey]
  q_prime := by norm_num [smallKey]
  p_odd := by decide
  q_odd := by decide
  distinct := by decide
  modulus_eq := rfl
  dp_inverse := rfl
  dq_inverse := rfl
  qinv_inverse := rfl
  dp_lt := by decide
  dq_lt := by decide
  qinv_lt := by decide

/-- A multiple of one factor, written with a leading zero, on the tape of ones: the first candidate
is a blinding factor, the output is the root, and three bytes are read. -/
theorem root_of_multiple_of_factor :
    smallKey.Consistent ∧ 526 % smallKey.p = 0 ∧
      (((({} : Cipher).init .decrypt (.ofPrivate smallKey)).2.process [0x00, 0x02, 0x0E]).run.run
        (fun _ => 1) 1 0 = .ok (.ok [0x1A, 0xB6], 3)) := by
  refine ⟨smallKey_consistent, rfl, ?_⟩
  obtain ⟨⟨m, small, power, unique, gives, -⟩, -, -⟩ :=
    (root_on_every_tape {} {} .decrypt .decrypt smallKey).1 smallKey_consistent
      [0x00, 0x02, 0x0E] (by decide) (by decide)
  have root : 6838 = m := unique 6838 (by decide) (by decide)
  have drawn : (Draw.number (bitLength smallKey.modulus)).run (fun _ => 1) 1 0 =
      .ok (65793, 3) := rfl
  obtain ⟨factor, ended⟩ :=
    PrivateKey.run_blinding (by decide) (by decide) (by decide) (by decide) drawn
  have written : Bytes.minimal 6838 = [0x1A, 0xB6] := by cbv
  rw [gives _ _ _ factor 3 ended, ← root, encoding, written]

end PublicKeyCrypto.Rsa
