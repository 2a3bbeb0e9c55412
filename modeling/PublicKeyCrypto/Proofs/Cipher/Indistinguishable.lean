import PublicKeyCrypto.Proofs.Cipher.Faultless
import PublicKeyCrypto.Proofs.Cipher.RoundTrip
import PublicKeyCrypto.Proofs.Rsa.Blinding
import Mathlib

/-!
# Malformed blocks cannot be told apart

A decoder for payloads of a known length refuses no ciphertext.  It draws its random bytes before it
sees the block, and gives them instead of the payload if the block breaks any of the rules.  So two
runs on one tape, with different ciphertexts, differ in nothing but the payloads of blocks that keep
the rules (`malformed_ciphertexts_indistinguishable`).

* **The rules** (`unpadOr_of_carries`, `unpadOr_of_malformed`).  Where the separator must stand is
  known from the length of the block, so that nothing is searched for.  A block that is too short
  for the payload takes an early way out, to the same random bytes.
* **The tape.**  The random bytes come first and are as many as the payload has.  Then comes the
  blinding loop of the private operation, which does not look at the ciphertext at all.

The blinding loop is the only thing that can keep the decoder from an answer.  It does so for both
ciphertexts or for none, and only if none of its first candidates suits.

## Main Definitions

* `Pkcs1.Carries` — a block that keeps all rules, with a payload of a length
* `Pkcs1.Conveys` — a number that is decrypted to such a block

## Main Results

* `Pkcs1.run_decodeOrRandom_view`, `Pkcs1.run_decodeOrRandom` — one run of the decoder, over any
  cipher and with a consistent key
* `malformed_ciphertexts_indistinguishable` — two runs
-/

namespace PublicKeyCrypto

namespace Pkcs1

/-! ## The rules -/

/-- The mask of the rule about the padding. -/
theorem noneZero_eq (b : Bytes) : noneZero b = Mask.ofBool (b.all (decide <| · ≠ 0x00)) := by
  induction b with
  | nil => rfl
  | cons x rest ih =>
      rw [noneZero, ih, Mask.equalByte_eq, Mask.not_ofBool, Mask.and_ofBool, List.all_cons,
        decide_not]

variable (strict : Bool) (outputSize : ℕ)

/-- A block of type 2 that keeps all rules and carries a payload of the length. -/
structure Carries (length : ℕ) (payload block : Bytes) : Prop where
  formed : ∃ filler, Formed 0x02 filler payload block
  whole : strict = true → block.length = outputSize
  length_eq : payload.length = length

/-- The rules of a block that is cut where the separator must be, as a truth value. -/
def keepsRules (type : UInt8) (filler : Bytes) (separator : UInt8) (length : ℕ) : Bool :=
  decide (type = 0x02) && (!strict || decide (length = outputSize)) &&
    filler.all (decide <| · ≠ 0x00) && decide (separator = 0x00)

/-- The decoder gives the payload or the random bytes, as the rules say. -/
theorem unpadOr_cut (l : Pkcs1) {type separator : UInt8} {filler payload random : Bytes}
    (long : 8 ≤ filler.length) (same : payload.length = random.length) :
    l.unpadOr outputSize random (type :: (filler ++ separator :: payload)) =
      .ok (if keepsRules l.strictLength outputSize type filler separator
        (type :: (filler ++ separator :: payload)).length then payload else random) := by
  set block : Bytes := type :: (filler ++ separator :: payload) with hblock
  have total : block.length = filler.length + payload.length + 2 := by
    rw [hblock, List.length_cons, List.length_append, List.length_cons]
    omega
  have front : block = (type :: filler) ++ separator :: payload := rfl
  have place : difference block.length (random.length + 1) = .ok (filler.length + 1) := by
    rw [difference_of_le (by omega)]
    congr 1
    omega
  have first : block.byteAt 0 = .ok type := rfl
  have middle : block.slice 1 (filler.length + 1) = .ok filler :=
    Bytes.slice_join [type] filler (separator :: payload) rfl (Nat.add_comm _ _)
  have zero : block.byteAt (filler.length + 1) = .ok separator := by
    rw [front]
    exact Bytes.byteAt_join (type :: filler) separator payload rfl
  have last : block.slice (filler.length + 1 + 1) block.length = .ok payload := by
    have cut := Bytes.slice_join (type :: (filler ++ [separator])) payload [] rfl rfl
    simp only [List.length_cons, List.length_append, List.length_nil, List.append_nil,
      List.cons_append, List.append_assoc, List.nil_append] at cut
    rw [total]
    convert cut using 2
    omega
  rw [unpadOr, if_neg (by rw [headerLength]; omega), place]
  simp only [bind, Except.bind, pure, Except.pure, first, middle, zero, last]
  rw [lengthGood_eq, noneZero_eq, Mask.equalByte_eq, Mask.equalByte_eq, Mask.and_ofBool,
    Mask.and_ofBool, Mask.and_ofBool, ← keepsRules]
  congr 1
  -- The mask selects the same string at every place.
  cases keepsRules l.strictLength outputSize type filler separator block.length with
  | true =>
      apply List.ext_getElem (by simp [same])
      intro i _ _
      rw [List.getElem_zipWith, Mask.selectByte_ofBool]
      rfl
  | false =>
      apply List.ext_getElem (by simp [same])
      intro i _ _
      rw [List.getElem_zipWith, Mask.selectByte_ofBool]
      rfl

/-- The rules hold of blocks that carry a payload of the length of their last part, and of no
others. -/
theorem keepsRules_iff {type separator : UInt8} {filler payload : Bytes}
    (long : 8 ≤ filler.length) :
    keepsRules strict outputSize type filler separator
        (type :: (filler ++ separator :: payload)).length = true ↔
      ∃ payload', Carries strict outputSize payload.length payload'
        (type :: (filler ++ separator :: payload)) := by
  simp only [keepsRules, Bool.and_eq_true, Bool.or_eq_true, Bool.not_eq_true', decide_eq_true_eq,
    List.all_eq_true]
  constructor
  · rintro ⟨⟨⟨rfl, length⟩, nonzero⟩, rfl⟩
    refine ⟨payload, ⟨filler, rfl, long, nonzero, fun one => absurd one (by decide)⟩,
      fun set => ?_, rfl⟩
    rw [set] at length
    exact length.resolve_left Bool.noConfusion
  · rintro ⟨payload', ⟨filler', same, -, nonzero, -⟩, whole, length⟩
    obtain ⟨rfl, rest⟩ := List.cons.inj same
    obtain ⟨rfl, tail⟩ := List.append_inj' rest (by rw [List.length_cons, List.length_cons, length])
    obtain ⟨rfl, -⟩ := List.cons.inj tail
    refine ⟨⟨⟨rfl, ?_⟩, nonzero⟩, rfl⟩
    cases strict with
    | false => exact .inl rfl
    | true => exact .inr (whole rfl)

/-- A block that is long enough is cut at one place only. -/
theorem exists_cut {length : ℕ} {block : Bytes} (long : length + headerLength ≤ block.length) :
    ∃ type filler separator payload, block = type :: (filler ++ separator :: payload) ∧
      8 ≤ filler.length ∧ payload.length = length := by
  rw [headerLength] at long
  obtain ⟨front, payload, rfl, front_length, payload_length⟩ :=
    Bytes.exists_join (b := block) (m := block.length - length) (n := length) (by omega)
  cases front with
  | nil =>
      rw [List.length_nil] at front_length
      omega
  | cons type front =>
      rcases List.eq_nil_or_concat front with rfl | ⟨filler, separator, rfl⟩
      · rw [List.length_singleton] at front_length
        omega
      · refine ⟨type, filler, separator, payload, by simp, ?_, payload_length⟩
        rw [List.length_cons, List.length_concat] at front_length
        omega

variable {strict outputSize} {l : Pkcs1} {random block payload : Bytes}

/-- A payload that a block carries is given. -/
theorem unpadOr_of_carries (h : Carries l.strictLength outputSize random.length payload block) :
    l.unpadOr outputSize random block = .ok payload := by
  obtain ⟨filler, formed⟩ := h.formed
  obtain rfl := formed.block_eq
  have rules := (keepsRules_iff l.strictLength outputSize formed.long).mpr
    ⟨payload, ⟨filler, formed⟩, h.whole, rfl⟩
  rw [unpadOr_cut outputSize l formed.long h.length_eq, if_pos rules]

/-- **Whichever rule is broken**, the random bytes are given. -/
theorem unpadOr_of_malformed
    (h : ∀ payload, ¬Carries l.strictLength outputSize random.length payload block) :
    l.unpadOr outputSize random block = .ok random := by
  by_cases long : random.length + headerLength ≤ block.length
  · obtain ⟨type, filler, separator, payload, rfl, filler_long, same⟩ := exists_cut long
    rw [unpadOr_cut outputSize l filler_long same, if_neg]
    intro rules
    obtain ⟨payload', carries⟩ := (keepsRules_iff _ outputSize filler_long).mp rules
    exact h payload' (same ▸ carries)
  · rw [unpadOr, if_pos (not_le.mp long)]

/-- The decoder draws the random bytes, and then the cipher runs.  What follows reads nothing from
the tape, and a refusal passes. -/
theorem run_decodeOrRandom_view (role : l.withPrivateKey = true) (below : CipherView) (length : ℕ)
    (c : Bytes) (tape : Tape) (patience start : ℕ) :
    (l.decodeOrRandom below length c).run.run tape patience start =
      match (below.process c).run.run tape patience (start + length) with
      | .ok (.ok block, stop) =>
          match l.unpadOr below.outputSize (Draw.bytesAt tape start length) block with
          | .ok out => .ok (.ok out, stop)
          | .error broken => .error (.fault broken)
      | .ok (.error refusal, stop) => .ok (.error refusal, stop)
      | .error halt => .error halt := by
  have drawn : (Draw.bytes length).run tape patience start =
      .ok (Draw.bytesAt tape start length, start + length) := rfl
  rw [decodeOrRandom, if_neg (by rw [role]; decide)]
  simp only [ExceptT.run_bind, Call.run_lift, Draw.run_bind, Draw.run_map, drawn]
  rcases (below.process c).run.run tape patience (start + length) with
    halt | ⟨refusal | block, stop⟩
  · rfl
  · rfl
  · dsimp only
    cases l.unpadOr below.outputSize (Draw.bytesAt tape start length) block with
    | error broken => rfl
    | ok out => rfl

/-! ## Ciphertexts -/

/-- A block whose type is not zero is the shortest encoding of its value. -/
theorem Formed.minimal_value {type : UInt8} {filler : Bytes}
    (formed : Formed type filler payload block) (nonzero : type ≠ 0x00) :
    Bytes.minimal block.value = block := by
  rw [formed.block_eq]
  exact Bytes.minimal_value_cons nonzero _

/-- The number is the power of a block that keeps all rules and carries a payload of the length. -/
def Conveys (strict : Bool) (k : Rsa.PrivateKey) (length : ℕ) (payload : Bytes) (c : ℕ) : Prop :=
  ∃ block, Carries strict ((bitLength k.modulus - 1) / 8) length payload block ∧
    block.value < k.modulus ∧ block.value ^ k.publicExponent % k.modulus = c

variable {k : Rsa.PrivateKey} {length : ℕ}

/-- Such a block is what the number is decrypted to. -/
theorem conveys_iff (hk : k.Consistent) {c : ℕ} (below : c < k.modulus) :
    Conveys strict k length payload c ↔
      Carries strict ((bitLength k.modulus - 1) / 8) length payload
        (Bytes.minimal (hk.root c)) := by
  constructor
  · rintro ⟨block, carries, small, power⟩
    obtain ⟨filler, formed⟩ := carries.formed
    have root : block.value = hk.root c := hk.eq_root small (power ▸ (Nat.mod_modEq _ _).symm)
    rwa [← root, formed.minimal_value (by decide)]
  · intro carries
    refine ⟨_, carries, ?_, ?_⟩
    · rw [Bytes.value_minimal]
      exact hk.root_lt c
    · rw [Bytes.value_minimal, hk.root_pow_mod below]

/-- The power of a block that breaks a rule conveys nothing. -/
theorem not_conveys_of_broken (hk : k.Consistent) (type separator : UInt8)
    (filler payload : Bytes) (long : 8 ≤ filler.length) (nonzero : type ≠ 0x00)
    (small : Bytes.value (type :: (filler ++ separator :: payload)) < k.modulus)
    (broken : keepsRules strict ((bitLength k.modulus - 1) / 8) type filler separator
      (type :: (filler ++ separator :: payload)).length = false) (payload' : Bytes) :
    ¬Conveys strict k payload.length payload'
      (Bytes.value (type :: (filler ++ separator :: payload)) ^ k.publicExponent % k.modulus) := by
  rintro ⟨block, carries, small', power⟩
  obtain ⟨filler', formed⟩ := carries.formed
  set block' : Bytes := type :: (filler ++ separator :: payload) with hblock'
  have values : block.value = block'.value :=
    (hk.eq_root small' power).trans (hk.eq_root small rfl).symm
  obtain rfl : block = block' := by
    rw [← formed.minimal_value (by decide), values]
    exact Bytes.minimal_value_cons nonzero _
  have kept := (keepsRules_iff strict _ long).mpr ⟨payload', carries⟩
  rw [broken] at kept
  cases kept

/-- **One run.**  It draws the random bytes, and then what the blinding loop draws.  The payload or
the random bytes are given whatever the blinding factor is. -/
theorem run_decodeOrRandom (hk : k.Consistent) (role : l.withPrivateKey = true) (length : ℕ)
    {c : Bytes} (fits : c.length ≤ byteLength k.modulus) (below : c.value < k.modulus) (tape : Tape)
    (patience start : ℕ) :
    let view := CipherView.ofCipher (Rsa.Cipher.keyed .decrypt (.ofPrivate k))
    ∃ out : Bytes, out.length = length ∧
      (∀ payload, Conveys l.strictLength k length payload c.value → out = payload) ∧
      ((∀ payload, ¬Conveys l.strictLength k length payload c.value) →
        out = Draw.bytesAt tape start length) ∧
      (l.decodeOrRandom view length c).run.run tape patience start =
        match (Rsa.PrivateKey.blinding k.modulus).run tape patience (start + length) with
        | .ok (_, stop) => .ok (.ok out, stop)
        | .error halt => .error halt := by
  intro view
  set random := Draw.bytesAt tape start length with hrandom
  have random_length : random.length = length := Draw.length_bytesAt tape start length
  set decrypted := Bytes.minimal (hk.root c.value) with hdecrypted
  have size : view.outputSize = (bitLength k.modulus - 1) / 8 := rfl
  have processed : (view.process c).run = (fun _ => .ok decrypted) <$>
      Rsa.PrivateKey.blinding k.modulus := Rsa.Cipher.run_process_private .decrypt c hk fits below
  have answer (out : Bytes) (given : l.unpadOr view.outputSize random decrypted = .ok out) :
      (l.decodeOrRandom view length c).run.run tape patience start =
        match (Rsa.PrivateKey.blinding k.modulus).run tape patience (start + length) with
        | .ok (_, stop) => .ok (.ok out, stop)
        | .error halt => .error halt := by
    rw [run_decodeOrRandom_view role, processed, Draw.run_map]
    cases (Rsa.PrivateKey.blinding k.modulus).run tape patience (start + length) with
    | error halt => rfl
    | ok reached =>
        dsimp only
        rw [given]
  by_cases carries : ∃ payload,
      Carries l.strictLength ((bitLength k.modulus - 1) / 8) length payload decrypted
  · obtain ⟨payload, carries⟩ := carries
    refine ⟨payload, carries.length_eq, fun other conveys => ?_, fun none => ?_,
      answer payload (unpadOr_of_carries ?_)⟩
    · have given : l.unpadOr view.outputSize random decrypted = .ok payload :=
        unpadOr_of_carries (random_length.symm ▸ carries)
      have given' : l.unpadOr view.outputSize random decrypted = .ok other :=
        unpadOr_of_carries (random_length.symm ▸ (conveys_iff hk below).mp conveys)
      exact Except.ok.inj (given.symm.trans given')
    · exact absurd ((conveys_iff hk below).mpr carries) (none payload)
    · rwa [random_length, size]
  · refine ⟨random, random_length, fun payload conveys => ?_, fun _ => rfl,
      answer random (unpadOr_of_malformed ?_)⟩
    · exact absurd ⟨payload, (conveys_iff hk below).mp conveys⟩ carries
    · rw [random_length, size]
      exact fun payload carried => carries ⟨payload, carried⟩

end Pkcs1

/-! ## Two runs -/

/-- **Malformed ciphertexts cannot be told apart.**  With a consistent key whose modulus has at
least 88 bits, a decoder for payloads of a known length takes the key.  Then it gives as many bytes
for any two ciphertexts below the modulus, and reads the same part of the tape.  If neither conveys
a payload, both get the bytes from the tape on which the runs begin, whatever is wrong with each.
Neither run returns if the blinding loop is exhausted, and then none of as many candidates as the
patience allows suits. -/
theorem malformed_ciphertexts_indistinguishable {k : Rsa.PrivateKey} (hk : k.Consistent)
    (large : 88 ≤ bitLength k.modulus) {l : Pkcs1} {length : ℕ}
    (expects : l.expectedLength = some length) (e : Rsa.Cipher) :
    let decoder : CipherStack Rsa.Cipher := .layer (.pkcs1 l) (.base e)
    let set := decoder.init .decrypt (.ofPrivate k)
    set.1 = .ok () ∧
      ∀ c c' : Bytes, c.length ≤ byteLength k.modulus → c.value < k.modulus →
        c'.length ≤ byteLength k.modulus → c'.value < k.modulus → ∀ tape patience start,
          let answer (c : Bytes) := (AsymmetricCipher.process set.2 c).run.run tape patience start
          (∃ out out' stop, answer c = .ok (.ok out, stop) ∧ answer c' = .ok (.ok out', stop) ∧
            out.length = length ∧ out'.length = length ∧
            ((∀ payload, ¬Pkcs1.Conveys l.strictLength k length payload c.value) →
              (∀ payload, ¬Pkcs1.Conveys l.strictLength k length payload c'.value) →
              out = Draw.bytesAt tape start length ∧ out' = Draw.bytesAt tape start length)) ∨
          (answer c = .error .exhausted ∧ answer c' = .error .exhausted ∧
            ∀ i < patience,
              ¬Rsa.Blinds k.modulus tape (start + length + i * byteLength k.modulus)) := by
  intro decoder set
  have taken : set.1 = .ok () := Rsa.Cipher.init_pkcs1_eq_ok_iff.mpr (by
    rw [Rsa.Key.modulus_ofPrivate, Pkcs1.headerLength]
    omega)
  refine ⟨taken, fun c c' fits below fits' below' tape patience start => ?_⟩
  dsimp only
  set told : Pkcs1 := { l with direction := .decrypt, withPrivateKey := true }
  have process (c : Bytes) : AsymmetricCipher.process set.2 c = told.decodeOrRandom
      (CipherView.ofCipher (Rsa.Cipher.keyed .decrypt (.ofPrivate k))) length c := by
    rw [Rsa.Cipher.process_init_pkcs1]
    exact told.process_of_expected rfl expects
  rw [process c, process c']
  obtain ⟨out, out_length, -, malformed, run⟩ :=
    told.run_decodeOrRandom hk rfl length fits below tape patience start
  obtain ⟨out', out'_length, -, malformed', run'⟩ :=
    told.run_decodeOrRandom hk rfl length fits' below' tape patience start
  rw [run, run']
  rcases ended : (Rsa.PrivateKey.blinding k.modulus).run tape patience (start + length) with
    halt | ⟨factor, stop⟩
  · obtain rfl : halt = .exhausted := (Rsa.PrivateKey.blinding_always hk.two_le_modulus).halt ended
    refine .inr ⟨rfl, rfl, fun i patient suits => ?_⟩
    obtain ⟨factor, stop, found⟩ :=
      Rsa.PrivateKey.exists_run_blinding hk.two_le_modulus patient suits
    rw [found] at ended
    cases ended
  · exact .inl ⟨out, out', stop, rfl, rfl, out_length, out'_length, fun none none' =>
      ⟨malformed none, malformed' none'⟩⟩

/-- A block of type 1, and a block with a zero in its padding and none before its payload. -/
theorem malformed_ciphertexts_indistinguishable_for_two_rules :
    let typeOne : Bytes := 0x01 :: (List.replicate 8 0x05 ++ 0x00 :: [0x41])
    let zeroInside : Bytes := 0x02 :: ([5, 5, 5, 0, 5, 5, 5, 5] ++ 0x05 :: [0x41])
    let encrypted (block : Bytes) : Bytes :=
      Bytes.minimal (block.value ^ oneByteKey.publicExponent % oneByteKey.modulus)
    let tape : Tape := fun i => UInt8.ofNat (3 * i + 1)
    let decoder : CipherStack Rsa.Cipher := .layer (.pkcs1 { expectedLength := some 1 }) (.base {})
    let answer (c : Bytes) := (AsymmetricCipher.process
      (decoder.init .decrypt (.ofPrivate oneByteKey)).2 c).run.run tape 1 0
    oneByteKey.Consistent ∧ 88 ≤ bitLength oneByteKey.modulus ∧
      ∃ stop, answer (encrypted typeOne) = .ok (.ok [1], stop) ∧
        answer (encrypted zeroInside) = .ok (.ok [1], stop) := by
  intro typeOne zeroInside encrypted tape decoder answer
  have consistent := oneByteKey_consistent
  have large : 88 ≤ bitLength oneByteKey.modulus := by decide +kernel
  have malformed (payload : Bytes) :
      ¬Pkcs1.Conveys true oneByteKey 1 payload (encrypted typeOne).value := by
    rw [Bytes.value_minimal]
    exact Pkcs1.not_conveys_of_broken consistent 0x01 0x00 (List.replicate 8 0x05) [0x41]
      (by decide) (by decide) (by decide +kernel) (by decide +kernel) payload
  have malformed' (payload : Bytes) :
      ¬Pkcs1.Conveys true oneByteKey 1 payload (encrypted zeroInside).value := by
    rw [Bytes.value_minimal]
    exact Pkcs1.not_conveys_of_broken consistent 0x02 0x05 [5, 5, 5, 0, 5, 5, 5, 5] [0x41]
      (by decide) (by decide) (by decide +kernel) (by decide +kernel) payload
  have suits : Rsa.Blinds oneByteKey.modulus tape (0 + 1 + 0 * byteLength oneByteKey.modulus) := by
    decide +kernel
  refine ⟨consistent, large, ?_⟩
  obtain ⟨out, out', stop, run, run', -, -, same⟩ | ⟨-, -, none⟩ :=
    (malformed_ciphertexts_indistinguishable consistent large
      (l := { expectedLength := some 1 }) rfl {}).2
      (encrypted typeOne) (encrypted zeroInside) (by decide +kernel) (by decide +kernel)
      (by decide +kernel) (by decide +kernel) tape 1 0
  · obtain ⟨rfl, rfl⟩ := same malformed malformed'
    exact ⟨stop, run, run'⟩
  · exact absurd suits (none 0 one_pos)

end PublicKeyCrypto
