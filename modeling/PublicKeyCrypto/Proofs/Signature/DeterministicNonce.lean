import PublicKeyCrypto.Proofs.Bytes
import PublicKeyCrypto.Proofs.Random.Outcomes
import PublicKeyCrypto.Proofs.Signature.Rfc6979

/-!
# The deterministic source follows the standard

A source of deterministic nonces that was set up gives the nonce of RFC 6979, and after it only
numbers in range; and it never reads the tape.

The source computes with bytes and numbers where the standard has bits, and goes another way in four
places.

* **Leftmost bits** are taken by a shift of the value, and what is behind the last byte that holds
  some of them is cut off before (`leftmostBits_eq`, `leftmostBits_take`).
* **The residue** of the message is taken by one subtraction, which is enough since the number has
  no more bits than the order (`messageOctets_eq`).
* **The keyed hash** lays the key over a block that is filled with one byte.  Keys always have
  digest length, so none is hashed first (`hmac_eq`).
* **The string of values** is joined from a number of digests that is known beforehand (`fill_eq`).

So the source is, at every candidate, the state of the standard (`sourceAt`), and the loop for the
first nonce passes through these states.  Later calls start behind a candidate that was given away,
a state that the standard does not have; of them it is said that they stay in range.

## Main Definitions

* `Rfc6979.sourceAt` — the source before a candidate of the standard
* `NonceSource.successive` — any number of calls one after the other

## Main Results

* `Rfc6979.init_eq`, `Rfc6979.candidate_eq`, `Rfc6979.refresh_eq` — the steps of the source are
  those of the standard
* `HmacNonce.rounds_sourceAt` — the loop ends at the first suitable candidate
* `HmacNonce.deterministic_nonces_standard` — the nonces of a source that was set up
-/

namespace PublicKeyCrypto

namespace Rfc6979

/-! ## Bits -/

theorem number_append (l r : List Bool) :
    number (l ++ r) = number l * 2 ^ r.length + number r := by
  induction l with
  | nil => rw [List.nil_append, number, Nat.zero_mul, Nat.zero_add]
  | cons bit l ih =>
      rw [List.cons_append, number, number, ih, List.length_append, pow_add]
      ring

theorem number_lt (l : List Bool) : number l < 2 ^ l.length := by
  induction l with
  | nil => exact Nat.one_pos
  | cons bit l ih =>
      have first : bit.toNat ≤ 1 := Bool.toNat_le bit
      have product : bit.toNat * 2 ^ l.length ≤ 2 ^ l.length := by
        simpa using Nat.mul_le_mul_right (2 ^ l.length) first
      rw [number, List.length_cons, pow_succ]
      omega

@[simp] theorem number_replicate_false (count : ℕ) : number (List.replicate count false) = 0 := by
  induction count with
  | zero => rfl
  | succ count ih => rw [List.replicate_succ, number, ih, Bool.toNat_false, Nat.zero_mul]

/-- The highest bits of a number below a power of two are its quotient. -/
theorem number_take (q : ℕ) (l : List Bool) :
    number (l.take q) = number l / 2 ^ (l.length - q) := by
  have split := number_append (l.take q) (l.drop q)
  have low := number_lt (l.drop q)
  rw [List.take_append_drop, List.length_drop] at split
  rw [List.length_drop] at low
  rw [split, Nat.mul_comm, Nat.mul_add_div (Nat.two_pow_pos _), Nat.div_eq_of_lt low, Nat.add_zero]

/-- The lowest bits of a number. -/
theorem number_testBits (w n : ℕ) :
    number ((List.range w).map fun i => n.testBit (w - 1 - i)) = n % 2 ^ w := by
  induction w with
  | zero => rw [List.range_zero, List.map_nil, number, pow_zero, Nat.mod_one]
  | succ w ih =>
      have rest : (List.range w).map ((fun i => n.testBit (w + 1 - 1 - i)) ∘ Nat.succ) =
          (List.range w).map fun i => n.testBit (w - 1 - i) := by
        refine List.map_congr_left fun i _ => ?_
        rw [Function.comp_apply]
        congr 1
        omega
      rw [List.range_succ_eq_map, List.map_cons, List.map_map, rest, number, ih, List.length_map,
        List.length_range, Nat.mod_pow_succ, Nat.toNat_testBit, Nat.add_sub_cancel, Nat.sub_zero]
      ring

@[simp] theorem length_byteBits (x : UInt8) : (byteBits x).length = 8 := by
  rw [byteBits, List.length_map, List.length_range]

@[simp] theorem length_bits (b : Bytes) : (bits b).length = 8 * b.length := by
  induction b with
  | nil => rfl
  | cons x b ih =>
      rw [bits] at ih ⊢
      rw [List.flatMap_cons, List.length_append, ih, length_byteBits, List.length_cons]
      ring

theorem bits_append (a b : Bytes) : bits (a ++ b) = bits a ++ bits b := List.flatMap_append

/-- The bits of a string are those of its value. -/
@[simp] theorem number_bits (b : Bytes) : number (bits b) = b.value := by
  induction b with
  | nil => rfl
  | cons x b ih =>
      have byte : number (byteBits x) = x.toNat := by
        rw [byteBits, number_testBits 8, Nat.mod_eq_of_lt x.toNat_lt]
      rw [bits, List.flatMap_cons, ← bits, number_append, byte, ih, length_bits, Bytes.value_cons,
        pow_mul]
      norm_num

/-- Of a sequence that is long enough the leftmost bits are taken. -/
theorem bits2int_of_le {qlen : ℕ} {l : List Bool} (h : qlen ≤ l.length) :
    bits2int qlen l = number (l.take qlen) := by
  rw [bits2int]
  split
  · rfl
  · have full : qlen = l.length := by omega
    rw [full, Nat.sub_self, List.replicate_zero, List.nil_append, List.take_length]

theorem bits2int_lt (qlen : ℕ) (l : List Bool) : bits2int qlen l < 2 ^ qlen := by
  rw [bits2int]
  split
  · next long =>
    refine (number_lt _).trans_eq ?_
    rw [List.length_take_of_le long.le]
  · refine (number_lt _).trans_eq ?_
    rw [List.length_append, List.length_replicate]
    congr 1
    omega

/-- A shift to the right takes the leftmost bits. -/
theorem leftmostBits_eq (q : ℕ) (b : Bytes) : leftmostBits q b = bits2int q.size (bits b) := by
  rw [leftmostBits, Nat.shiftRight_eq_div_pow, bitLength_eq_size]
  by_cases long : q.size ≤ 8 * b.length
  · rw [bits2int_of_le (by rwa [length_bits]), number_take, number_bits,
      length_bits]
  · rw [bits2int, length_bits, if_neg (by omega), number_append, number_replicate_false,
      number_bits, show 8 * b.length - q.size = 0 by omega]
    simp

/-- Bytes behind the leftmost bits do not matter. -/
theorem leftmostBits_take {q : ℕ} {b : Bytes} (long : byteLength q ≤ b.length) :
    leftmostBits q (b.take (byteLength q)) = leftmostBits q b := by
  have size : q.size ≤ 8 * byteLength q := by
    rw [byteLength, bitLength_eq_size]
    omega
  have split : bits b = bits (b.take (byteLength q)) ++ bits (b.drop (byteLength q)) := by
    rw [← bits_append, List.take_append_drop]
  have length : (bits (b.take (byteLength q))).length = 8 * byteLength q := by
    rw [length_bits, List.length_take_of_le long]
  rw [leftmostBits_eq, leftmostBits_eq, bits2int_of_le (by omega),
    bits2int_of_le (by rw [length_bits]; omega), split, List.take_append_of_le_length (by omega)]

/-! ## Octets -/

/-- The bytes of a number, from the highest on. -/
theorem wide_eq_map (len n : ℕ) :
    Bytes.wide len n = (List.range len).map fun i => UInt8.ofNat (n / 256 ^ (len - 1 - i)) := by
  induction len generalizing n with
  | zero => rfl
  | succ len ih =>
      have last : (n % 256).toUInt8 = UInt8.ofNat (n / 256 ^ (len + 1 - 1 - len)) := by
        apply UInt8.toNat_inj.mp
        simp
      have before : (List.range len).map (fun i => UInt8.ofNat (n / 256 / 256 ^ (len - 1 - i))) =
          (List.range len).map fun i => UInt8.ofNat (n / 256 ^ (len + 1 - 1 - i)) := by
        refine List.map_congr_left fun i inside => ?_
        rw [List.mem_range] at inside
        rw [Nat.div_div_eq_div_mul, ← pow_succ']
        congr 3
        omega
      rw [Bytes.wide, ih, List.range_succ, List.map_append, List.map_singleton, before, last]

/-- A number below the order is written as in the standard. -/
theorem octets_eq {q x : ℕ} (below : x < q) : HmacNonce.octets q x = int2octets q x := by
  have fits : x < 256 ^ byteLength q := below.trans (lt_pow_byteLength q)
  rw [HmacNonce.octets, fixedBytes_of_lt fits, wide_eq_map, int2octets, byteLength,
    bitLength_eq_size]

/-- One subtraction takes the residue: the number has no more bits than the order. -/
theorem messageOctets_eq {q : ℕ} (positive : 0 < q) (message : Bytes) :
    HmacNonce.messageOctets q message = bits2octets q (bits message) := by
  have order : 2 ^ q.size ≤ 2 * q := by
    have nonzero : q.size ≠ 0 := Nat.size_pos.mpr positive |>.ne'
    have top : 2 ^ (q.size - 1) ≤ q := Nat.lt_size.mp (by omega)
    calc 2 ^ q.size = 2 * 2 ^ (q.size - 1) := by rw [← pow_succ']; congr 1; omega
      _ ≤ 2 * q := Nat.mul_le_mul_left 2 top
  have small : bits2int q.size (bits message) < 2 ^ q.size := bits2int_lt _ _
  have residue : (if q ≤ leftmostBits q message then leftmostBits q message - q
      else leftmostBits q message) = bits2int q.size (bits message) % q := by
    rw [leftmostBits_eq]
    split
    · next above => rw [Nat.mod_eq_sub_mod above, Nat.mod_eq_of_lt (by omega)]
    · next below => rw [Nat.mod_eq_of_lt (not_le.mp below)]
  rw [HmacNonce.messageOctets, residue, octets_eq (Nat.mod_lt _ positive), bits2octets]

/-! ## The keyed hash -/

variable {H : Hash}

/-- A key laid over a block of one byte is the key over one block, with the byte laid over each of
its bytes. -/
theorem xorOver_replicate (count : ℕ) (pad : UInt8) (key : Bytes) :
    Bytes.xorOver (List.replicate count pad) key =
      (key.take count ++ Bytes.zeros (count - key.length)).map (· ^^^ pad) := by
  induction count generalizing key with
  | zero => simp [Bytes.xorOver, Bytes.zeros]
  | succ count ih =>
      cases key with
      | nil => simp [Bytes.zeros]
      | cons x key =>
          rw [List.replicate_succ, Bytes.xorOver, ih, List.take_succ_cons, List.length_cons,
            Nat.add_sub_add_right, List.cons_append, List.map_cons, UInt8.xor_comm]

/-- The keyed hash with a key of digest length is that of the standard. -/
theorem hmac_eq {key : Bytes} (length : key.length = H.size) (message : Bytes) :
    H.hmac key message = hmac H key message := by
  have short : blockKey H key =
      key.take H.blockSize ++ Bytes.zeros (H.blockSize - key.length) := by
    rw [blockKey, if_neg (by omega)]
  simp only [Hash.hmac, hmac, xorOver_replicate, short]

/-! ## The generator -/

/-- The digests for a string of some bytes: one more than for a string that is shorter by a
digest. -/
theorem digests_for {size missing : ℕ} (positive : 0 < size) (some : 0 < missing) :
    (missing + size - 1) / size = (missing - size + size - 1) / size + 1 := by
  rcases Nat.lt_or_ge missing size with short | long
  · rw [Nat.div_eq_of_lt (by omega : missing - size + size - 1 < size),
      Nat.div_eq_of_lt_le (k := 1) (by omega) (by omega)]
  · rw [← Nat.add_div_right _ positive]
    congr 1
    omega

/-- Joining values while bits are missing is joining as many as are needed.  The induction is on the
steps of the procedure. -/
theorem fill_eq {key : Bytes} (length : key.length = H.size) (qlen : ℕ) (t value : Bytes) :
    let count := ((qlen + 7) / 8 - t.length + H.size - 1) / H.size
    fill H qlen key t value = (t ++ (HmacNonce.stretch H key count value).1,
      (HmacNonce.stretch H key count value).2) := by
  fun_induction fill H qlen key t value with
  | case1 t value short ih =>
      dsimp only at ih ⊢
      rw [ih, digests_for H.size_pos (by omega : 0 < (qlen + 7) / 8 - t.length),
        List.length_append, length_hmac, Nat.sub_add_eq, HmacNonce.stretch, hmac_eq length,
        List.append_assoc]
  | case2 t value enough =>
      have positive := H.size_pos
      have none : ((qlen + 7) / 8 - t.length + H.size - 1) / H.size = 0 :=
        Nat.div_eq_of_lt (by omega)
      dsimp only
      rw [none, HmacNonce.stretch, List.append_nil]

/-- The values of the source for a candidate are those of the procedure. -/
theorem stretch_eq {key : Bytes} (length : key.length = H.size) (q : ℕ) (value : Bytes) :
    HmacNonce.stretch H key ((byteLength q + H.size - 1) / H.size) value =
      fill H q.size key [] value := by
  rw [fill_eq length, byteLength, bitLength_eq_size, List.nil_append, List.length_nil, Nat.sub_zero]

/-- There are enough bits in the end. -/
theorem le_length_fill (qlen : ℕ) (key t value : Bytes) :
    qlen ≤ 8 * (fill H qlen key t value).1.length := by
  fun_induction fill H qlen key t value with
  | case1 t value short ih => exact ih
  | case2 t value enough => exact not_lt.mp enough

/-- The source with the state of the generator. -/
def source (q : ℕ) (s : State) : HmacNonce H where
  order := q
  key := s.key
  value := s.value

/-- The source is seeded as in the standard. -/
theorem init_eq {q x : ℕ} (below : x < q) (h1 : Bytes) :
    (HmacNonce.init q x h1 : HmacNonce H) = source q (seeded H q x h1) := by
  have zeros : (List.replicate H.size (0x00 : UInt8)).length = H.size := List.length_replicate
  simp only [HmacNonce.init, source, seeded, octets_eq below,
    messageOctets_eq (Nat.zero_lt_of_lt below), hmac_eq zeros, hmac_eq (length_hmac H _ _),
    List.append_assoc, List.singleton_append]

/-- A candidate of the source is one of the standard: bytes that are cut off are behind its bits. -/
theorem candidate_eq {q : ℕ} {s : State} (length : s.key.length = H.size) :
    (source q s : HmacNonce H).candidate =
      ((candidate H q s).1, source q (candidate H q s).2) := by
  have enough := le_length_fill (H := H) q.size s.key [] s.value
  have long : byteLength q ≤ (fill H q.size s.key [] s.value).1.length := by
    rw [byteLength, bitLength_eq_size]
    omega
  simp only [HmacNonce.candidate, source, stretch_eq length, leftmostBits_take long,
    leftmostBits_eq, candidate]

/-- After an unsuitable candidate the source is renewed as in the standard. -/
theorem refresh_eq {q : ℕ} {s : State} (length : s.key.length = H.size) :
    (source q s : HmacNonce H).refresh = source q (renew H s) := by
  simp only [HmacNonce.refresh, source, renew, hmac_eq length, hmac_eq (length_hmac H _ _)]

/-! ## The candidates in turn -/

variable (H) (q x : ℕ) (h1 : Bytes)

theorem length_key_state (i : ℕ) : (state H q x h1 i).key.length = H.size := by
  cases i with
  | zero => exact length_hmac H _ _
  | succ i => exact length_hmac H _ _

/-- The source before the candidate with a given index. -/
def sourceAt (i : ℕ) : HmacNonce H := source q (state H q x h1 i)

/-- The source behind the candidate with a given index, if it is suitable. -/
def sourceBehind (i : ℕ) : HmacNonce H := source q (candidate H q (state H q x h1 i)).2

end Rfc6979

namespace HmacNonce

open Rfc6979

variable {H : Hash}

/-! ## Calls of the source -/

/-- One round of the loop for the next nonce. -/
def attempt (k : HmacNonce H) : Attempt (HmacNonce H) (ℕ × HmacNonce H) :=
  if Suitable k.order k.candidate.1 then .done k.candidate else .again k.candidate.2.refresh

/-- The range is that of the standard, and the order stays the same. -/
theorem next_eq (k : HmacNonce H) : k.next = Draw.untilDone (fun k => pure k.attempt) k := by
  have range (k : HmacNonce H) : (k.candidate.1 ≠ 0 ∧ k.candidate.1 < k.candidate.2.order) ↔
      Suitable k.order k.candidate.1 := by
    show (k.candidate.1 ≠ 0 ∧ k.candidate.1 < k.order) ↔ _
    rw [Suitable]
    omega
  simp only [next, range, attempt]

theorem next_readsNothing (k : HmacNonce H) : k.next.ReadsNothing := by
  rw [next_eq]
  exact Draw.readsNothing_untilDone k fun _ => Draw.readsNothing_pure _

/-- Every nonce is in range, whatever the state of the source. -/
theorem next_always (k : HmacNonce H) :
    k.next.Always fun (n, k') => Suitable k.order n ∧ k'.order = k.order := by
  rw [next_eq]
  refine Draw.ensures_untilDone rfl (fun k' => k'.order = k.order) rfl fun k' same => ?_
  refine Draw.ensures_pure ?_
  by_cases suitable : Suitable k'.order k'.candidate.1
  · rw [attempt, if_pos suitable]
    exact ⟨same ▸ suitable, same⟩
  · rw [attempt, if_neg suitable]
    exact same

/-- A round computes one candidate of the standard, and renews the state if it is out of range. -/
theorem rounds_source_succ {q : ℕ} {s : State} (length : s.key.length = H.size) (tape : Tape)
    (patience counter start : ℕ) :
    Draw.rounds (fun k => pure (attempt k)) tape patience (counter + 1) (source q s : HmacNonce H)
        start =
      if Suitable q (Rfc6979.candidate H q s).1 then
        .ok (((Rfc6979.candidate H q s).1, source q (Rfc6979.candidate H q s).2), start)
      else Draw.rounds (fun k => pure (attempt k)) tape patience counter
        (source q (renew H (Rfc6979.candidate H q s).2)) start := by
  rw [Draw.rounds_succ, Draw.run_pure, attempt, candidate_eq length]
  by_cases suitable : Suitable q (Rfc6979.candidate H q s).1
  · rw [if_pos suitable, if_pos (show Suitable (source q s : HmacNonce H).order _ from suitable)]
  · have kept : (Rfc6979.candidate H q s).2.key.length = H.size := length
    rw [if_neg suitable, if_neg (show ¬ Suitable (source q s : HmacNonce H).order _ from suitable)]
    dsimp only
    rw [refresh_eq kept]

/-- A call of the source is as many rounds as there is patience. -/
theorem run_next (k : HmacNonce H) (tape : Tape) (patience start : ℕ) :
    (NonceSource.next k).run tape patience start =
      Draw.rounds (fun k => pure (attempt k)) tape patience patience k start := by
  show (HmacNonce.next k).run tape patience start = _
  rw [next_eq, Draw.run_untilDone]

/-- **The first suitable candidate.**  From the source before a candidate, the loop either ends at
the first suitable candidate among as many as there are rounds, or is exhausted since none of them
is suitable.  The induction is on the rounds that are left. -/
theorem rounds_sourceAt (q x : ℕ) (h1 : Bytes) (tape : Tape) (patience counter i start : ℕ) :
    let outcome := Draw.rounds (fun k => pure (attempt k)) tape patience counter
      (sourceAt H q x h1 i) start
    (∃ j, i ≤ j ∧ j < i + counter ∧ Suitable q (trial H q x h1 j) ∧
        (∀ m, i ≤ m → m < j → ¬ Suitable q (trial H q x h1 m)) ∧
        outcome = .ok ((trial H q x h1 j, sourceBehind H q x h1 j), start)) ∨
      (∀ j, i ≤ j → j < i + counter → ¬ Suitable q (trial H q x h1 j)) ∧
        outcome = .error .exhausted := by
  induction counter generalizing i with
  | zero =>
      refine .inr ⟨fun j above below => ?_, rfl⟩
      omega
  | succ counter ih =>
      dsimp only at ih ⊢
      have round : Draw.rounds (fun k => pure (attempt k)) tape patience (counter + 1)
          (sourceAt H q x h1 i) start =
        if Suitable q (trial H q x h1 i) then
          .ok ((trial H q x h1 i, sourceBehind H q x h1 i), start)
        else Draw.rounds (fun k => pure (attempt k)) tape patience counter
          (sourceAt H q x h1 (i + 1)) start :=
        rounds_source_succ (length_key_state H q x h1 i) tape patience counter start
      rw [round]
      by_cases suitable : Suitable q (trial H q x h1 i)
      · rw [if_pos suitable]
        refine .inl ⟨i, le_rfl, by omega, suitable, fun m above below => ?_, rfl⟩
        omega
      · rw [if_neg suitable]
        have extend {j : ℕ} (others : ∀ m, i + 1 ≤ m → m < j → ¬ Suitable q (trial H q x h1 m))
            (m : ℕ) (above : i ≤ m) (below : m < j) : ¬ Suitable q (trial H q x h1 m) := by
          rcases above.eq_or_lt with rfl | later
          · exact suitable
          · exact others m later below
        rcases ih (i + 1) with ⟨j, above, below, found, others, run⟩ | ⟨others, run⟩
        · exact .inl ⟨j, by omega, by omega, found, extend others, run⟩
        · rw [show i + 1 + counter = i + (counter + 1) by omega] at others
          exact .inr ⟨extend others, run⟩

end HmacNonce

namespace NonceSource

variable {K : Type} [NonceSource K]

/-- Any number of calls one after the other: the nonces in order, and the source after them. -/
def successive : ℕ → K → Draw (List ℕ × K)
  | 0, k => pure ([], k)
  | count + 1, k => do
    let (n, k') ← next k
    let (rest, k'') ← successive count k'
    return (n :: rest, k'')

theorem successive_readsNothing (h : ∀ k : K, (next k).ReadsNothing) (count : ℕ) (k : K) :
    (successive count k).ReadsNothing := by
  induction count generalizing k with
  | zero => exact Draw.readsNothing_pure _
  | succ count ih =>
      refine Draw.readsNothing_bind (h k) fun first => ?_
      exact Draw.readsNothing_bind (ih first.2) fun _ => Draw.readsNothing_pure _

end NonceSource

namespace HmacNonce

open Rfc6979

variable {H : Hash}

/-- All nonces are in range, whatever the state of the source. -/
theorem successive_always (count : ℕ) (k : HmacNonce H) :
    (NonceSource.successive count k).Always fun (nonces, _) =>
      nonces.length = count ∧ ∀ n ∈ nonces, Suitable k.order n := by
  induction count generalizing k with
  | zero => exact Draw.ensures_pure ⟨rfl, fun n none => absurd none List.not_mem_nil⟩
  | succ count ih =>
      refine Draw.ensures_bind (k.next_always.mono fun (n, k') ⟨suitable, same⟩ => ?_)
      refine Draw.ensures_bind ((ih k').mono fun (rest, k'') ⟨length, others⟩ => ?_)
      refine Draw.ensures_pure ⟨congrArg (· + 1) length, List.forall_mem_cons.mpr ⟨suitable, ?_⟩⟩
      exact same ▸ others

/-- The first call of a source that was set up. -/
theorem run_next_init (before : HmacNonce H) {n d : ℕ} (secret : d < n) (message : Bytes)
    (tape : Tape) (patience start : ℕ) :
    let outcome := (NonceSource.next (NonceSource.init before n d message : HmacNonce H)).run
      tape patience start
    (∃ i < patience, Suitable n (trial H n d message i) ∧
        (∀ j < i, ¬ Suitable n (trial H n d message j)) ∧
        outcome = .ok ((trial H n d message i, sourceBehind H n d message i), start)) ∨
      (∀ i < patience, ¬ Suitable n (trial H n d message i)) ∧ outcome = .error .exhausted := by
  have seeded : (NonceSource.init before n d message : HmacNonce H) = sourceAt H n d message 0 :=
    init_eq secret message
  dsimp only
  rw [seeded, run_next]
  rcases rounds_sourceAt n d message tape patience patience 0 start with
    ⟨i, -, below, suitable, others, outcome⟩ | ⟨none, outcome⟩
  · exact .inl ⟨i, by omega, suitable, fun j earlier => others j (Nat.zero_le j) earlier, outcome⟩
  · exact .inr ⟨fun i below => none i (Nat.zero_le i) (by omega), outcome⟩

/-- **Deterministic nonces.**  A source that is set up for an order, a private key below it and a
message gives the nonce of the standard first, with the message for the hashed message, whatever it
was used for before.  It gives it exactly if one of the candidates is suitable, as many as the loop
may try.  All later nonces are in range, too, and no call reads anything from the tape. -/
theorem deterministic_nonces_standard (before : HmacNonce H) {n d : ℕ} (secret : d < n)
    (message : Bytes) :
    let source : HmacNonce H := NonceSource.init before n d message
    (∀ tape patience start,
      ((∃ k source' stop, (NonceSource.next source).run tape patience start =
          .ok ((k, source'), stop)) ↔
        ∃ i < patience, Suitable n (trial H n d message i)) ∧
      ∀ k source' stop, (NonceSource.next source).run tape patience start =
          .ok ((k, source'), stop) →
        IsNonce H n d message k ∧ stop = start) ∧
    ∀ count, (NonceSource.successive count source).ReadsNothing ∧
      (NonceSource.successive count source).Always fun (nonces, _) =>
        nonces.length = count ∧ ∀ k ∈ nonces, 1 ≤ k ∧ k ≤ n - 1 := by
  refine ⟨fun tape patience start => ?_, fun count => ⟨?_, ?_⟩⟩
  · rcases run_next_init before secret message tape patience start with
      ⟨i, below, suitable, others, outcome⟩ | ⟨none, outcome⟩
    · rw [outcome]
      refine ⟨⟨fun _ => ⟨i, below, suitable⟩, fun _ => ⟨_, _, _, rfl⟩⟩, ?_⟩
      intro k source' stop same
      cases same
      exact ⟨⟨i, rfl, suitable, others⟩, rfl⟩
    · rw [outcome]
      refine ⟨⟨?_, ?_⟩, ?_⟩
      · rintro ⟨k, source', stop, same⟩
        cases same
      · rintro ⟨i, below, suitable⟩
        exact absurd suitable (none i below)
      · intro k source' stop same
        cases same
  · exact NonceSource.successive_readsNothing next_readsNothing count _
  · exact successive_always count _

/-- A digest of two bytes over blocks of three. -/
def twoSums : Hash where
  size := 2
  blockSize := 3
  digest message := [message.sum, message.foldl (fun acc x => 5 * acc + x) 1]
  size_pos := by decide
  length_digest _ := rfl

/-- An order of 21 bits takes two digests for each candidate, of which a byte and three bits are cut
off.  The message has more bits than the order, and its leftmost bits are not below it.  The first
two candidates are out of range. -/
theorem deterministic_nonces_standard_third_candidate :
    let n := 2 ^ 20 + 7
    let message : Bytes := [0x80, 0xD0, 0xAB, 0xCD]
    let before : HmacNonce twoSums := { order := 5, key := [0x01, 0x02], value := [0x03] }
    let source : HmacNonce twoSums := NonceSource.init before n (n - 1) message
    n - 1 < n ∧ n ≤ leftmostBits n message ∧
      (List.range 3).map (trial twoSums n (n - 1) message) = [1854332, 2054767, 349285] ∧
      IsNonce twoSums n (n - 1) message 349285 ∧
      ∀ tape start, ∃ source', (NonceSource.next source).run tape 3 start =
        .ok ((349285, source'), start) := by
  intro n message before source
  have secret : n - 1 < n := by decide
  have trials : (List.range 3).map (trial twoSums n (n - 1) message) =
      [1854332, 2054767, 349285] := by decide +kernel
  have nonce : IsNonce twoSums n (n - 1) message 349285 :=
    ⟨2, by decide +kernel, by decide, by decide +kernel⟩
  refine ⟨secret, by decide +kernel, trials, nonce, fun tape start => ?_⟩
  obtain ⟨returns, first⟩ := (deterministic_nonces_standard before secret message).1 tape 3 start
  obtain ⟨k, source', stop, run⟩ := returns.mpr ⟨2, by decide, by decide +kernel⟩
  obtain ⟨isNonce, rfl⟩ := first k source' stop run
  obtain rfl := nonce.unique isNonce
  exact ⟨source', run⟩

end HmacNonce

end PublicKeyCrypto
