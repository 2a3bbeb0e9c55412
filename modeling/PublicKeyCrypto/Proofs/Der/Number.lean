import PublicKeyCrypto.Der.ObjectIdentifier
import PublicKeyCrypto.Proofs.Number.Encoding
import Mathlib

/-!
# Lengths and numbers in encodings

Two kinds of number are written in an encoding without a length of their own: the length of the
contents (X.690, 8.1.3) and the numbers of an object identifier, to base 128 (X.690, 8.19).  Both
say themselves where they end.  The standard has several forms for each of them and asks for the
shortest one.

What is a form of a number is said here as a relation (`IsLength`, `IsBase128`), and a reader is
given that accepts the shortest form only.  Each reader undoes the writer, whatever follows, and
what it reads is what the writer writes.

## Main Definitions

* `Der.IsLength`, `Der.IsBase128` — the forms of a number
* `Der.readLength`, `Der.readNumbers` — the readers

## Main Results

* `Der.readLength_lengthOctets`, `Der.eq_lengthOctets_of_readLength` — reading a length
* `Der.readNumbers_flatMap`, `Der.eq_flatMap_of_readNumbers` — reading numbers to base 128
* `Der.length_lengthOctets_le`, `Der.length_base128_le` — no other form is shorter
-/

namespace PublicKeyCrypto

namespace Bytes

/-- A string that is not empty and begins with no zero is the shortest encoding of its value. -/
theorem minimal_value_of_head? {b : Bytes} (h : b.head? ≠ some 0) : minimal (value b) = b := by
  cases b with
  | nil => rw [value_nil, minimal_zero]
  | cons x rest => exact minimal_value_cons (fun zero => h (congrArg some zero)) rest

end Bytes

namespace Der

/-! ## Lengths -/

/-- The octets are a definite form of the length: one octet without its top bit, or an octet with
the number of the others, which hold the length. -/
inductive IsLength : Bytes → ℕ → Prop
  | short {octet : UInt8} (small : octet < 0x80) : IsLength [octet] octet.toNat
  | long {first : UInt8} {octets : Bytes} (nonempty : octets ≠ [])
      (count : first.toNat = 0x80 + octets.length) (usable : first ≠ 0xFF) :
      IsLength (first :: octets) octets.value

/-- The length at the beginning of a string, with what follows.  The indefinite form and the octet
that is kept for later versions of the standard are refused, and so are forms that are not the
shortest. -/
def readLength : Bytes → Option (ℕ × Bytes)
  | [] => none
  | first :: rest =>
    if first < 0x80 then some (first.toNat, rest)
    else
      let count := first.toNat - 0x80
      let octets : Bytes := rest.take count
      if count = 0 ∨ first = 0xFF ∨ rest.length < count then none
      else if octets.head? = some 0 ∨ octets.value < 0x80 then none
      else some (octets.value, rest.drop count)

/-- A first octet of the long form. -/
theorem toNat_marked {count : ℕ} (small : count < 0x80) :
    (0x80 ||| count.toUInt8).toNat = 0x80 + count := by
  have all : ∀ count < 0x80, (0x80 ||| count.toUInt8).toNat = 0x80 + count := by decide
  exact all count small

/-- An octet with its top bit is found again from the others. -/
theorem marked_eq {octet : UInt8} {count : ℕ} (parts : octet.toNat = 0x80 + count) :
    0x80 ||| count.toUInt8 = octet := by
  have size := octet.toNat_lt
  apply UInt8.toNat_inj.mp
  rw [toNat_marked (by omega), parts]

/-- An octet that is not below 128 has its top bit. -/
theorem le_toNat_of_not_lt {octet : UInt8} (marked : ¬octet < 0x80) : 0x80 ≤ octet.toNat :=
  not_lt.mp fun h => marked (UInt8.lt_iff_toNat_lt.mpr h)

/-- An octet without its top bit. -/
theorem toNat_unmarked {n : ℕ} (small : n < 0x80) : n.toUInt8.toNat = n :=
  UInt8.toNat_ofNat_of_lt' (small.trans (by decide))

/-- What is written for a length below `2 ^ 64` is a form of it. -/
theorem isLength_lengthOctets {n : ℕ} (bounded : n < 2 ^ 64) : IsLength (lengthOctets n) n := by
  rw [lengthOctets]
  split
  · next small =>
    have octet := toNat_unmarked small
    have form : IsLength [n.toUInt8] n.toUInt8.toNat :=
      .short (UInt8.lt_iff_toNat_lt.mpr (by rw [octet]; exact small))
    rwa [octet] at form
  · next large =>
    have few : byteLength n ≤ 8 := byteLength_le_iff.mpr bounded
    have first : (0x80 ||| (byteLength n).toUInt8).toNat = 0x80 + byteLength n :=
      toNat_marked (by omega)
    have form : IsLength ((0x80 ||| (byteLength n).toUInt8) :: Bytes.minimal n)
        (Bytes.minimal n).value := by
      refine .long ?_ ?_ ?_
      · intro none
        rw [← Bytes.value_minimal n, none, Bytes.value_nil] at large
        exact large (by decide)
      · rw [first, Bytes.length_minimal]
      · intro reserved
        rw [reserved] at first
        simp at first
        omega
    rw [Bytes.value_minimal] at form
    simpa only [Bytes.length_minimal] using form

/-- The shortest form of a length is read. -/
theorem readLength_append {octets : Bytes} {n : ℕ} (form : IsLength octets n)
    (shortest : lengthOctets n = octets) (rest : Bytes) :
    readLength (octets ++ rest) = some (n, rest) := by
  cases form with
  | short small => rw [List.singleton_append, readLength, if_pos small]
  | @long first octets nonempty count usable =>
      rw [lengthOctets] at shortest
      split at shortest
      · exact absurd (List.cons.inj shortest).2.symm nonempty
      · next large =>
        have nonzero : octets.head? ≠ some 0 := by
          rw [← (List.cons.inj shortest).2]
          exact Bytes.head?_minimal _
        have long : ¬first < 0x80 := by
          rw [UInt8.lt_iff_toNat_lt, count]
          exact Nat.not_lt.mpr (Nat.le_add_right _ _)
        have number : first.toNat - 0x80 = octets.length := by omega
        have positive := List.length_pos_iff.mpr nonempty
        rw [List.cons_append, readLength, if_neg long]
        dsimp only
        rw [number, List.take_left, List.drop_left, if_neg, if_neg (not_or.mpr ⟨nonzero, large⟩)]
        simp only [usable, false_or, List.length_append, not_or, not_lt]
        omega

/-- **Reading a length** undoes writing it. -/
theorem readLength_lengthOctets {n : ℕ} (bounded : n < 2 ^ 64) (rest : Bytes) :
    readLength (lengthOctets n ++ rest) = some (n, rest) :=
  readLength_append (isLength_lengthOctets bounded) rfl rest

/-- **A length that is read** is what is written for it. -/
theorem eq_lengthOctets_of_readLength {b rest : Bytes} {n : ℕ}
    (read : readLength b = some (n, rest)) : b = lengthOctets n ++ rest := by
  cases b with
  | nil => cases read
  | cons first b =>
      rw [readLength] at read
      split at read
      · next short =>
        cases read
        have small : first.toNat < 0x80 := UInt8.lt_iff_toNat_lt.mp short
        rw [lengthOctets, if_pos small]
        simp
      · next long =>
        dsimp only at read
        split at read
        · cases read
        · next usable =>
          split at read
          · cases read
          · next shortest =>
            obtain ⟨rfl, rfl⟩ := Prod.mk.inj (Option.some.inj read)
            obtain ⟨nonzero, large⟩ := not_or.mp shortest
            have room : first.toNat - 0x80 ≤ b.length :=
              not_lt.mp (not_or.mp (not_or.mp usable).2).2
            have marked := le_toNat_of_not_lt long
            have count : (b.take (first.toNat - 0x80)).length = first.toNat - 0x80 :=
              List.length_take_of_le room
            have again : 0x80 ||| (first.toNat - 0x80).toUInt8 = first := marked_eq (by omega)
            rw [lengthOctets, if_neg large]
            dsimp only
            rw [Bytes.minimal_value_of_head? nonzero, count, again, List.cons_append,
              List.take_append_drop]

/-- No form of a length is shorter than the one that is written. -/
theorem length_lengthOctets_le {octets : Bytes} {n : ℕ} (form : IsLength octets n) :
    (lengthOctets n).length ≤ octets.length := by
  have nonempty : 0 < octets.length := by
    cases form <;> simp
  rw [lengthOctets]
  split
  · exact nonempty
  · next large =>
    cases form with
    | short small => exact absurd (UInt8.lt_iff_toNat_lt.mp small) large
    | long => exact Nat.succ_le_succ (Bytes.length_minimal_value_le _)

/-! ## Numbers to base 128 -/

open ObjectIdentifier (base128 leadingDigits)

/-- The octets are a form of the number to base 128: the top bit of every octet but the last is set,
and the other bits are the digits. -/
structure IsBase128 (octets : Bytes) (n : ℕ) : Prop where
  marked : ∃ digits last, octets = digits ++ [last] ∧ (∀ d ∈ digits, 0x80 ≤ d) ∧ last < 0x80
  value_eq : octets.foldl (fun m octet => m * 128 + octet.toNat % 128) 0 = n

/-- The numbers that a string consists of, if `begun` has been read of the first one.  No shortest
form begins with the digit zero, so that zero stands for a number that has not begun; forms that are
not the shortest are refused. -/
def readNumbers : (begun : ℕ) → Bytes → Option (List ℕ)
  | begun, [] => if begun = 0 then some [] else none
  | begun, octet :: rest =>
    if begun = 0 ∧ octet = 0x80 then none
    else
      let m := begun * 128 + octet.toNat % 128
      if octet < 0x80 then (readNumbers 0 rest).map (m :: ·) else readNumbers m rest

/-- A digit that is followed by others. -/
theorem leadingDigits_mul_add {m d : ℕ} (nonzero : m * 128 + d ≠ 0) (digit : d < 128) :
    leadingDigits (m * 128 + d) = leadingDigits m ++ [0x80 ||| d.toUInt8] := by
  rw [leadingDigits, if_neg nonzero, show (m * 128 + d) / 128 = m by omega,
    show (m * 128 + d) % 128 = d by omega]

/-- The last digit. -/
theorem base128_mul_add {m d : ℕ} (digit : d < 128) :
    base128 (m * 128 + d) = leadingDigits m ++ [d.toUInt8] := by
  rw [base128, show (m * 128 + d) / 128 = m by omega, show (m * 128 + d) % 128 = d by omega]

theorem leadingDigits_zero : leadingDigits 0 = [] := by
  rw [leadingDigits, if_pos rfl]

/-- Leading digits by the number that they begin: each one is written after those before it. -/
theorem leadingDigits_induction {P : ℕ → Prop} (zero : P 0)
    (digit : ∀ m d, m * 128 + d ≠ 0 → d < 128 → P m → P (m * 128 + d)) (n : ℕ) : P n := by
  induction n using Nat.strong_induction_on with
  | _ n ih =>
      by_cases none : n = 0
      · rwa [none]
      · rw [show n = n / 128 * 128 + n % 128 by omega] at none ⊢
        exact digit _ _ none (Nat.mod_lt _ (by decide)) (ih _ (by omega))

/-- A marked digit is read as what it adds. -/
theorem readNumbers_marked {m d : ℕ} (nonzero : m * 128 + d ≠ 0) (digit : d < 128) (rest : Bytes) :
    readNumbers m ((0x80 ||| d.toUInt8) :: rest) = readNumbers (m * 128 + d) rest := by
  have octet := toNat_marked digit
  have begins : ¬(m = 0 ∧ 0x80 ||| d.toUInt8 = 0x80) := by
    rintro ⟨rfl, zero⟩
    rw [zero] at octet
    simp at octet
    omega
  have goesOn : ¬(0x80 ||| d.toUInt8) < 0x80 := by
    rw [UInt8.lt_iff_toNat_lt, octet]
    exact Nat.not_lt.mpr (Nat.le_add_right _ _)
  rw [readNumbers, if_neg begins]
  dsimp only
  rw [if_neg goesOn, octet, show (0x80 + d) % 128 = d by omega]

/-- Leading digits are read as the number that they begin. -/
theorem readNumbers_leadingDigits (n : ℕ) (rest : Bytes) :
    readNumbers 0 (leadingDigits n ++ rest) = readNumbers n rest := by
  induction n using leadingDigits_induction generalizing rest with
  | zero => rw [leadingDigits_zero, List.nil_append]
  | digit m d nonzero digit ih =>
      rw [leadingDigits_mul_add nonzero digit, List.append_assoc, ih, List.singleton_append,
        readNumbers_marked nonzero digit]

/-- One number is read, and the others behind it. -/
theorem readNumbers_base128 (n : ℕ) (rest : Bytes) :
    readNumbers 0 (base128 n ++ rest) = (readNumbers 0 rest).map (n :: ·) := by
  have octet := toNat_unmarked (Nat.mod_lt n (by decide : 0 < 128))
  have last : (n % 128).toUInt8 < 0x80 := by
    rw [UInt8.lt_iff_toNat_lt, octet]
    exact Nat.mod_lt _ (by decide)
  have unmarked : (n % 128).toUInt8 ≠ 0x80 := by
    rintro marked
    rw [marked] at last
    exact absurd last (by decide)
  rw [base128, List.append_assoc, readNumbers_leadingDigits, List.singleton_append, readNumbers,
    if_neg (fun h => unmarked h.2)]
  dsimp only
  rw [if_pos last, octet, Nat.mod_mod, Nat.div_add_mod' n 128]

/-- **Reading numbers** undoes writing them one after the other. -/
theorem readNumbers_flatMap (ns : List ℕ) : readNumbers 0 (ns.flatMap base128) = some ns := by
  induction ns with
  | nil => rfl
  | cons n ns ih => rw [List.flatMap_cons, readNumbers_base128, ih, Option.map_some]

/-- What has been read of a number, together with what follows, is what is written. -/
theorem leadingDigits_append_of_readNumbers {begun : ℕ} {b : Bytes} {ns : List ℕ}
    (read : readNumbers begun b = some ns) : leadingDigits begun ++ b = ns.flatMap base128 := by
  induction b generalizing begun ns with
  | nil =>
      rw [readNumbers] at read
      split at read
      · next zero =>
        cases read
        rw [zero, leadingDigits_zero]
        rfl
      · cases read
  | cons octet rest ih =>
      have digit : octet.toNat % 128 < 128 := Nat.mod_lt _ (by decide)
      have size := octet.toNat_lt
      rw [readNumbers] at read
      split at read
      · cases read
      · next begins =>
        dsimp only at read
        split at read
        · next last =>
          obtain ⟨others, found, rfl⟩ := Option.map_eq_some_iff.mp read
          have small : octet.toNat < 128 := UInt8.lt_iff_toNat_lt.mp last
          have written : (octet.toNat % 128).toUInt8 = octet := by
            rw [Nat.mod_eq_of_lt small]
            exact UInt8.ofNat_toNat
          rw [List.flatMap_cons, base128_mul_add digit, written, ← ih found, leadingDigits_zero,
            List.nil_append, List.append_assoc, List.singleton_append]
        · next marked =>
          have large := le_toNat_of_not_lt marked
          have written : 0x80 ||| (octet.toNat % 128).toUInt8 = octet := marked_eq (by omega)
          have nonzero : begun * 128 + octet.toNat % 128 ≠ 0 := by
            intro zero
            refine begins ⟨by omega, UInt8.toNat_inj.mp ?_⟩
            show octet.toNat = 128
            omega
          rw [← ih read, leadingDigits_mul_add nonzero digit, written, List.append_assoc,
            List.singleton_append]

/-- **Numbers that are read** are what is written for them. -/
theorem eq_flatMap_of_readNumbers {b : Bytes} {ns : List ℕ} (read : readNumbers 0 b = some ns) :
    b = ns.flatMap base128 := by
  have written := leadingDigits_append_of_readNumbers read
  rwa [leadingDigits_zero, List.nil_append] at written

/-- Leading digits are marked, and they are the digits of the number. -/
theorem leadingDigits_spec (n : ℕ) : (∀ d ∈ leadingDigits n, 0x80 ≤ d) ∧
    (leadingDigits n).foldl (fun m octet => m * 128 + octet.toNat % 128) 0 = n := by
  induction n using leadingDigits_induction with
  | zero => simp [leadingDigits_zero]
  | digit m d nonzero digit ih =>
      have octet := toNat_marked digit
      rw [leadingDigits_mul_add nonzero digit]
      constructor
      · intro x member
        rcases List.mem_append.mp member with earlier | last
        · exact ih.1 x earlier
        · rw [List.mem_singleton.mp last, UInt8.le_iff_toNat_le, octet]
          exact Nat.le_add_right _ _
      · rw [List.foldl_append, ih.2, List.foldl_cons, List.foldl_nil, octet]
        omega

/-- What is written for a number is a form of it. -/
theorem isBase128_base128 (n : ℕ) : IsBase128 (base128 n) n := by
  have octet := toNat_unmarked (Nat.mod_lt n (by decide : 0 < 128))
  obtain ⟨marked, value⟩ := leadingDigits_spec (n / 128)
  refine ⟨⟨leadingDigits (n / 128), (n % 128).toUInt8, rfl, marked, ?_⟩, ?_⟩
  · rw [UInt8.lt_iff_toNat_lt, octet]
    exact Nat.mod_lt _ (by decide)
  · rw [base128, List.foldl_append, value, List.foldl_cons, List.foldl_nil, octet, Nat.mod_mod,
      Nat.div_add_mod' n 128]

/-- So many octets hold only smaller numbers. -/
theorem foldl_lt_pow (octets : Bytes) :
    octets.foldl (fun m octet => m * 128 + octet.toNat % 128) 0 < 128 ^ octets.length := by
  induction octets using List.reverseRecOn with
  | nil => simp
  | append_singleton octets octet ih =>
      have digit : octet.toNat % 128 < 128 := Nat.mod_lt _ (by decide)
      rw [List.foldl_append, List.length_append, List.length_singleton, pow_succ, List.foldl_cons,
        List.foldl_nil]
      omega

/-- A number below a power of 128 has no more leading digits than the exponent. -/
theorem length_leadingDigits_le {n k : ℕ} (small : n < 128 ^ k) : (leadingDigits n).length ≤ k := by
  induction k generalizing n with
  | zero =>
      rw [pow_zero, Nat.lt_one_iff] at small
      rw [small, leadingDigits_zero, List.length_nil]
  | succ k ih =>
      by_cases zero : n = 0
      · rw [zero, leadingDigits_zero]
        exact Nat.zero_le _
      · have fewer := ih (n := n / 128) (by rw [pow_succ] at small; omega)
        rw [leadingDigits, if_neg zero, List.length_append, List.length_singleton]
        omega

/-- No form of a number is shorter than the one that is written. -/
theorem length_base128_le {octets : Bytes} {n : ℕ} (form : IsBase128 octets n) :
    (base128 n).length ≤ octets.length := by
  obtain ⟨⟨digits, last, rfl, -, -⟩, value⟩ := form
  have small := foldl_lt_pow (digits ++ [last])
  rw [value, List.length_append, List.length_singleton, pow_succ] at small
  have fewer := length_leadingDigits_le (n := n / 128) (k := digits.length) (by omega)
  rw [base128, List.length_append, List.length_append, List.length_singleton, List.length_singleton]
  omega

end Der

end PublicKeyCrypto
