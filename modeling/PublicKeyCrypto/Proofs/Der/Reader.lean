import PublicKeyCrypto.Der.Tree
import PublicKeyCrypto.Proofs.Der.Number
import Mathlib

/-!
# Reading encoded trees

An encoding begins with a tag and the length of its contents, and so it says itself where it ends.
That is all that is needed to cut it off from what follows (`Element`).  The contents are then read
according to the tag: for a sequence and for an explicit tag they are encodings themselves, one
after the other, and the reader is called again on a shorter string.

The reader keeps to the definite lengths of X.690 and to the shortest forms, so that it undoes the
encoder (`read_encode`) and reads nothing else (`eq_encode_of_read`).  Whatever is said of different
trees is read off from the first of these.

## Main Definitions

* `ObjectIdentifier.firstArcs`, `ObjectIdentifier.ofContents` — reading the arcs of an identifier
* `Der.Element`, `Der.readElement` — an encoding that is cut at its contents
* `Der.Tree.read` — the reader
* `Der.Tree.Encodable` — trees whose tag numbers and lengths the encoder can write

## Main Results

* `Der.Tree.read_encode`, `Der.Tree.eq_encode_of_read` — the reader undoes the encoder
* `Der.encoding_canonical` — encodings are canonical and say where they end
-/

namespace PublicKeyCrypto

namespace ObjectIdentifier

/-- The first two arcs from the number that they share: below the first two arcs of the root there
are forty each (X.690, 8.19.4). -/
def firstArcs (n : ℕ) : ℕ × ℕ := if n < 80 then (n / 40, n % 40) else (2, n - 80)

/-- The identifier with the given contents, if its arcs have at most 32 bits. -/
def ofContents (contents : Bytes) : Option ObjectIdentifier :=
  match Der.readNumbers 0 contents with
  | some (shared :: rest) =>
    let arcs := (firstArcs shared).1 :: (firstArcs shared).2 :: rest
    if ∀ arc ∈ arcs, arc < 2 ^ 32 then
      match ofArcs (arcs.map UInt32.ofNat) with
      | .ok id => some id
      | .error _ => none
    else none
  | _ => none

/-- The first two arcs are found again in their number. -/
theorem firstArcs_shared (id : ObjectIdentifier) :
    firstArcs (40 * id.first.toNat + id.second.toNat) = (id.first.toNat, id.second.toNat) := by
  have branch : id.first.toNat ≤ 2 := UInt32.le_iff_toNat_le.mp id.first_le
  have below : id.first.toNat < 2 → id.second.toNat < 40 := fun h =>
    UInt32.lt_iff_toNat_lt.mp (id.second_lt (UInt32.lt_iff_toNat_lt.mpr h))
  unfold firstArcs
  split <;> rw [Prod.mk.injEq] <;> omega

/-- The number that two arcs share. -/
theorem shared_firstArcs (n : ℕ) : 40 * (firstArcs n).1 + (firstArcs n).2 = n := by
  unfold firstArcs
  split <;> dsimp only <;> omega

/-- The identifier with given arcs has these arcs. -/
theorem ofArcs_eq_ok_iff {arcs : List UInt32} {id : ObjectIdentifier} :
    ofArcs arcs = .ok id ↔ id.arcs = arcs := by
  constructor
  · intro made
    unfold ofArcs at made
    split at made
    · split at made
      · cases made
        rfl
      · cases made
    · cases made
  · rintro rfl
    exact dif_pos ⟨id.first_le, id.second_lt⟩

/-- The contents are the numbers of the identifier to base 128. -/
theorem contents_eq_flatMap (id : ObjectIdentifier) :
    id.contents = ((40 * id.first.toNat + id.second.toNat) ::
      id.rest.map UInt32.toNat).flatMap base128 := by
  rw [contents, List.flatMap_cons, List.flatMap_map]

/-- Words are found again in their numbers. -/
theorem map_ofNat_map_toNat (words : List UInt32) :
    (words.map UInt32.toNat).map UInt32.ofNat = words := by
  have inverse : UInt32.ofNat ∘ UInt32.toNat = id := funext fun _ => UInt32.ofNat_toNat
  rw [List.map_map, inverse, List.map_id]

/-- Numbers of at most 32 bits are found again in their words. -/
theorem map_toNat_map_ofNat {numbers : List ℕ} (small : ∀ n ∈ numbers, n < 2 ^ 32) :
    (numbers.map UInt32.ofNat).map UInt32.toNat = numbers := by
  rw [List.map_map]
  calc numbers.map (UInt32.toNat ∘ UInt32.ofNat)
      = numbers.map id :=
        List.map_congr_left fun n member => UInt32.toNat_ofNat_of_lt' (small n member)
    _ = numbers := List.map_id _

/-- **Reading the contents** gives the identifier. -/
theorem ofContents_contents (id : ObjectIdentifier) : ofContents id.contents = some id := by
  have arcs : id.first.toNat :: id.second.toNat :: id.rest.map UInt32.toNat =
      id.arcs.map UInt32.toNat := rfl
  have small : ∀ arc ∈ id.arcs.map UInt32.toNat, arc < 2 ^ 32 := by
    intro arc member
    obtain ⟨word, -, rfl⟩ := List.mem_map.mp member
    exact word.toNat_lt
  rw [ofContents, contents_eq_flatMap, Der.readNumbers_flatMap]
  dsimp only
  rw [firstArcs_shared, arcs, if_pos small, map_ofNat_map_toNat, ofArcs_eq_ok_iff.mpr rfl]

/-- **Contents that are read** are those of the identifier. -/
theorem eq_contents_of_ofContents {contents : Bytes} {id : ObjectIdentifier}
    (read : ofContents contents = some id) : contents = id.contents := by
  unfold ofContents at read
  split at read
  · next shared rest numbers =>
    dsimp only at read
    split at read
    · next small =>
      split at read
      · next id' made =>
        cases read
        -- The words are the arcs, since these have at most 32 bits.
        have arcs := congrArg (List.map UInt32.toNat) (ofArcs_eq_ok_iff.mp made)
        rw [map_toNat_map_ofNat small] at arcs
        obtain ⟨first, second, others⟩ : id.first.toNat = (firstArcs shared).1 ∧
            id.second.toNat = (firstArcs shared).2 ∧ id.rest.map UInt32.toNat = rest := by
          simpa only [ObjectIdentifier.arcs, List.map_cons, List.cons.injEq] using arcs
        rw [Der.eq_flatMap_of_readNumbers numbers, contents_eq_flatMap, first, second, others,
          shared_firstArcs]
      · cases read
    · cases read
  · cases read

end ObjectIdentifier

namespace Der

/-! ## Elements -/

/-- An encoding that is cut at its contents, and what follows it. -/
structure Element where
  tag : UInt8
  contents : Bytes
  rest : Bytes

/-- The encoding at the beginning of a string. -/
def readElement : Bytes → Option Element
  | [] => none
  | tag :: b => do
    let (length, b) ← readLength b
    if b.length < length then none
    else return { tag, contents := b.take length, rest := b.drop length }

/-- Reading an encoding undoes writing it. -/
theorem readElement_tagged (tag : UInt8) {contents : Bytes} (bounded : contents.length < 2 ^ 64)
    (rest : Bytes) :
    readElement (tagged tag contents ++ rest) = some { tag, contents, rest } := by
  rw [tagged, List.cons_append, List.cons_append, List.append_assoc, readElement,
    readLength_lengthOctets bounded]
  simp

/-- An encoding that is read is what is written for its parts. -/
theorem eq_tagged_of_readElement {b : Bytes} {e : Element} (read : readElement b = some e) :
    b = tagged e.tag e.contents ++ e.rest := by
  cases b with
  | nil => cases read
  | cons tag b =>
      rw [readElement] at read
      obtain ⟨⟨length, after⟩, found, read⟩ := Option.bind_eq_some_iff.mp read
      dsimp only at read
      split at read
      · cases read
      · next room =>
        cases read
        have count : (after.take length).length = length :=
          List.length_take_of_le (not_lt.mp room)
        dsimp only
        rw [tagged, count, eq_lengthOctets_of_readLength found, List.cons_append, List.cons_append,
          List.append_assoc, List.take_append_drop]

/-- The contents and what follows are shorter than the string. -/
theorem length_lt_of_readElement {b : Bytes} {e : Element} (read : readElement b = some e) :
    e.contents.length < b.length ∧ e.rest.length < b.length := by
  rw [eq_tagged_of_readElement read, tagged]
  simp only [List.length_append, List.length_cons]
  omega

/-! ## Trees -/

mutual

/-- The encodings that a string consists of. -/
def readAll (b : Bytes) : Option (List Tree) :=
  if b = [] then some []
  else
    match _read : readElement b with
    | none => none
    | some e => do
      let t ← Tree.ofContents e.tag e.contents
      let ts ← readAll e.rest
      return t :: ts
termination_by (b.length, 0)
decreasing_by
  · exact Prod.Lex.left _ _ (length_lt_of_readElement _read).1
  · exact Prod.Lex.left _ _ (length_lt_of_readElement _read).2

/-- The tree with the given tag and contents. -/
def Tree.ofContents (tag : UInt8) (contents : Bytes) : Option Tree :=
  if tag = 0x30 then (readAll contents).map .sequence
  else if tag = 0x04 then some (.octetString contents)
  else if tag = 0x05 then if contents = [] then some .null else none
  else if tag = 0x06 then (ObjectIdentifier.ofContents contents).map .objectIdentifier
  else if 0xA0 ≤ tag ∧ tag ≤ 0xBE then
    match readAll contents with
    | some [inner] => some (.explicit (tag - 0xA0) inner)
    | _ => none
  else none
termination_by (contents.length, 1)

end

@[simp] theorem readAll_nil : readAll [] = some [] := by
  rw [readAll, if_pos rfl]

/-- The first encoding of a string that is not empty, and the others. -/
theorem readAll_eq_bind {b : Bytes} (nonempty : b ≠ []) :
    readAll b = do
      let e ← readElement b
      let t ← Tree.ofContents e.tag e.contents
      let ts ← readAll e.rest
      return t :: ts := by
  rw [readAll, if_neg nonempty]
  split <;> simp [*]

namespace Tree

/-- The tree at the beginning of a string, with what follows. -/
def read (b : Bytes) : Option (Tree × Bytes) := do
  let e ← readElement b
  return (← ofContents e.tag e.contents, e.rest)

/-- The tag of the encoding. -/
def tag : Tree → UInt8
  | sequence _ => 0x30
  | octetString _ => 0x04
  | null => 0x05
  | explicit number _ => 0xA0 ||| (number &&& 0x1F)
  | objectIdentifier _ => 0x06

/-- The contents of the encoding. -/
def contents : Tree → Bytes
  | sequence items => (encodeAll items).flatten
  | octetString data => data
  | null => []
  | explicit _ inner => inner.encode
  | objectIdentifier id => id.contents

theorem encode_eq_tagged (t : Tree) : t.encode = tagged t.tag t.contents := by
  cases t <;> rw [encode] <;> rfl

/-- Every tag number is at most 30, and the contents of every part are shorter than `2 ^ 64`. -/
inductive Encodable : Tree → Prop
  | sequence {items : List Tree} (parts : ∀ t ∈ items, Encodable t)
      (short : (encodeAll items).flatten.length < 2 ^ 64) : Encodable (sequence items)
  | octetString {data : Bytes} (short : data.length < 2 ^ 64) : Encodable (octetString data)
  | null : Encodable null
  | explicit {number : UInt8} {inner : Tree} (part : Encodable inner) (small : number ≤ 30)
      (short : inner.encode.length < 2 ^ 64) : Encodable (explicit number inner)
  | objectIdentifier {id : ObjectIdentifier} (short : id.contents.length < 2 ^ 64) :
      Encodable (objectIdentifier id)

theorem Encodable.length_contents_lt {t : Tree} (encodable : t.Encodable) :
    t.contents.length < 2 ^ 64 := by
  cases encodable with
  | sequence _ short => exact short
  | octetString short => exact short
  | null => exact Nat.two_pow_pos 64
  | explicit _ _ short => exact short
  | objectIdentifier short => exact short

/-- A string that begins with the encoding of a tree is read as its contents are. -/
theorem Encodable.readElement_encode {t : Tree} (encodable : t.Encodable) (rest : Bytes) :
    readElement (t.encode ++ rest) = some ⟨t.tag, t.contents, rest⟩ := by
  rw [encode_eq_tagged]
  exact readElement_tagged t.tag encodable.length_contents_lt rest

/-- Encodings one after the other are read if each of them is. -/
theorem readAll_encodeAll {items : List Tree} (parts : ∀ t ∈ items, t.Encodable)
    (found : ∀ t ∈ items, ofContents t.tag t.contents = some t) :
    readAll (encodeAll items).flatten = some items := by
  induction items with
  | nil => exact readAll_nil
  | cons t rest ih =>
      obtain ⟨encodable, parts⟩ := List.forall_mem_cons.mp parts
      obtain ⟨first, found⟩ := List.forall_mem_cons.mp found
      have nonempty : t.encode ++ (encodeAll rest).flatten ≠ [] := by
        rw [encode_eq_tagged, tagged]
        exact List.cons_ne_nil _ _
      rw [encodeAll, List.flatten_cons, readAll_eq_bind nonempty, encodable.readElement_encode]
      simp [first, ih parts found]

/-- What is read under an explicit tag. -/
theorem ofContents_of_marked {tag : UInt8} (least : 0xA0 ≤ tag) (greatest : tag ≤ 0xBE)
    (contents : Bytes) : ofContents tag contents =
      match readAll contents with
      | some [inner] => some (.explicit (tag - 0xA0) inner)
      | _ => none := by
  have other : ∀ small < (0xA0 : UInt8), tag ≠ small := by
    rintro small below rfl
    exact UInt8.not_le.mpr below least
  rw [ofContents, if_neg (other _ (by decide)), if_neg (other _ (by decide)),
    if_neg (other _ (by decide)), if_neg (other _ (by decide)), if_pos ⟨least, greatest⟩]

/-- The tags that stand for a tag number, and the numbers. -/
theorem explicit_tag {number : UInt8} (small : number ≤ 30) :
    0xA0 ≤ 0xA0 ||| (number &&& 0x1F) ∧ 0xA0 ||| (number &&& 0x1F) ≤ 0xBE ∧
      (0xA0 ||| (number &&& 0x1F)) - 0xA0 = number := by
  have all : ∀ n < 31, 0xA0 ≤ 0xA0 ||| (n.toUInt8 &&& 0x1F) ∧
      0xA0 ||| (n.toUInt8 &&& 0x1F) ≤ 0xBE ∧
      (0xA0 ||| (n.toUInt8 &&& 0x1F)) - 0xA0 = n.toUInt8 := by
    decide
  have known := all number.toNat (Nat.lt_succ_of_le (UInt8.le_iff_toNat_le.mp small))
  rwa [show number.toNat.toUInt8 = number from UInt8.ofNat_toNat] at known

/-- **The contents of a tree** are read as the tree.  The induction is on the tree; the parts of a
sequence are read one after the other. -/
theorem Encodable.ofContents_contents {t : Tree} (encodable : t.Encodable) :
    ofContents t.tag t.contents = some t := by
  induction encodable with
  | sequence parts short ih =>
      rw [tag, contents, ofContents, if_pos rfl, readAll_encodeAll parts ih]
      rfl
  | octetString short => rw [tag, contents, ofContents, if_neg (by decide), if_pos rfl]
  | null =>
      rw [tag, contents, ofContents, if_neg (by decide), if_neg (by decide), if_pos rfl, if_pos rfl]
  | @explicit number inner part small short ih =>
      have alone : readAll inner.encode = some [inner] := by
        have whole : readAll (encodeAll [inner]).flatten = some [inner] :=
          readAll_encodeAll (by simpa using part) (by simpa using ih)
        simpa [encodeAll] using whole
      obtain ⟨least, greatest, found⟩ := explicit_tag small
      rw [tag, contents, ofContents_of_marked least greatest, alone, found]
  | objectIdentifier short =>
      rw [tag, contents, ofContents, if_neg (by decide), if_neg (by decide), if_neg (by decide),
        if_pos rfl, ObjectIdentifier.ofContents_contents]
      rfl

/-- **Reading undoes encoding**, whatever follows. -/
theorem read_encode {t : Tree} (encodable : t.Encodable) (rest : Bytes) :
    read (t.encode ++ rest) = some (t, rest) := by
  rw [read, encodable.readElement_encode]
  simp [encodable.ofContents_contents]

/-- A tag above the least one stands for the difference. -/
theorem explicit_tag_sub {tag : UInt8} (least : 0xA0 ≤ tag) (greatest : tag ≤ 0xBE) :
    0xA0 ||| ((tag - 0xA0) &&& 0x1F) = tag := by
  have all : ∀ n < 31, 0xA0 ||| (((0xA0 + n).toUInt8 - 0xA0) &&& 0x1F) = (0xA0 + n).toUInt8 := by
    decide
  have low : 0xA0 ≤ tag.toNat := UInt8.le_iff_toNat_le.mp least
  have high : tag.toNat ≤ 0xBE := UInt8.le_iff_toNat_le.mp greatest
  have known := all (tag.toNat - 0xA0) (by omega)
  rwa [show 0xA0 + (tag.toNat - 0xA0) = tag.toNat by omega,
    show tag.toNat.toUInt8 = tag from UInt8.ofNat_toNat] at known

/-- A tree that is read has the tag and the contents from which it is read, if the parts are read
like that. -/
theorem eq_tag_of_ofContents {tag : UInt8} {contents : Bytes} {t : Tree}
    (parts : ∀ ts, readAll contents = some ts → contents = (encodeAll ts).flatten)
    (read : ofContents tag contents = some t) : tag = t.tag ∧ contents = t.contents := by
  rw [ofContents] at read
  split at read
  · next isSequence =>
    obtain ⟨items, found, rfl⟩ := Option.map_eq_some_iff.mp read
    exact ⟨isSequence, parts items found⟩
  split at read
  · next isOctetString =>
    cases read
    exact ⟨isOctetString, rfl⟩
  split at read
  · next isNull =>
    split at read
    · next empty =>
      cases read
      exact ⟨isNull, empty⟩
    · cases read
  split at read
  · next isIdentifier =>
    obtain ⟨id, found, rfl⟩ := Option.map_eq_some_iff.mp read
    exact ⟨isIdentifier, ObjectIdentifier.eq_contents_of_ofContents found⟩
  split at read
  · next marked =>
    split at read
    · next inner found =>
      cases read
      refine ⟨(explicit_tag_sub marked.1 marked.2).symm, ?_⟩
      simpa [encodeAll, Tree.contents] using parts _ found
    · cases read
  · cases read

/-- **Encodings that are read** one after the other are those of the trees.  The induction is on the
length of the string, since the reader goes on both with the contents and with what follows. -/
theorem eq_flatten_of_readAll {b : Bytes} {ts : List Tree} (read : readAll b = some ts) :
    b = (encodeAll ts).flatten := by
  induction length : b.length using Nat.strong_induction_on generalizing b ts with
  | _ n ih =>
      subst length
      by_cases empty : b = []
      · subst empty
        cases readAll_nil.symm.trans read
        rfl
      · rw [readAll_eq_bind empty] at read
        obtain ⟨e, cut, read⟩ := Option.bind_eq_some_iff.mp read
        obtain ⟨t, first, read⟩ := Option.bind_eq_some_iff.mp read
        obtain ⟨others, follow, read⟩ := Option.bind_eq_some_iff.mp read
        cases read
        obtain ⟨inside, behind⟩ := length_lt_of_readElement cut
        obtain ⟨sameTag, sameContents⟩ :=
          eq_tag_of_ofContents (fun _ found => ih _ inside found rfl) first
        rw [encodeAll, List.flatten_cons, ← ih _ behind follow rfl, encode_eq_tagged, ← sameTag,
          ← sameContents]
        exact eq_tagged_of_readElement cut

/-- **What is read is the encoding** of the tree. -/
theorem eq_encode_of_read {b rest : Bytes} {t : Tree} (read : read b = some (t, rest)) :
    b = t.encode ++ rest := by
  obtain ⟨e, cut, read⟩ := Option.bind_eq_some_iff.mp read
  obtain ⟨t, found, read⟩ := Option.bind_eq_some_iff.mp read
  cases read
  obtain ⟨sameTag, sameContents⟩ :=
    eq_tag_of_ofContents (fun _ whole => eq_flatten_of_readAll whole) found
  rw [encode_eq_tagged, ← sameTag, ← sameContents]
  exact eq_tagged_of_readElement cut

/-- No encoding begins with that of another tree. -/
theorem Encodable.eq_of_prefix {t t' : Tree} (encodable : t.Encodable) (encodable' : t'.Encodable)
    (begins : t.encode <+: t'.encode) : t = t' := by
  obtain ⟨rest, whole⟩ := begins
  have same := read_encode encodable' []
  rw [List.append_nil, ← whole, read_encode encodable rest] at same
  exact (Prod.mk.inj (Option.some.inj same)).1

end Tree

/-- **Encodings are canonical and say where they end.**  Of the encoding of a tree with any string
behind it the reader gives the tree and that string; it reads nothing that is not an encoding, so
that no tree has a second one; and no encoding begins with that of another tree.

The lengths in encodings, and the numbers of object identifiers, are written in the shortest form.
From what is written for the arcs of an object identifier the arcs are found again, and the first
two of them from the number that they share. -/
theorem encoding_canonical :
    (∀ t : Tree, t.Encodable → ∀ rest, Tree.read (t.encode ++ rest) = some (t, rest)) ∧
    (∀ (b : Bytes) (t : Tree) (rest : Bytes),
      Tree.read b = some (t, rest) → b = t.encode ++ rest) ∧
    (∀ t t' : Tree, t.Encodable → t'.Encodable → t.encode <+: t'.encode → t = t') ∧
    (∀ n < 2 ^ 64, IsLength (lengthOctets n) n ∧
      ∀ octets, IsLength octets n → (lengthOctets n).length ≤ octets.length) ∧
    (∀ n, IsBase128 (ObjectIdentifier.base128 n) n ∧
      ∀ octets, IsBase128 octets n → (ObjectIdentifier.base128 n).length ≤ octets.length) ∧
    (∀ (arcs : List UInt32) (id : ObjectIdentifier), ObjectIdentifier.ofArcs arcs = .ok id →
      id.arcs = arcs ∧ ObjectIdentifier.ofContents id.contents = some id ∧
        ObjectIdentifier.firstArcs (40 * id.first.toNat + id.second.toNat) =
          (id.first.toNat, id.second.toNat)) :=
  ⟨fun _ encodable => Tree.read_encode encodable,
    fun _ _ _ => Tree.eq_encode_of_read,
    fun _ _ => Tree.Encodable.eq_of_prefix,
    fun _ bounded => ⟨isLength_lengthOctets bounded, fun _ => length_lengthOctets_le⟩,
    fun n => ⟨isBase128_base128 n, fun _ => length_base128_le⟩,
    fun _ id made => ⟨ObjectIdentifier.ofArcs_eq_ok_iff.mp made, id.ofContents_contents,
      id.firstArcs_shared⟩⟩

/-- A sequence of an object identifier under the third branch of the root, of nothing under an
explicit tag, and of an octet string; an octet string follows. -/
theorem encoding_canonical_nested :
    ∃ id t, ObjectIdentifier.ofArcs [2, 999] = .ok id ∧
      t = Tree.sequence [.objectIdentifier id, .explicit 30 .null, .octetString [0xC0]] ∧
      t.encode = [0x30, 0x0B, 0x06, 0x02, 0x88, 0x37, 0xBE, 0x02, 0x05, 0x00, 0x04, 0x01, 0xC0] ∧
      Tree.read [0x30, 0x0B, 0x06, 0x02, 0x88, 0x37, 0xBE, 0x02, 0x05, 0x00, 0x04, 0x01, 0xC0, 0x04,
        0x00] = some (t, [0x04, 0x00]) := by
  let id : ObjectIdentifier := ⟨2, 999, [], by decide, by decide⟩
  let t := Tree.sequence [.objectIdentifier id, .explicit 30 .null, .octetString [0xC0]]
  have written : t.encode =
      [0x30, 0x0B, 0x06, 0x02, 0x88, 0x37, 0xBE, 0x02, 0x05, 0x00, 0x04, 0x01, 0xC0] := by
    decide +kernel
  have encodable : t.Encodable := by
    refine .sequence ?_ (by decide +kernel)
    intro part member
    simp only [List.mem_cons, List.not_mem_nil, or_false] at member
    rcases member with rfl | rfl | rfl
    · exact .objectIdentifier (by decide +kernel)
    · exact .explicit .null (by decide) (by decide +kernel)
    · exact .octetString (by decide)
  have same := encoding_canonical.1 t encodable [0x04, 0x00]
  rw [written] at same
  exact ⟨id, t, rfl, rfl, written, same⟩

end Der

end PublicKeyCrypto
