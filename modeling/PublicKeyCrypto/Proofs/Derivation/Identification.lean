import PublicKeyCrypto.Proofs.Bytes
import PublicKeyCrypto.Proofs.Der.Reader
import PublicKeyCrypto.Proofs.Derivation.Stream
import Mathlib

/-!
# What a key-encryption key was derived from

A key-encryption key is the beginning of a sequence of digests.  What is digested is the secret and
a description, and the two are joined without any mark between them.  With secrets of one length the
join is found again, and the description says itself what its parts are: it is an encoding that can
be read.  So no two derivations have a block in common, unless they agree in everything and the
block has the same number in both.

There is one point at which this could go wrong.  The party information is optional and stands
between two other parts.  It is told apart by its tag, so that it cannot be taken for the key size
behind it, and party information that is empty is not party information that is absent.

Both generators write one description, with different parameters of the algorithm
(`KeyEncryptionInput.description`).  RFC 2631 puts the counter there; RFC 3278 puts nothing there,
and the counter has its place in front of the description.

## Main Definitions

* `Der.Tree.Numbered` — trees whose tag numbers can be written
* `KeyEncryptionInput.description` — the description as a tree
* `KeyEncryptionInput.dhBlock`, `KeyEncryptionInput.ecdhBlock` — what is digested

## Main Results

* `Der.Tree.Numbered.encode_inj` — trees with one encoding are the same
* `KeyEncryptionInput.description_inj` — a description determines its parts
* `blocks_identify_derivation` — a block determines the derivation and its own number
-/

namespace PublicKeyCrypto

/-- Words are found again in their bytes. -/
theorem Bytes.value_ofWord32 (w : UInt32) : value (ofWord32 w) = w.toNat := by
  rw [← UInt32.ofNat_toNat (x := w), ofWord32_ofNat, UInt32.ofNat_toNat]
  exact value_wide_of_lt w.toNat_lt

@[simp] theorem Bytes.ofWord32_inj {v w : UInt32} : ofWord32 v = ofWord32 w ↔ v = w := by
  refine ⟨fun same => UInt32.toNat_inj.mp ?_, congrArg ofWord32⟩
  rw [← value_ofWord32, ← value_ofWord32, same]

namespace Der.Tree

/-! ## Encodings of one length bound -/

/-- Every tag number is at most 30. -/
inductive Numbered : Tree → Prop
  | sequence {items : List Tree} (parts : ∀ t ∈ items, Numbered t) : Numbered (sequence items)
  | octetString (data : Bytes) : Numbered (octetString data)
  | null : Numbered null
  | explicit {number : UInt8} {inner : Tree} (part : Numbered inner) (small : number ≤ 30) :
      Numbered (explicit number inner)
  | objectIdentifier (id : ObjectIdentifier) : Numbered (objectIdentifier id)

/-- The contents are shorter than the encoding. -/
theorem length_contents_lt (t : Tree) : t.contents.length < t.encode.length := by
  rw [encode_eq_tagged, tagged, List.length_append, List.length_cons]
  omega

/-- A part of a sequence is not longer than the contents. -/
theorem length_encode_le {items : List Tree} {t : Tree} (member : t ∈ items) :
    t.encode.length ≤ (encodeAll items).flatten.length := by
  induction items with
  | nil => cases member
  | cons first rest ih =>
      rw [encodeAll, List.flatten_cons, List.length_append]
      rcases List.mem_cons.mp member with rfl | later
      · exact Nat.le_add_right _ _
      · exact (ih later).trans (Nat.le_add_left _ _)

/-- If the whole encoding is short, then so is every part of it. -/
theorem Numbered.encodable {t : Tree} (numbered : t.Numbered) (short : t.encode.length < 2 ^ 64) :
    t.Encodable := by
  have contents := t.length_contents_lt.trans short
  induction numbered with
  | sequence parts ih =>
      refine .sequence (fun t member => ?_) contents
      have part := (length_encode_le member).trans_lt contents
      exact ih t member part (t.length_contents_lt.trans part)
  | octetString data => exact .octetString contents
  | null => exact .null
  | explicit part small ih =>
      exact .explicit (ih contents ((length_contents_lt _).trans contents)) small contents
  | objectIdentifier id => exact .objectIdentifier contents

/-- **Trees with one encoding** are the same. -/
theorem Numbered.encode_inj {t t' : Tree} (numbered : t.Numbered) (numbered' : t'.Numbered)
    (short : t.encode.length < 2 ^ 64) (same : t.encode = t'.encode) : t = t' :=
  Encodable.eq_of_prefix (numbered.encodable short) (numbered'.encodable (same ▸ short))
    (same ▸ List.prefix_rfl)

end Der.Tree

namespace KeyEncryptionInput

/-! ## The description -/

/-- The description with the given parameters of the algorithm. -/
def description (i : KeyEncryptionInput) (parameters : Der.Tree) : Der.Tree :=
  .sequence (.sequence [.objectIdentifier i.algorithm, parameters] :: i.useInfo)

theorem otherInfo_eq (i : KeyEncryptionInput) (counter : UInt32) :
    i.otherInfo counter = (i.description (.octetString (Bytes.ofWord32 counter))).encode := rfl

theorem sharedInfo_eq (i : KeyEncryptionInput) : i.sharedInfo = (i.description .null).encode := rfl

theorem numbered_description (i : KeyEncryptionInput) {parameters : Der.Tree}
    (numbered : parameters.Numbered) : (i.description parameters).Numbered := by
  have keyInfo : ∀ t ∈ [Der.Tree.objectIdentifier i.algorithm, parameters], t.Numbered := by
    simpa using ⟨.objectIdentifier _, numbered⟩
  have useInfo : ∀ t ∈ i.useInfo, t.Numbered := by
    rw [useInfo]
    cases i.party <;> simp [Der.Tree.Numbered.explicit, Der.Tree.Numbered.octetString]
  exact .sequence (List.forall_mem_cons.mpr ⟨.sequence keyInfo, useInfo⟩)

/-- The party information and the key size are told apart by their tags. -/
theorem useInfo_inj {i i' : KeyEncryptionInput} (same : i.useInfo = i'.useInfo) :
    i.party = i'.party ∧ i.keySize = i'.keySize := by
  obtain ⟨_, keySize, _, party⟩ := i
  obtain ⟨_, keySize', _, party'⟩ := i'
  cases party with
  | none =>
      cases party' with
      | none => simpa [useInfo] using same
      | some info' => simp [useInfo] at same
  | some info =>
      cases party' with
      | none => simp [useInfo] at same
      | some info' => simpa [useInfo] using same

/-- **A description determines its parts.** -/
theorem description_inj {i i' : KeyEncryptionInput} {parameters parameters' : Der.Tree}
    (same : i.description parameters = i'.description parameters') :
    i.algorithm = i'.algorithm ∧ parameters = parameters' ∧ i.party = i'.party ∧
      i.keySize = i'.keySize := by
  obtain ⟨keyInfo, useInfo⟩ := List.cons.inj (Der.Tree.sequence.inj same)
  obtain ⟨algorithm, rest⟩ := List.cons.inj (Der.Tree.sequence.inj keyInfo)
  exact ⟨Der.Tree.objectIdentifier.inj algorithm, (List.cons.inj rest).1, useInfo_inj useInfo⟩

/-- Descriptions with one encoding have the same parts. -/
theorem encode_description_inj {i i' : KeyEncryptionInput} {parameters parameters' : Der.Tree}
    (numbered : parameters.Numbered) (numbered' : parameters'.Numbered)
    (short : (i.description parameters).encode.length < 2 ^ 64)
    (same : (i.description parameters).encode = (i'.description parameters').encode) :
    i.algorithm = i'.algorithm ∧ parameters = parameters' ∧ i.party = i'.party ∧
      i.keySize = i'.keySize :=
  description_inj ((i.numbered_description numbered).encode_inj (i'.numbered_description numbered')
    short same)

/-! ## Blocks -/

/-- What the generator of RFC 2631 digests for a block, the blocks being numbered from zero. -/
def dhBlock (i : KeyEncryptionInput) (k : ℕ) : Bytes :=
  i.shared ++ i.otherInfo (UInt32.ofNat (1 + k))

/-- What the generator of RFC 3278 digests for a block, the blocks being numbered from zero. -/
def ecdhBlock (i : KeyEncryptionInput) (k : ℕ) : Bytes :=
  i.shared ++ Bytes.ofWord32 (UInt32.ofNat (1 + k)) ++ i.sharedInfo

/-- The counters of all blocks that are allowed are different. -/
theorem counter_inj {k k' : ℕ} (hk : k < 2 ^ 32 - 1) (hk' : k' < 2 ^ 32 - 1)
    (same : UInt32.ofNat (1 + k) = UInt32.ofNat (1 + k')) : k = k' := by
  have numbers := congrArg UInt32.toNat same
  rw [UInt32.toNat_ofNat_of_lt' (show 1 + k < 2 ^ 32 by omega),
    UInt32.toNat_ofNat_of_lt' (show 1 + k' < 2 ^ 32 by omega)] at numbers
  omega

variable {i i' : KeyEncryptionInput} {k k' : ℕ}

/-- Blocks of RFC 2631: behind the secret stands the description, which holds the counter. -/
theorem dhBlock_inj (secrets : i.shared.length = i'.shared.length) (hk : k < 2 ^ 32 - 1)
    (hk' : k' < 2 ^ 32 - 1) (short : (i.otherInfo (UInt32.ofNat (1 + k))).length < 2 ^ 64)
    (same : i.dhBlock k = i'.dhBlock k') : i = i' ∧ k = k' := by
  obtain ⟨shared, info⟩ := List.append_inj same secrets
  rw [otherInfo_eq] at short
  rw [otherInfo_eq, otherInfo_eq] at info
  obtain ⟨algorithm, parameters, party, keySize⟩ :=
    encode_description_inj (.octetString _) (.octetString _) short info
  have counters := Bytes.ofWord32_inj.mp (Der.Tree.octetString.inj parameters)
  obtain ⟨_, _, _, _⟩ := i
  obtain ⟨_, _, _, _⟩ := i'
  subst algorithm keySize shared party
  exact ⟨rfl, counter_inj hk hk' counters⟩

/-- Blocks of RFC 3278: behind the secret stand the four bytes of the counter. -/
theorem ecdhBlock_inj (secrets : i.shared.length = i'.shared.length) (hk : k < 2 ^ 32 - 1)
    (hk' : k' < 2 ^ 32 - 1) (short : i.sharedInfo.length < 2 ^ 64)
    (same : i.ecdhBlock k = i'.ecdhBlock k') : i = i' ∧ k = k' := by
  have front : (i.shared ++ Bytes.ofWord32 (UInt32.ofNat (1 + k))).length =
      (i'.shared ++ Bytes.ofWord32 (UInt32.ofNat (1 + k'))).length := by
    rw [List.length_append, List.length_append, secrets, Bytes.length_ofWord32,
      Bytes.length_ofWord32]
  obtain ⟨front, info⟩ := List.append_inj same front
  rw [sharedInfo_eq] at short
  rw [sharedInfo_eq, sharedInfo_eq] at info
  obtain ⟨shared, counters⟩ := List.append_inj front secrets
  obtain ⟨algorithm, -, party, keySize⟩ := encode_description_inj .null .null short info
  obtain ⟨_, _, _, _⟩ := i
  obtain ⟨_, _, _, _⟩ := i'
  subst algorithm keySize shared party
  exact ⟨rfl, counter_inj hk hk' (Bytes.ofWord32_inj.mp counters)⟩

end KeyEncryptionInput

/-- The generator of RFC 2631 gives the beginning of the digests of its blocks. -/
theorem DhKeyEncryption.generate_eq_take (d : DhKeyEncryption) (i : KeyEncryptionInput) {len : ℕ}
    (limit : len ≤ (2 ^ 32 - 1) * d.hash.size) :
    (d.init i).generate len = .ok ((d.hash.stream i.dhBlock).take len) := by
  have blocks : i.dhBlock = fun k => i.shared ++ i.otherInfo (1 + UInt32.ofNat k) := by
    funext k
    rw [KeyEncryptionInput.dhBlock, UInt32.ofNat_add]
    rfl
  rw [blocks]
  exact counterBytes_eq_take limit

/-- The generator of RFC 3278 gives the beginning of the digests of its blocks. -/
theorem EcdhKeyEncryption.generate_eq_take (d : EcdhKeyEncryption) (i : KeyEncryptionInput)
    {len : ℕ} (limit : len ≤ (2 ^ 32 - 1) * d.hash.size) :
    (d.init i).generate len = .ok ((d.hash.stream i.ecdhBlock).take len) := by
  have blocks : i.ecdhBlock = fun k =>
      i.shared ++ Bytes.ofWord32 (1 + UInt32.ofNat k) ++ i.sharedInfo := by
    funext k
    rw [KeyEncryptionInput.ecdhBlock, UInt32.ofNat_add]
    rfl
  rw [blocks]
  exact counterBytes_eq_take limit

/-- **A block determines the derivation.**  Each of the two generators gives the beginning of the
digests of its blocks.  Two blocks of one generator, from inputs whose secrets have one length, are
the same string exactly if the inputs agree in the secret, the algorithm, the key size and the party
information, absent or present, and the blocks have the same number.

The numbers are those of blocks that a generator can be asked for, and the length of the description
fits a word of 64 bits. -/
theorem blocks_identify_derivation :
    (∀ (d : DhKeyEncryption) (i : KeyEncryptionInput), ∀ len ≤ (2 ^ 32 - 1) * d.hash.size,
      (d.init i).generate len = .ok ((d.hash.stream i.dhBlock).take len)) ∧
    (∀ (d : EcdhKeyEncryption) (i : KeyEncryptionInput), ∀ len ≤ (2 ^ 32 - 1) * d.hash.size,
      (d.init i).generate len = .ok ((d.hash.stream i.ecdhBlock).take len)) ∧
    ∀ (i i' : KeyEncryptionInput) (k k' : ℕ), i.shared.length = i'.shared.length →
      k < 2 ^ 32 - 1 → k' < 2 ^ 32 - 1 →
      ((i.otherInfo (UInt32.ofNat (1 + k))).length < 2 ^ 64 →
        (i.dhBlock k = i'.dhBlock k' ↔ i = i' ∧ k = k')) ∧
      (i.sharedInfo.length < 2 ^ 64 →
        (i.ecdhBlock k = i'.ecdhBlock k' ↔ i = i' ∧ k = k')) := by
  refine ⟨fun d i _ limit => d.generate_eq_take i limit,
    fun d i _ limit => d.generate_eq_take i limit,
    fun i i' k k' secrets hk hk' => ⟨fun short => ?_, fun short => ?_⟩⟩
  · refine ⟨KeyEncryptionInput.dhBlock_inj secrets hk hk' short, ?_⟩
    rintro ⟨rfl, rfl⟩
    rfl
  · refine ⟨KeyEncryptionInput.ecdhBlock_inj secrets hk hk' short, ?_⟩
    rintro ⟨rfl, rfl⟩
    rfl

/-- Party information that is empty, with the key wrap of RFC 2631 for keys of 192 bits: the first
blocks differ from those of the same derivation without party information. -/
theorem blocks_identify_derivation_of_empty_party :
    let algorithm : ObjectIdentifier :=
      ⟨1, 2, [840, 113549, 1, 9, 16, 3, 6], by decide, by decide⟩
    let absent : KeyEncryptionInput := ⟨algorithm, 192, [0x0A, 0x0B], none⟩
    let empty : KeyEncryptionInput := ⟨algorithm, 192, [0x0A, 0x0B], some []⟩
    ((absent.otherInfo (UInt32.ofNat (1 + 0))).length < 2 ^ 64 ∧
      absent.dhBlock 0 ≠ empty.dhBlock 0) ∧
    (absent.sharedInfo.length < 2 ^ 64 ∧ absent.ecdhBlock 0 ≠ empty.ecdhBlock 0) := by
  intro algorithm absent empty
  obtain ⟨dh, ecdh⟩ :=
    blocks_identify_derivation.2.2 absent empty 0 0 rfl (by decide) (by decide)
  have parties : ¬(absent = empty ∧ 0 = 0) := by simp [absent, empty]
  have other : (absent.otherInfo (UInt32.ofNat (1 + 0))).length < 2 ^ 64 := by decide +kernel
  have shared : absent.sharedInfo.length < 2 ^ 64 := by decide +kernel
  exact ⟨⟨other, (dh other).not.mpr parties⟩, shared, (ecdh shared).not.mpr parties⟩

end PublicKeyCrypto
