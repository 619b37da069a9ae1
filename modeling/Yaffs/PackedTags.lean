import Yaffs.Evidence
import Yaffs.Run
import Yaffs.TagEcc

/-!
# Packed tags

`yaffs_pack_tags2` and `yaffs_unpack_tags2` : the tags of a yaffs2 page are packed into four words, in
the byte order of the flash, with an ECC over their bytes. The extra fields of a header take the high
bits of the chunk id and of the object id, and the place of the byte count. A record whose sequence
number is all ones is unused, whatever its ECC tells.
-/

namespace Yaffs

open ByteOrder Words

/-! ## The source's functions -/

/-- `yaffs_pack_tags2_tags_only`, in the byte order of the flash. -/
def packWords (swap : Bool) (t : ExtTags) : PackedTags2TagsOnly :=
  let st := packTags2TagsOnly t
  doEndianPackedTags2 swap
    { seqNumber := UInt32.ofNat t.seqNumber
      objId := UInt32.ofNat st.objId
      chunkId := UInt32.ofNat st.chunkId
      nBytes := UInt32.ofNat st.nBytes }

/-- `yaffs_unpack_tags2_tags_only`. -/
def unpackWords (swap : Bool) (ptt : PackedTags2TagsOnly) : ExtTags :=
  if ptt.seqNumber = 0xffffffff then {}
  else
    let ptt := doEndianPackedTags2 swap ptt
    unpackTags2TagsOnly ptt.seqNumber.toNat ⟨ptt.objId.toNat, ptt.chunkId.toNat, ptt.nBytes.toNat⟩

/-- The 16 bytes of the words in the memory of the host `h`. -/
def PackedTags2TagsOnly.data (h : Order) (ptt : PackedTags2TagsOnly) : EccData :=
  fun i => ((inMemory h ptt.items).getD i 0).toBitVec

/-- The words that the host `h` finds in 16 bytes. -/
def PackedTags2TagsOnly.ofData (h : Order) (data : EccData) : PackedTags2TagsOnly :=
  .ofItems (readAs h (PackedTags2TagsOnly.mk 0 0 0 0).items ((List.range 16).map fun i => ⟨data i⟩))

/-- `struct yaffs_packed_tags2` in memory. -/
structure PackedRecord where
  t : EccData
  ecc : OtherEcc

/-- `yaffs_pack_tags2`; without `tags_ecc` the ECC stays as it is in `ecc`. -/
def packTags2 (h : Order) (swap tagsEcc : Bool) (ecc : OtherEcc) (t : ExtTags) : PackedRecord :=
  let data := (packWords swap t).data h
  ⟨data, if tagsEcc then eccCalcOther data 16#32 else ecc⟩

/-- What `yaffs_unpack_tags2` makes of the result of the correction. -/
def eccResultOf (result : ℤ) : EccResult :=
  if result = 0 then .noError
  else if result = 1 then .fixed
  else if result = -1 then .unfixed
  else .unknown

/-- `yaffs_unpack_tags2`, with `ecc_result`. -/
def unpackTags2 (h : Order) (swap tagsEcc : Bool) (pt : PackedRecord) : ExtTags × EccResult :=
  if (PackedTags2TagsOnly.ofData h pt.t).seqNumber ≠ 0xffffffff ∧ tagsEcc then
    let r := eccCheckOther pt.t 16#32 pt.ecc
    (unpackWords swap (.ofData h r.data), eccResultOf r.result)
  else (unpackWords swap (.ofData h pt.t), .noError)

/-! ## Words in memory -/

section

variable {h : Order} {swap tagsEcc : Bool} {ecc : OtherEcc} {t : ExtTags} {ptt : PackedTags2TagsOnly}

theorem inMemory_items_length (h : Order) (ptt : PackedTags2TagsOnly) : (inMemory h ptt.items).length = 16 := by
  simp only [PackedTags2TagsOnly.items, inMemory_cons, List.length_append, Item.inMemory_length]
  rfl

/-- Words are found as they were put. -/
theorem ofData_data (h : Order) (ptt : PackedTags2TagsOnly) : .ofData h (ptt.data h) = ptt := by
  have hlen := inMemory_items_length h ptt
  have hbytes : ((List.range 16).map fun i => (⟨ptt.data h i⟩ : UInt8)) = inMemory h ptt.items := by
    refine List.ext_getElem (by rw [hlen]; rfl) fun i _ hi => ?_
    rw [List.getElem_map, List.getElem_range]
    unfold PackedTags2TagsOnly.data
    rw [List.getD_eq_getElem _ _ hi]
  have hlayout : SameLayout (PackedTags2TagsOnly.mk 0 0 0 0).items ptt.items :=
    .cons (.word _ _) (.cons (.word _ _) (.cons (.word _ _) (.cons (.word _ _) .nil)))
  have hread := readAs_inMemory h hlayout []
  rw [List.append_nil] at hread
  unfold PackedTags2TagsOnly.ofData
  rw [hbytes, hread]
  rfl

theorem packedTags2_doEndian (swap : Bool) (ptt : PackedTags2TagsOnly) :
    doEndianPackedTags2 swap (doEndianPackedTags2 swap ptt) = ptt := by
  cases swap
  · rfl
  · simp [doEndianPackedTags2, swap32_swap32]

/-- A word of ones is one in either byte order. -/
theorem doEndian_seqNumber (swap : Bool) (ptt : PackedTags2TagsOnly) :
    (doEndianPackedTags2 swap ptt).seqNumber = 0xffffffff ↔ ptt.seqNumber = 0xffffffff := by
  cases swap
  · rfl
  · have hones : swap32 0xffffffff = 0xffffffff := by decide
    refine ⟨fun heq => ?_, fun heq => ?_⟩
    · rw [← swap32_swap32 ptt.seqNumber]
      exact (congrArg swap32 heq).trans hones
    · exact (congrArg swap32 heq).trans hones

/-- What is unpacked of packed tags, as the scan reads tags back. -/
theorem unpackWords_packWords (swap : Bool) (t : ExtTags) :
    unpackWords swap (packWords swap t) = t.readBack (t.seqNumber % 2 ^ 32) := by
  have hseq : (UInt32.ofNat t.seqNumber).toNat = t.seqNumber % 2 ^ 32 := UInt32.toNat_ofNat'
  unfold unpackWords packWords
  dsimp only
  rw [packedTags2_doEndian]
  dsimp only
  rw [hseq, UInt32.toNat_ofNat', UInt32.toNat_ofNat', UInt32.toNat_ofNat']
  split
  · rename_i hones
    have hlast := hseq.symm.trans (congrArg UInt32.toNat ((doEndian_seqNumber swap _).mp hones))
    rw [hlast]
    rfl
  · rfl

theorem unpackTags2_packTags2 (h : Order) (swap tagsEcc : Bool) (ecc : OtherEcc) (t : ExtTags) :
    unpackTags2 h swap tagsEcc (packTags2 h swap tagsEcc ecc t) = (t.readBack (t.seqNumber % 2 ^ 32), .noError) := by
  unfold unpackTags2 packTags2
  dsimp only
  split
  · rename_i hused
    rw [if_pos hused.2, eccCheckOther_calc, ofData_data, unpackWords_packWords]
    rfl
  · rw [ofData_data, unpackWords_packWords]

/-! ## Flipped bits of a record -/

/-- Flip bit `k` of byte `i` of the tags. -/
def PackedRecord.flip (pt : PackedRecord) (i k : ℕ) : PackedRecord :=
  ⟨pt.t.flip i k, pt.ecc⟩

/-- The tags of the record are unused. -/
def PackedRecord.isUnused (h : Order) (pt : PackedRecord) : Prop :=
  (PackedTags2TagsOnly.ofData h pt.t).seqNumber = 0xffffffff

/-- The record is unpacked as if no bit was flipped, and reported as fixed, unless it became one of
unused tags. -/
theorem unpackTags2_flip_iff (h : Order) (swap : Bool) (ecc : OtherEcc) (t : ExtTags) {i : ℕ} (hi : i < 16)
    (k : Fin 8) :
    unpackTags2 h swap true ((packTags2 h swap true ecc t).flip i k) =
        ((unpackTags2 h swap true (packTags2 h swap true ecc t)).1, .fixed) ↔
      ¬((packTags2 h swap true ecc t).flip i k).isUnused h := by
  constructor
  · intro heq hunused
    have hresult := congrArg Prod.snd heq
    rw [unpackTags2, if_neg fun hused => hused.1 hunused] at hresult
    cases hresult
  · intro hused
    rw [unpackTags2_packTags2]
    unfold unpackTags2
    rw [if_pos ⟨hused, rfl⟩]
    unfold PackedRecord.flip packTags2
    dsimp only
    rw [if_pos rfl, eccCheckOther_flip (n := 16#32) hi, ofData_data, unpackWords_packWords]
    rfl

/-- One flipped bit of the data or of the ECC is corrected, two of the data are reported, the bytes behind
the data are left alone, and so a flipped bit of packed tags is corrected but where it makes them unused
ones. -/
theorem tagEcc_spec :
    (∀ (data : EccData) (n : BitVec 32) (i : ℕ) (k : Fin 8), i < n.toNat →
      eccCheckOther (data.flip i k) n (eccCalcOther data n) = ⟨data, eccCalcOther data n, 1⟩) ∧
    (∀ (data : EccData) (n : BitVec 32) (p : OtherBit),
      eccCheckOther data n ((eccCalcOther data n).flip p) = ⟨data, eccCalcOther data n, 1⟩) ∧
    (∀ (data : EccData) (n : BitVec 32) (i i' : ℕ) (k k' : Fin 8), i < n.toNat → i' < n.toNat →
      (i ≠ i' ∨ k ≠ k') → eccCheckOther ((data.flip i k).flip i' k') n (eccCalcOther data n) =
        ⟨(data.flip i k).flip i' k', eccCalcOther data n, -1⟩) ∧
    (∀ (data : EccData) (n : BitVec 32) (readEcc testEcc : OtherEcc) (j : ℕ), n.toNat ≤ j →
      (eccCorrectOther data n readEcc testEcc).data j = data j) ∧
    ∀ (h : Order) (swap : Bool) (ecc : OtherEcc) (t : ExtTags) (i : ℕ) (k : Fin 8), i < 16 →
      (unpackTags2 h swap true ((packTags2 h swap true ecc t).flip i k) =
          ((unpackTags2 h swap true (packTags2 h swap true ecc t)).1, .fixed) ↔
        ¬((packTags2 h swap true ecc t).flip i k).isUnused h) :=
  ⟨fun data _ _ k hi => eccCheckOther_flip hi data k, eccCheckOther_flip_ecc,
    fun data _ _ _ _ _ hi hi' hne => eccCheckOther_flip_two hi hi' hne data,
    fun data n readEcc testEcc _ hj => eccCorrectOther_behind data n readEcc testEcc hj,
    fun h swap ecc t _ k hi => unpackTags2_flip_iff h swap ecc t hi k⟩

/-- Tags of a chunk whose block has the sequence number `0x7fffffff`. -/
def halfTags : ExtTags :=
  { chunkUsed := true, objId := 257, chunkId := 1, nBytes := 512, seqNumber := 0x7fffffff }

/-- Their record, on a little-endian host that does not swap. -/
def halfRecord : PackedRecord :=
  packTags2 .little false true ⟨0#8, 0#32, 0#32⟩ halfTags

/-- Two bits of a word of zeros, and one of the object id. -/
theorem tagEcc_spec_half :
    (eccCheckOther ((EccData.flip (fun _ => 0#8) 1 3).flip 2 5) 4#32 (eccCalcOther (fun _ => 0#8) 4#32)).result = -1 ∧
      (unpackTags2 .little false true (halfRecord.flip 4 1)).2 = .fixed := by
  have hused : ¬(halfRecord.flip 4 1).isUnused .little := by
    unfold PackedRecord.isUnused
    decide +kernel
  have htwo := tagEcc_spec.2.2.1 (fun _ => 0#8) 4#32 1 2 3 5 (by decide) (by decide) (by decide)
  have hflip := (tagEcc_spec.2.2.2.2 .little false ⟨0#8, 0#32, 0#32⟩ halfTags 4 1 (by decide)).mpr hused
  exact ⟨congrArg OtherResult.result htwo, congrArg Prod.snd hflip⟩

/-- With the highest bit of their sequence number flipped they are taken for unused ones. -/
theorem halfTags_unused : ¬∀ (h : Order) (swap : Bool) (ecc : OtherEcc) (t : ExtTags) (i : ℕ) (k : Fin 8), i < 16 →
    unpackTags2 h swap true ((packTags2 h swap true ecc t).flip i k) =
      ((unpackTags2 h swap true (packTags2 h swap true ecc t)).1, .fixed) := by
  intro hall
  have hunused : (halfRecord.flip 3 7).isUnused .little := by
    unfold PackedRecord.isUnused
    decide +kernel
  have hflip := hall .little false ⟨0#8, 0#32, 0#32⟩ halfTags 3 7 (by decide)
  exact (unpackTags2_flip_iff .little false ⟨0#8, 0#32, 0#32⟩ halfTags (by decide) 7).mp hflip hunused

end

/-! ## The tags the core writes -/

/-- The tags that are composed for a page. The number of a parent that is an object of the device fits
its field. -/
inductive Composed : ExtTags → Prop
  /-- by `yaffs_wr_data_obj` -/
  | data {o k n : ℕ} : o ≤ maxObjectId → k ≤ maxChunkId → n < 2 ^ 32 → Composed (dataTags o k n)
  /-- by `yaffs_update_oh` -/
  | hdr (buf : HdrWords) {o : ℕ} {f : HdrFacts} : o ≤ maxObjectId → f.parentObjId ≤ maxObjectId →
      Composed (updateOhTags o f (updateOhWords buf f))
  /-- by `yaffs_summary_write` -/
  | summary {k n : ℕ} : k ≤ maxChunkId → n < 2 ^ 32 →
      Composed { objId := objectIdSummary, chunkId := k, nBytes := n }
  /-- by gc, of the tags it reads of a chunk of a file in a block of the sequence number `seq` -/
  | gcData {t : ExtTags} {seq : ℕ} : Composed t → t.chunkId ≠ 0 → seq ≠ 0xffffffff → Composed (t.readBack seq)
  /-- by gc, of those of a header -/
  | gcHdr {t : ExtTags} {seq : ℕ} (fileSize : Option ℕ) : Composed t → t.chunkId = 0 → seq ≠ 0xffffffff →
      Composed (gcHdrTags fileSize (t.readBack seq))

/-- The tags that the driver is given. -/
inductive WrittenTags (p : Param) : ExtTags → Prop
  /-- by `yaffs_wr_chunk_tags_nand` -/
  | stamped {t : ExtTags} (d : BlockDev) : Composed t → WrittenTags p (stampTags d t)
  /-- by `yaffs2_checkpt_flush_buffer`, with any other fields -/
  | checkpt (t : ExtTags) {cp : CheckptCursor} : cp.nextBlock.getD (2 ^ 32 - 1) < 2 ^ 32 →
      cp.pageSeq + 1 ≤ maxChunkId → p.dataBytesPerChunk < 2 ^ 32 → WrittenTags p (checkptTags p t cp)

/-- Each field of the tags fits its place in the record. -/
structure ExtTags.Fits (t : ExtTags) : Prop where
  objId_lt : t.objId < 2 ^ 32
  chunkId_lt : t.chunkId < 2 ^ 31
  nBytes_lt : t.nBytes < 2 ^ 32
  hdr_objId_lt : t.extraPackable = true → t.objId < 2 ^ 28
  hdr_nBytes : t.extraPackable = true → t.nBytes = 0
  parent_lt : t.extraPackable = true → t.extraParentId < 2 ^ 28
  type_lt : t.extraPackable = true → t.extraObjType.toNat < 6
  ofStored_type : t.extraPackable = true → ObjType.ofStored t.extraObjType.toNat = t.extraObjType
  equiv_lt : t.extraPackable = true → t.extraObjType = .hardlink → t.extraEquivId < 2 ^ 32

/-- What is read of the tags `t` is what was written, with the extra fields where they fit. -/
structure ExtTags.ReadAs (t r : ExtTags) : Prop where
  chunkUsed : r.chunkUsed = true
  objId : r.objId = t.objId
  chunkId : r.chunkId = t.chunkId
  nBytes : r.nBytes = t.nBytes
  seqNumber : r.seqNumber = t.seqNumber
  extraAvailable : r.extraAvailable = true ↔
    t.chunkId = 0 ∧ t.extraAvailable = true ∧ (t.extraObjType = .file → t.extraFileSize < 2 ^ 31)
  parent : r.extraAvailable = true → r.extraParentId = t.extraParentId
  isShrink : r.extraAvailable = true → r.extraIsShrink = t.extraIsShrink
  shadows : r.extraAvailable = true → r.extraShadows = t.extraShadows
  type : r.extraAvailable = true → r.extraObjType = t.extraObjType
  size : r.extraAvailable = true → t.extraObjType = .file → r.extraFileSize = t.extraFileSize
  equiv : r.extraAvailable = true → t.extraObjType = .hardlink → r.extraEquivId = t.extraEquivId

section

variable {t : ExtTags} {seq : ℕ}

/-- `yaffs_check_tags_extra_packable`, in words. -/
theorem extraPackable_iff : t.extraPackable = true ↔
    t.chunkId = 0 ∧ t.extraAvailable = true ∧ (t.extraObjType = .file → t.extraFileSize < 2 ^ 31) := by
  have hsize : (t.extraFileSize >>> 31 != 0) = false ↔ t.extraFileSize < 2 ^ 31 := by
    rw [bne_eq_false_iff_eq, Nat.shiftRight_eq_div_pow]
    omega
  unfold ExtTags.extraPackable
  simp only [Bool.and_eq_true, decide_eq_true_eq, Bool.not_eq_true', Bool.and_eq_false_iff, decide_eq_false_iff_not,
    hsize, and_assoc]
  refine and_congr_right fun _ => and_congr_right fun _ => ?_
  rw [← imp_iff_not_or]

/-- The object id and the byte count of packed extra tags. -/
theorem readBack_packed_objId (hpack : t.extraPackable = true) (hobj : t.objId < 2 ^ 28)
    (hseq : seq ≠ 0xffffffff) :
    (t.readBack seq).chunkUsed = true ∧ (t.readBack seq).objId = t.objId ∧ (t.readBack seq).nBytes = 0 ∧
      (t.readBack seq).seqNumber = seq := by
  have hflag : (packTags2TagsOnly t).stored.chunkId &&& 0x80000000 ≠ 0 := by
    unfold packTags2TagsOnly SummaryTags.stored
    rw [if_pos hpack]
    exact infoFlag_ne_zero _ _ _
  have hid : (packTags2TagsOnly t).stored.objId &&& 0x0fffffff = t.objId := by
    have hmask : ∀ n : ℕ, n &&& 0x0fffffff = n % 2 ^ 28 := fun n => Nat.and_two_pow_sub_one_eq_mod n 28
    unfold packTags2TagsOnly SummaryTags.stored
    rw [if_pos hpack]
    dsimp only
    rw [hmask, hmask, Nat.shiftLeft_eq, Nat.or_comm, Nat.mul_comm, or_flags (Nat.mod_lt _ (by decide))]
    omega
  unfold ExtTags.readBack unpackTags2TagsOnly
  rw [if_neg hseq, if_pos hflag]
  exact ⟨rfl, hid, rfl, rfl⟩

/-- Tags without extra fields are read back word for word. -/
theorem readBack_words (h : t.Fits) (hpack : t.extraPackable = false) (hseq : seq ≠ 0xffffffff) :
    t.readBack seq =
      { chunkUsed := true, objId := t.objId, chunkId := t.chunkId, nBytes := t.nBytes, seqNumber := seq } := by
  have hflag : t.chunkId &&& 0x80000000 = 0 := by
    have hbit : t.chunkId.testBit 31 = false := Nat.testBit_lt_two_pow h.chunkId_lt
    have hand := Nat.two_pow_and t.chunkId 31
    rw [Nat.and_comm, hbit] at hand
    simpa using hand
  have hobj := h.objId_lt
  have hchunk := h.chunkId_lt
  have hbytes := h.nBytes_lt
  have hpacked : (packTags2TagsOnly t).stored = ⟨t.objId, t.chunkId, t.nBytes⟩ := by
    unfold packTags2TagsOnly SummaryTags.stored
    rw [hpack, if_neg (by decide)]
    simp only [SummaryTags.mk.injEq]
    omega
  rw [ExtTags.readBack, hpacked, unpackTags2TagsOnly, if_neg hseq, if_neg (not_not.mpr hflag)]

/-- Tags that fit the record are read as they were written. -/
theorem ExtTags.Fits.readAs (h : t.Fits) (hseq : t.seqNumber ≠ 0xffffffff) :
    t.ReadAs (t.readBack t.seqNumber) := by
  cases hpack : t.extraPackable with
  | false =>
    have hnot : ¬(t.chunkId = 0 ∧ t.extraAvailable = true ∧ (t.extraObjType = .file → t.extraFileSize < 2 ^ 31)) :=
      fun hand => absurd (extraPackable_iff.mpr hand) (by rw [hpack]; decide)
    rw [readBack_words h hpack hseq]
    exact
      { chunkUsed := rfl
        objId := rfl
        chunkId := rfl
        nBytes := rfl
        seqNumber := rfl
        extraAvailable := ⟨fun hfalse => absurd hfalse Bool.false_ne_true, fun hand => absurd hand hnot⟩
        parent := fun hfalse => absurd hfalse Bool.false_ne_true
        isShrink := fun hfalse => absurd hfalse Bool.false_ne_true
        shadows := fun hfalse => absurd hfalse Bool.false_ne_true
        type := fun hfalse => absurd hfalse Bool.false_ne_true
        size := fun hfalse => absurd hfalse Bool.false_ne_true
        equiv := fun hfalse => absurd hfalse Bool.false_ne_true }
  | true =>
    obtain ⟨havail, hparent, hshrink, hshadows, htype, hsize, hequiv⟩ :=
      readBack_packed hpack (h.parent_lt hpack) (h.type_lt hpack) (h.ofStored_type hpack) hseq
    obtain ⟨hused, hobj, hbytes, hnumber⟩ := readBack_packed_objId hpack (h.hdr_objId_lt hpack) hseq
    have hand := extraPackable_iff.mp hpack
    exact
      { chunkUsed := hused
        objId := hobj
        chunkId := (readBack_packed_chunkId hpack).trans hand.1.symm
        nBytes := hbytes.trans (h.hdr_nBytes hpack).symm
        seqNumber := hnumber
        extraAvailable := iff_of_true havail hand
        parent := fun _ => hparent
        isShrink := fun _ => hshrink
        shadows := fun _ => hshadows
        type := fun _ => htype
        size := fun _ => hsize
        equiv := fun _ hlink => (hequiv hlink).trans (Nat.mod_eq_of_lt (h.equiv_lt hpack hlink)) }

/-- Tags without extra fields fit if their words do. -/
theorem fits_of_not_packable (hpack : t.extraPackable = false) (hobj : t.objId < 2 ^ 32)
    (hchunk : t.chunkId < 2 ^ 31) (hbytes : t.nBytes < 2 ^ 32) : t.Fits where
  objId_lt := hobj
  chunkId_lt := hchunk
  nBytes_lt := hbytes
  hdr_objId_lt := fun h => absurd (hpack.symm.trans h) Bool.false_ne_true
  hdr_nBytes := fun h => absurd (hpack.symm.trans h) Bool.false_ne_true
  parent_lt := fun h => absurd (hpack.symm.trans h) Bool.false_ne_true
  type_lt := fun h => absurd (hpack.symm.trans h) Bool.false_ne_true
  ofStored_type := fun h => absurd (hpack.symm.trans h) Bool.false_ne_true
  equiv_lt := fun h => absurd (hpack.symm.trans h) Bool.false_ne_true

theorem notPackable_of_chunkId (hchunk : t.chunkId ≠ 0) : t.extraPackable = false := by
  by_contra hpack
  exact hchunk (extraPackable_iff.mp (Bool.eq_true_of_not_eq_false hpack)).1

theorem notPackable_of_extraAvailable (havail : t.extraAvailable = false) : t.extraPackable = false := by
  by_contra hpack
  have htrue := (extraPackable_iff.mp (Bool.eq_true_of_not_eq_false hpack)).2.1
  exact absurd (havail.symm.trans htrue) Bool.false_ne_true

/-- The tags of a header that gc copies fit as those it read did. -/
theorem ExtTags.Fits.gcHdrTags (h : t.Fits) (hseq : seq ≠ 0xffffffff)
    (fileSize : Option ℕ) : (gcHdrTags fileSize (t.readBack seq)).Fits := by
  have hobj := h.objId_lt
  have hbytes := h.nBytes_lt
  cases hpack : t.extraPackable with
  | false =>
    have hwords := readBack_words h hpack hseq
    rw [hwords]
    exact fits_of_not_packable (notPackable_of_extraAvailable rfl) hobj h.chunkId_lt hbytes
  | true =>
    obtain ⟨havail, hparent, -, -, htype, -, hequiv⟩ :=
      readBack_packed hpack (h.parent_lt hpack) (h.type_lt hpack) (h.ofStored_type hpack) hseq
    obtain ⟨-, hid, hzero, -⟩ := readBack_packed_objId hpack (h.hdr_objId_lt hpack) hseq
    have hchunkId := @readBack_packed_chunkId _ seq hpack
    exact
      { objId_lt := lt_of_eq_of_lt hid hobj
        chunkId_lt := lt_of_eq_of_lt hchunkId (by decide)
        nBytes_lt := lt_of_eq_of_lt hzero (by decide)
        hdr_objId_lt := fun _ => lt_of_eq_of_lt hid (h.hdr_objId_lt hpack)
        hdr_nBytes := fun _ => hzero
        parent_lt := fun _ => lt_of_eq_of_lt hparent (h.parent_lt hpack)
        type_lt := fun _ => (congrArg ObjType.toNat htype).trans_lt (h.type_lt hpack)
        ofStored_type := fun _ => by
          change ObjType.ofStored (t.readBack seq).extraObjType.toNat = (t.readBack seq).extraObjType
          rw [htype, h.ofStored_type hpack]
        equiv_lt := fun _ hlink => by
          have hlt := Nat.mod_lt t.extraEquivId (Nat.two_pow_pos 32)
          exact lt_of_eq_of_lt (hequiv (htype.symm.trans hlink)) hlt }

/-- The tags that are composed fit the record. -/
theorem Composed.fits (h : Composed t) : t.Fits := by
  induction h with
  | @data o k n ho hk hn =>
    unfold maxObjectId at ho
    unfold maxChunkId at hk
    exact fits_of_not_packable (notPackable_of_extraAvailable rfl) (show o < _ by omega) (show k < _ by omega) hn
  | @hdr buf o f ho hparent =>
    unfold maxObjectId at ho hparent
    have hw := updateOhWords_tell buf f
    exact
      { objId_lt := show o < _ by omega
        chunkId_lt := Nat.two_pow_pos 31
        nBytes_lt := Nat.two_pow_pos 32
        hdr_objId_lt := fun _ => show o < _ by omega
        hdr_nBytes := fun _ => rfl
        parent_lt := fun _ => lt_of_eq_of_lt hw.parent (by omega)
        type_lt := fun _ => f.type_lt
        ofStored_type := fun _ => f.ofStored_type
        equiv_lt := fun _ _ => (updateOhWords buf f).equivId.toNat_lt }
  | @summary k n hk hn =>
    unfold maxChunkId at hk
    have hid : objectIdSummary < 2 ^ 32 := by decide
    exact fits_of_not_packable (notPackable_of_extraAvailable rfl) hid (show k < _ by omega) hn
  | @gcData t seq _ hchunk hseq ih =>
    rw [readBack_words ih (notPackable_of_chunkId hchunk) hseq]
    exact fits_of_not_packable (notPackable_of_chunkId hchunk) ih.objId_lt ih.chunkId_lt ih.nBytes_lt
  | gcHdr fileSize _ _ hseq ih => exact ih.gcHdrTags hseq fileSize

theorem WrittenTags.fits {p : Param} (h : WrittenTags p t) : t.Fits := by
  cases h with
  | stamped d h =>
    have hfits := h.fits
    exact { hfits with }
  | @checkpt t cp hnext hseq hbytes =>
    unfold maxChunkId at hseq
    exact fits_of_not_packable (notPackable_of_chunkId (Nat.succ_ne_zero cp.pageSeq)) hnext
      (show cp.pageSeq + 1 < _ by omega) hbytes

/-- The tags that the driver is given are read as they were written, in either byte order, with or without
the ECC; those of a chunk of data are not read as those of a header with extra fields. -/
theorem unpackTags2_written {p : Param} (h : Order) (swap tagsEcc : Bool) (ecc : OtherEcc) (ht : WrittenTags p t)
    (hseq : t.seqNumber < 0xffffffff) :
    t.ReadAs (unpackTags2 h swap tagsEcc (packTags2 h swap tagsEcc ecc t)).1 ∧
      (unpackTags2 h swap tagsEcc (packTags2 h swap tagsEcc ecc t)).2 = .noError := by
  have hword : t.seqNumber % 2 ^ 32 = t.seqNumber := Nat.mod_eq_of_lt (by omega)
  rw [unpackTags2_packTags2, hword]
  exact ⟨ht.fits.readAs (by omega), rfl⟩

end

/-- The tags of the header of the new file, object 257, in its first block. -/
def newFileTags : ExtTags :=
  stampTags (blankBlocks sampleGeometry fun _ => false)
    (updateOhTags 257 newFileFacts (updateOhWords wipedHdr newFileFacts))

/-- They are written by a big-endian host to a little-endian flash. -/
theorem unpackTags2_written_newFile :
    newFileTags.ReadAs (unpackTags2 .big true true (packTags2 .big true true ⟨0#8, 0#32, 0#32⟩ newFileTags)).1 ∧
      (unpackTags2 .big true true (packTags2 .big true true ⟨0#8, 0#32, 0#32⟩ newFileTags)).2 = .noError :=
  unpackTags2_written (p := sampleGeometry.toParam) .big true true ⟨0#8, 0#32, 0#32⟩
    (.stamped _ (.hdr wipedHdr (by decide) (by decide))) (by decide)

end Yaffs
