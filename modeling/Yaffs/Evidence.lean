import Mathlib.Data.Nat.Bitwise
import Yaffs.Endian
import Yaffs.Scan

/-!
# What a scan learns of a header

`yaffs_update_oh` writes the facts of an object three times : in the header, in the inband fields
of the header, and in the extra fields of the tags. A scan goes by the tags where it can, and else
by the header, whose shadow and shrink marks it takes from the inband fields on a device with
inband tags. `HdrWritten` holds of the headers that are written or rewritten by gc, and
`hdrAgree_iff` says when a scan learns the facts whichever way it takes.
-/

namespace Yaffs

/-! ## Writing headers -/

/-- The facts of an object that its header tells. -/
structure HdrFacts where
  type : ObjType
  parentObjId : ℕ
  isShrink : Bool
  /-- the object that is shadowed, or 0 -/
  shadowsObj : ℕ
  /-- of a file -/
  fileSize : ℕ
  /-- of a hard link -/
  equivId : ℕ
  type_lt : type.toNat < 6
  ofStored_type : ObjType.ofStored type.toNat = type
  parent_lt : parentObjId < 2 ^ 32
  shadows_lt : shadowsObj < 2 ^ 31
  size_lt : fileSize < 2 ^ 63
  equiv_lt : equivId < 2 ^ 32

/-- The header `yaffs_update_oh` writes, in a buffer that holds the name and the attributes. What else
the buffer holds is all ones, or anything when the old header could not be read. -/
def updateOhWords (buf : HdrWords) (f : HdrFacts) : HdrWords :=
  let oh :=
    { buf with
      type := UInt32.ofNat f.type.toNat
      shadowsObj := UInt32.ofNat f.shadowsObj
      inbandShadowedObjId := UInt32.ofNat f.shadowsObj
      parentObjId := UInt32.ofNat f.parentObjId
      isShrink := if f.isShrink then 1 else 0 }
  match f.type with
  | .file => ohSizeLoad false oh f.fileSize false
  | .hardlink => { oh with equivId := UInt32.ofNat f.equivId }
  | _ => oh

/-- The tags `yaffs_update_oh` writes with the header `oh`. -/
def updateOhTags (o : ℕ) (f : HdrFacts) (oh : HdrWords) : ExtTags where
  objId := o
  chunkId := 0
  extraAvailable := true
  extraParentId := oh.parentObjId.toNat
  extraFileSize := if f.type = .file then f.fileSize else 0
  extraIsShrink := decide (oh.isShrink ≠ 0)
  extraEquivId := oh.equivId.toNat
  extraShadows := decide (0 < oh.shadowsObj.toNat ∧ oh.shadowsObj.toNat < 2 ^ 31)
  extraObjType := f.type

/-- What `yaffs_gc_process_chunk` makes of the tags of a header. -/
def gcHdrTags (fileSize : Option ℕ) (t : ExtTags) : ExtTags :=
  { t with
    extraIsShrink := false
    extraShadows := false
    extraFileSize := fileSize.getD t.extraFileSize }

/-- The facts a header tells once gc has rewritten it. -/
def HdrFacts.collected (f : HdrFacts) (size : ℕ) (hsize : size < 2 ^ 63) : HdrFacts :=
  { f with
    isShrink := false
    shadowsObj := 0
    fileSize := if f.type = .file then size else f.fileSize
    shadows_lt := by decide
    size_lt := by
      split
      · exact hsize
      · exact f.size_lt }

/-- The stored size of a file, which gc puts in the header. -/
def HdrFacts.gcSize (f : HdrFacts) (size : ℕ) : Option ℕ :=
  if f.type = .file then some size else none

/-- The tags of a page, as they are read back. -/
def ExtTags.readBack (t : ExtTags) (seq : ℕ) : ExtTags :=
  unpackTags2TagsOnly seq (packTags2TagsOnly t).stored

/-- The headers on flash, with their tags and the facts they tell. -/
inductive HdrWritten : HdrWords → ExtTags → HdrFacts → Prop
  /-- by `yaffs_update_oh` -/
  | update (buf : HdrWords) (o : ℕ) (f : HdrFacts) :
      HdrWritten (updateOhWords buf f) (updateOhTags o f (updateOhWords buf f)) f
  /-- by gc, of a file of the stored size `size` -/
  | gc {w : HdrWords} {t : ExtTags} {f : HdrFacts} (seq size : ℕ) (hsize : size < 2 ^ 63) :
      HdrWritten w t f → seq ≠ 0xffffffff →
      HdrWritten (gcHdrWords false (f.gcSize size) w) (gcHdrTags (f.gcSize size) (t.readBack seq))
        (f.collected size hsize)

/-! ## Reading headers -/

/-- The characters of a string with its terminating zero. -/
def stringOf (bs : List UInt8) : Name :=
  (bs.takeWhile fun b => b ≠ 0).map fun b => Char.ofNat b.toNat

/-- The header of the model that some words are. -/
def HdrWords.objHdr (w : HdrWords) : ObjHdr where
  type := ObjType.ofStored w.type.toNat
  parentObjId := w.parentObjId.toNat
  name := stringOf w.name
  fileSize := ohToSize w
  equivId := w.equivId.toNat
  aliasName := stringOf w.aliasName
  shadowsObj := w.shadowsObj.toNat
  inbandShadowedObjId := w.inbandShadowedObjId.toNat
  isShrink := decide (w.isShrink ≠ 0)

/-- What is read of the page of a header. -/
def hdrRead (w : HdrWords) (t : ExtTags) (seq : ℕ) : PageRead where
  ok := true
  ecc := .noError
  tags := t.readBack seq
  data := .hdr w.objHdr
  inbandIsShrink := decide (w.inbandIsShrink ≠ 0)

/-- A scan goes by the header `oh`, or by the tags alone. -/
def HdrSource (g : Geometry) (r : PageRead) : Option ObjHdr → Prop
  | none => r.tags.extraAvailable = true ∧ r.tags.extraShadows = false
  | some oh => oh = r.objHdr g

/-- What is learnt are the facts. -/
structure HdrFacts.Learnt (f : HdrFacts) (h : HdrInfo) (shadows : Option ℕ) : Prop where
  type : h.type = f.type
  parent : h.parentObjId = f.parentObjId
  isShrink : h.isShrink = f.isShrink
  shadows : shadows = if f.shadowsObj = 0 then none else some f.shadowsObj
  size : f.type = .file → h.fileSize = f.fileSize
  equiv : f.type = .hardlink → h.equivId = f.equivId

/-- A scan learns the facts from every source it may go by. -/
def HdrAgree (g : Geometry) (r : PageRead) (f : HdrFacts) : Prop :=
  ∀ oh, HdrSource g r oh → f.Learnt (HdrInfo.of oh r.tags) (oh.bind ObjHdr.shadows)

variable {g : Geometry} {w : HdrWords} {t : ExtTags} {f : HdrFacts} {seq p k i : ℕ}

/-! ## Flags of packed tags -/

/-- Flags over a number of 28 bits. -/
theorem or_flags (hp : p < 2 ^ 28) : 2 ^ 28 * k ||| p = 2 ^ 28 * k + p :=
  (Nat.two_pow_add_eq_or_of_lt hp k).symm

theorem testBit_flags (hp : p < 2 ^ 28) (i : ℕ) : (2 ^ 28 * k + p).testBit (28 + i) = k.testBit i := by
  rw [Nat.testBit_two_pow_mul_add k hp, if_neg (by omega), Nat.add_sub_cancel_left]

/-- A flag of packed tags is set. -/
theorem flag_ne_zero (hp : p < 2 ^ 28) (i : ℕ) : (2 ^ 28 * k + p) &&& 2 ^ (28 + i) ≠ 0 ↔ k.testBit i = true := by
  rw [Nat.and_comm, Nat.two_pow_and, testBit_flags hp]
  cases k.testBit i <;> simp

/-- The flags `yaffs_pack_tags2_tags_only` puts over the number of the parent. -/
def extraFlags (isShrink shadows : Bool) : ℕ :=
  8 + (if isShrink then 4 else 0) + (if shadows then 2 else 0)

theorem chunkId_packed (hp : p < 2 ^ 28) (isShrink shadows : Bool) :
    0x80000000 ||| p ||| (if isShrink then 0x40000000 else 0) ||| (if shadows then 0x20000000 else 0) =
      2 ^ 28 * extraFlags isShrink shadows + p := by
  have hcomm : ∀ a b c : ℕ, a ||| p ||| b ||| c = a ||| b ||| c ||| p := by
    intro a b c
    rw [Nat.or_assoc a p b, Nat.or_comm p b, ← Nat.or_assoc, Nat.or_assoc (a ||| b) p c, Nat.or_comm p c,
      ← Nat.or_assoc]
  rw [← or_flags hp, hcomm]
  cases isShrink <;> cases shadows <;> rfl

theorem extraFlags_lt (isShrink shadows : Bool) : extraFlags isShrink shadows < 16 := by
  cases isShrink <;> cases shadows <;> decide

theorem extraFlags_testBit (isShrink shadows : Bool) :
    (extraFlags isShrink shadows).testBit 3 = true ∧ (extraFlags isShrink shadows).testBit 2 = isShrink ∧
      (extraFlags isShrink shadows).testBit 1 = shadows := by
  cases isShrink <;> cases shadows <;> decide

/-- The flag for extra tags is set over any number. -/
theorem infoFlag_ne_zero (a b c : ℕ) : (0x80000000 ||| a ||| b ||| c) % 2 ^ 32 &&& 0x80000000 ≠ 0 := by
  have hbit : ((0x80000000 ||| a ||| b ||| c) % 2 ^ 32).testBit 31 = true := by
    have h31 : (0x80000000 : ℕ).testBit 31 = true := by decide
    rw [Nat.testBit_mod_two_pow, Nat.testBit_or, Nat.testBit_or, Nat.testBit_or, h31]
    rfl
  have hand := Nat.two_pow_and ((0x80000000 ||| a ||| b ||| c) % 2 ^ 32) 31
  rw [hbit, Nat.and_comm] at hand
  intro hzero
  exact absurd (hand.symm.trans hzero) (by decide)

/-- The number of an object with its type over it. -/
theorem objId_packed (o : ℕ) {n : ℕ} (hn : n < 16) : (((o &&& 0x0fffffff) ||| (n <<< 28)) % 2 ^ 32) >>> 28 = n := by
  have hmask : o &&& 0x0fffffff = o % 2 ^ 28 := Nat.and_two_pow_sub_one_eq_mod o 28
  have hlt : o % 2 ^ 28 < 2 ^ 28 := Nat.mod_lt _ (by decide)
  rw [hmask, Nat.shiftLeft_eq, Nat.or_comm, Nat.mul_comm, or_flags hlt, Nat.shiftRight_eq_div_pow]
  omega

/-- Packed extra tags are read back. -/
theorem readBack_packed (hpack : t.extraPackable = true) (hparent : t.extraParentId < 2 ^ 28)
    (htype : t.extraObjType.toNat < 6) (hstored : ObjType.ofStored t.extraObjType.toNat = t.extraObjType)
    (hseq : seq ≠ 0xffffffff) :
    (t.readBack seq).extraAvailable = true ∧ (t.readBack seq).extraParentId = t.extraParentId ∧
      (t.readBack seq).extraIsShrink = t.extraIsShrink ∧ (t.readBack seq).extraShadows = t.extraShadows ∧
      (t.readBack seq).extraObjType = t.extraObjType ∧
      (t.extraObjType = .file → (t.readBack seq).extraFileSize = t.extraFileSize) ∧
      (t.extraObjType = .hardlink → (t.readBack seq).extraEquivId = t.extraEquivId % 2 ^ 32) := by
  obtain ⟨havail, hshrink, hshadows⟩ := extraFlags_testBit t.extraIsShrink t.extraShadows
  have hk := extraFlags_lt t.extraIsShrink t.extraShadows
  have hchunk := chunkId_packed hparent t.extraIsShrink t.extraShadows
  generalize extraFlags t.extraIsShrink t.extraShadows = k at *
  have hmod : (2 ^ 28 * k + t.extraParentId) % 2 ^ 32 = 2 ^ 28 * k + t.extraParentId :=
    Nat.mod_eq_of_lt (by omega)
  have hmask : (2 ^ 28 * k + t.extraParentId) &&& 0x0fffffff = t.extraParentId := by
    have hand : (2 ^ 28 * k + t.extraParentId) &&& 0x0fffffff = (2 ^ 28 * k + t.extraParentId) % 2 ^ 28 :=
      Nat.and_two_pow_sub_one_eq_mod _ 28
    omega
  have hobj := objId_packed t.objId (n := t.extraObjType.toNat) (by omega)
  have h80 : (2 ^ 28 * k + t.extraParentId) &&& 0x80000000 ≠ 0 := (flag_ne_zero hparent 3).mpr havail
  have h40 : (2 ^ 28 * k + t.extraParentId) &&& 0x40000000 ≠ 0 ↔ k.testBit 2 = true := flag_ne_zero hparent 2
  have h20 : (2 ^ 28 * k + t.extraParentId) &&& 0x20000000 ≠ 0 ↔ k.testBit 1 = true := flag_ne_zero hparent 1
  rw [hshrink] at h40
  rw [hshadows] at h20
  unfold ExtTags.readBack unpackTags2TagsOnly packTags2TagsOnly SummaryTags.stored
  rw [if_pos hpack, if_neg hseq]
  simp only [hchunk, hmod, hmask, hobj, hstored]
  rw [if_pos h80]
  refine ⟨rfl, rfl, ?_, ?_, rfl, fun hfile => ?_, fun hlink => ?_⟩
  · exact (Bool.decide_congr h40).trans Bool.decide_eq_true
  · exact (Bool.decide_congr h20).trans Bool.decide_eq_true
  · have hsmall : t.extraFileSize < 2 ^ 31 := by
      unfold ExtTags.extraPackable at hpack
      simp only [hfile, Bool.and_eq_true, Bool.not_eq_true', Bool.and_eq_false_iff, bne_eq_false_iff_eq,
        decide_true, Bool.true_eq_false, false_or, Nat.shiftRight_eq_div_pow] at hpack
      omega
    simp only [hfile, reduceCtorEq, if_false, if_true]
    omega
  · simp only [hlink, if_true]

/-- Tags with extra fields are those of a header. -/
theorem readBack_packed_chunkId (hpack : t.extraPackable = true) : (t.readBack seq).chunkId = 0 := by
  unfold ExtTags.readBack unpackTags2TagsOnly
  split
  · rfl
  · have hflag : (packTags2TagsOnly t).stored.chunkId &&& 0x80000000 ≠ 0 := by
      unfold packTags2TagsOnly SummaryTags.stored
      rw [if_pos hpack]
      exact infoFlag_ne_zero _ _ _
    rw [if_pos hflag]

/-- Tags whose extra fields cannot be packed are read back without them. -/
theorem readBack_plain (hchunk : t.chunkId = 0) (hpack : t.extraPackable = false) :
    (t.readBack seq).extraAvailable = false ∧ (t.readBack seq).chunkId = 0 := by
  have hpacked : (packTags2TagsOnly t).stored = ⟨t.objId % 2 ^ 32, 0, t.nBytes % 2 ^ 32⟩ := by
    unfold packTags2TagsOnly SummaryTags.stored
    simp [hpack, hchunk]
  unfold ExtTags.readBack unpackTags2TagsOnly
  rw [hpacked]
  split
  · exact ⟨rfl, rfl⟩
  · rw [if_neg (by simp)]
    exact ⟨rfl, rfl⟩

/-- The parent that is read from the tags has a number of 28 bits. -/
theorem readBack_parent_lt : (t.readBack seq).extraParentId < 2 ^ 28 := by
  have hmask : ∀ n : ℕ, n &&& 0x0fffffff < 2 ^ 28 := by
    intro n
    rw [show n &&& 0x0fffffff = n % 2 ^ 28 from Nat.and_two_pow_sub_one_eq_mod n 28]
    exact Nat.mod_lt _ (by decide)
  unfold ExtTags.readBack unpackTags2TagsOnly
  split
  · exact Nat.two_pow_pos 28
  · split
    · exact hmask _
    · exact Nat.two_pow_pos 28

/-! ## What written headers hold -/

/-- The words of a header tell the facts. -/
structure WordsTell (w : HdrWords) (f : HdrFacts) : Prop where
  type : w.type.toNat = f.type.toNat
  parent : w.parentObjId.toNat = f.parentObjId
  isShrink : w.isShrink ≠ 0 ↔ f.isShrink = true
  shadows : w.shadowsObj.toNat = f.shadowsObj
  inbandShadows : w.inbandShadowedObjId.toNat = f.shadowsObj
  size : f.type = .file → ohToSize w = f.fileSize
  equiv : f.type = .hardlink → w.equivId.toNat = f.equivId

/-- The extra fields of tags tell the facts, as far as the number of the parent fits them. -/
structure TagsTell (t : ExtTags) (f : HdrFacts) : Prop where
  chunkId : t.chunkId = 0
  parent : t.extraAvailable = true → f.parentObjId < 2 ^ 28 → t.extraParentId = f.parentObjId
  isShrink : t.extraAvailable = true → f.parentObjId < 2 ^ 28 → t.extraIsShrink = f.isShrink
  shadows : t.extraAvailable = true → f.parentObjId < 2 ^ 28 → t.extraShadows = decide (0 < f.shadowsObj)
  type : t.extraAvailable = true → f.parentObjId < 2 ^ 28 → t.extraObjType = f.type
  size : t.extraAvailable = true → f.parentObjId < 2 ^ 28 → f.type = .file → t.extraFileSize = f.fileSize
  equiv : t.extraAvailable = true → f.parentObjId < 2 ^ 28 → f.type = .hardlink → t.extraEquivId = f.equivId

theorem toNat_ofNat {n : ℕ} (hn : n < 2 ^ 32) : (UInt32.ofNat n).toNat = n := by
  rw [UInt32.toNat_ofNat']
  exact Nat.mod_eq_of_lt hn

/-- A size is read from the two words it is put in. -/
theorem ohToSize_load {n : ℕ} (hn : n < 2 ^ 63) (swap : Bool) (oh : HdrWords) :
    ohToSize (ohSizeLoad swap oh n false) = n := by
  have hlow : (UInt32.ofNat n).toNat = n % 2 ^ 32 := UInt32.toNat_ofNat'
  have hhigh : (UInt32.ofNat (n / 2 ^ 32)).toNat = n / 2 ^ 32 := toNat_ofNat (by omega)
  have hne : UInt32.ofNat (n / 2 ^ 32) ≠ 0xffffffff := by
    intro heq
    have := congrArg UInt32.toNat heq
    rw [hhigh] at this
    have hones : (0xffffffff : UInt32).toNat = 2 ^ 32 - 1 := by decide
    omega
  change (if UInt32.ofNat (n / 2 ^ 32) ≠ 0xffffffff then
    (UInt32.ofNat (n / 2 ^ 32)).toNat * 2 ^ 32 + (UInt32.ofNat n).toNat else (UInt32.ofNat n).toNat) = n
  rw [if_pos hne, hlow, hhigh]
  omega

theorem ohSizeLoad_of_not_swap (oh : HdrWords) (n : ℕ) : ohSizeLoad false oh n true = ohSizeLoad false oh n false :=
  rfl

section

variable (buf : HdrWords) (f : HdrFacts)

theorem updateOhWords_type : (updateOhWords buf f).type = UInt32.ofNat f.type.toNat := by
  unfold updateOhWords
  cases f.type <;> rfl

theorem updateOhWords_parent : (updateOhWords buf f).parentObjId = UInt32.ofNat f.parentObjId := by
  unfold updateOhWords
  cases f.type <;> rfl

theorem updateOhWords_isShrink : (updateOhWords buf f).isShrink = if f.isShrink then 1 else 0 := by
  unfold updateOhWords
  cases f.type <;> rfl

theorem updateOhWords_shadows : (updateOhWords buf f).shadowsObj = UInt32.ofNat f.shadowsObj := by
  unfold updateOhWords
  cases f.type <;> rfl

theorem updateOhWords_inbandShadows : (updateOhWords buf f).inbandShadowedObjId = UInt32.ofNat f.shadowsObj := by
  unfold updateOhWords
  cases f.type <;> rfl

/-- Nothing is put in `inband_is_shrink`. -/
theorem updateOhWords_inbandIsShrink : (updateOhWords buf f).inbandIsShrink = buf.inbandIsShrink := by
  unfold updateOhWords
  cases f.type <;> rfl

theorem updateOhWords_size (hfile : f.type = .file) : ohToSize (updateOhWords buf f) = f.fileSize := by
  unfold updateOhWords
  rw [hfile]
  exact ohToSize_load f.size_lt false _

theorem updateOhWords_equiv (hlink : f.type = .hardlink) :
    (updateOhWords buf f).equivId = UInt32.ofNat f.equivId := by
  unfold updateOhWords
  rw [hlink]

theorem updateOhWords_tell : WordsTell (updateOhWords buf f) f where
  type := by
    rw [updateOhWords_type]
    exact toNat_ofNat (f.type_lt.trans (by decide))
  parent := by
    rw [updateOhWords_parent]
    exact toNat_ofNat f.parent_lt
  isShrink := by
    rw [updateOhWords_isShrink]
    cases f.isShrink <;> simp
  shadows := by
    rw [updateOhWords_shadows]
    exact toNat_ofNat (f.shadows_lt.trans (by decide))
  inbandShadows := by
    rw [updateOhWords_inbandShadows]
    exact toNat_ofNat (f.shadows_lt.trans (by decide))
  size := updateOhWords_size buf f
  equiv := by
    intro hlink
    rw [updateOhWords_equiv buf f hlink]
    exact toNat_ofNat f.equiv_lt

theorem updateOhTags_tell (o : ℕ) : TagsTell (updateOhTags o f (updateOhWords buf f)) f := by
  have hw := updateOhWords_tell buf f
  refine
    { chunkId := rfl
      parent := fun _ _ => hw.parent
      isShrink := fun _ _ => ?_
      shadows := fun _ _ => ?_
      type := fun _ _ => rfl
      size := fun _ _ hfile => if_pos hfile
      equiv := fun _ _ hlink => hw.equiv hlink }
  · exact (Bool.decide_congr hw.isShrink).trans Bool.decide_eq_true
  · have hlt := f.shadows_lt
    unfold updateOhTags
    simp only [hw.shadows]
    exact Bool.decide_congr (and_iff_left hlt)

end

/-- gc leaves the words telling the facts that are left. -/
theorem WordsTell.gc (h : WordsTell w f) {size : ℕ} (hsize : size < 2 ^ 63) :
    WordsTell (gcHdrWords false (f.gcSize size) w) (f.collected size hsize) := by
  unfold HdrFacts.gcSize
  by_cases hfile : f.type = .file
  · rw [if_pos hfile]
    exact
      { type := h.type
        parent := h.parent
        isShrink := by simp [gcHdrWords, ohSizeLoad, HdrFacts.collected]
        shadows := rfl
        inbandShadows := rfl
        size := fun _ => by
          have := ohToSize_load hsize false { w with isShrink := 0, shadowsObj := 0, inbandShadowedObjId := 0 }
          exact this.trans (if_pos hfile).symm
        equiv := h.equiv }
  · rw [if_neg hfile]
    exact
      { type := h.type
        parent := h.parent
        isShrink := by simp [gcHdrWords, HdrFacts.collected]
        shadows := rfl
        inbandShadows := rfl
        size := fun hc => absurd hc hfile
        equiv := h.equiv }

theorem extraAvailable_of_packable (hpack : t.extraPackable = true) : t.extraAvailable = true := by
  unfold ExtTags.extraPackable at hpack
  simp only [Bool.and_eq_true] at hpack
  exact hpack.1.2

/-- Tags that are read back tell the facts. -/
theorem TagsTell.readBack (h : TagsTell t f) (hseq : seq ≠ 0xffffffff) : TagsTell (t.readBack seq) f := by
  cases hpack : t.extraPackable with
  | false =>
    obtain ⟨hnone, hchunk⟩ : (t.readBack seq).extraAvailable = false ∧ (t.readBack seq).chunkId = 0 :=
      readBack_plain h.chunkId hpack
    have hno : (t.readBack seq).extraAvailable = true → False := by
      rw [hnone]
      exact Bool.false_ne_true
    exact
      { chunkId := hchunk
        parent := fun ha => (hno ha).elim
        isShrink := fun ha => (hno ha).elim
        shadows := fun ha => (hno ha).elim
        type := fun ha => (hno ha).elim
        size := fun ha => (hno ha).elim
        equiv := fun ha => (hno ha).elim }
  | true =>
    have ha := extraAvailable_of_packable hpack
    have hback : f.parentObjId < 2 ^ 28 → _ := fun hp =>
      readBack_packed hpack (by rw [h.parent ha hp]; exact hp) (by rw [h.type ha hp]; exact f.type_lt)
        (by rw [h.type ha hp]; exact f.ofStored_type) hseq
    exact
      { chunkId := readBack_packed_chunkId hpack
        parent := fun _ hp => (hback hp).2.1.trans (h.parent ha hp)
        isShrink := fun _ hp => (hback hp).2.2.1.trans (h.isShrink ha hp)
        shadows := fun _ hp => (hback hp).2.2.2.1.trans (h.shadows ha hp)
        type := fun _ hp => (hback hp).2.2.2.2.1.trans (h.type ha hp)
        size := fun _ hp hfile =>
          ((hback hp).2.2.2.2.2.1 ((h.type ha hp).trans hfile)).trans (h.size ha hp hfile)
        equiv := fun _ hp hlink => by
          rw [(hback hp).2.2.2.2.2.2 ((h.type ha hp).trans hlink), h.equiv ha hp hlink]
          exact Nat.mod_eq_of_lt f.equiv_lt }

/-- gc leaves the tags telling the facts that are left. -/
theorem TagsTell.gc (h : TagsTell t f) {size : ℕ} (hsize : size < 2 ^ 63) :
    TagsTell (gcHdrTags (f.gcSize size) t) (f.collected size hsize) where
  chunkId := h.chunkId
  parent := h.parent
  isShrink := fun _ _ => rfl
  shadows := fun _ _ => rfl
  type := h.type
  size := by
    intro _ _ hfile
    have hfile : f.type = .file := hfile
    simp [gcHdrTags, HdrFacts.gcSize, HdrFacts.collected, hfile]
  equiv := h.equiv

/-- Written headers and their tags tell the facts. -/
theorem HdrWritten.tell (h : HdrWritten w t f) : WordsTell w f ∧ TagsTell t f := by
  induction h with
  | update buf o f => exact ⟨updateOhWords_tell buf f, updateOhTags_tell buf f o⟩
  | gc seq size hsize _ hseq ih => exact ⟨ih.1.gc hsize, (ih.2.readBack hseq).gc hsize⟩

/-! ## Agreement -/

/-- The words of a header are learnt from the page. -/
theorem learnt_objHdr (h : WordsTell w f) (hshrink : g.inbandTags = true → (f.isShrink = true ↔ w.inbandIsShrink ≠ 0)) :
    f.Learnt (HdrInfo.of (some ((hdrRead w t seq).objHdr g)) (hdrRead w t seq).tags)
      (((hdrRead w t seq).objHdr g).shadows) := by
  have hparent : w.parentObjId.toNat % 2 ^ 32 = f.parentObjId := by
    rw [h.parent]
    exact Nat.mod_eq_of_lt f.parent_lt
  have htype : ObjType.ofStored w.type.toNat = f.type := by
    rw [h.type]
    exact f.ofStored_type
  have hequiv : f.type = .hardlink → w.equivId.toNat % 2 ^ 32 = f.equivId := fun hlink => by
    rw [h.equiv hlink]
    exact Nat.mod_eq_of_lt f.equiv_lt
  have hsh : ∀ oh : ObjHdr, oh.shadowsObj = f.shadowsObj →
      oh.shadows = if f.shadowsObj = 0 then none else some f.shadowsObj := by
    intro oh hoh
    have hlt := f.shadows_lt
    have hmod : f.shadowsObj % 2 ^ 32 = f.shadowsObj := Nat.mod_eq_of_lt (by omega)
    unfold ObjHdr.shadows
    simp only [hoh, hmod]
    by_cases hzero : f.shadowsObj = 0
    · rw [if_pos hzero, if_neg (by omega)]
    · rw [if_neg hzero, if_pos (by omega)]
  unfold PageRead.objHdr
  split
  · rename_i hin
    exact ⟨htype, hparent, (Bool.decide_congr (hshrink hin).symm).trans Bool.decide_eq_true, hsh _ h.inbandShadows,
      h.size, hequiv⟩
  · exact ⟨htype, hparent, (Bool.decide_congr h.isShrink).trans Bool.decide_eq_true, hsh _ h.shadows, h.size, hequiv⟩

/-- A scan learns the facts of a written header whichever way it takes, exactly when, on a device with
inband tags, `inband_is_shrink` tells what `is_shrink` does, and the number of the parent has 28
bits where the scan may go by the tags. -/
theorem hdrAgree_iff (h : HdrWritten w t f) (hseq : seq ≠ 0xffffffff) :
    HdrAgree g (hdrRead w t seq) f ↔
      (g.inbandTags = true → (f.isShrink = true ↔ w.inbandIsShrink ≠ 0)) ∧
        ((t.readBack seq).extraAvailable = true → (t.readBack seq).extraShadows = false →
          f.parentObjId < 2 ^ 28) := by
  obtain ⟨hwords, htags⟩ := h.tell
  have hback := htags.readBack hseq
  constructor
  · intro hagree
    refine ⟨fun hin => ?_, fun ha hs => ?_⟩
    · have hshrink := (hagree (some ((hdrRead w t seq).objHdr g)) rfl).isShrink
      have hread : ((hdrRead w t seq).objHdr g).isShrink = decide (w.inbandIsShrink ≠ 0) := by
        unfold PageRead.objHdr
        rw [if_pos hin]
        rfl
      have hshrink : ((hdrRead w t seq).objHdr g).isShrink = f.isShrink := hshrink
      rw [← hshrink, hread]
      exact decide_eq_true_iff
    · have hparent : (t.readBack seq).extraParentId = f.parentObjId := (hagree none ⟨ha, hs⟩).parent
      rw [← hparent]
      exact readBack_parent_lt
  · rintro ⟨hshrink, hparent⟩ oh hsource
    cases oh with
    | some oh =>
      obtain rfl : oh = (hdrRead w t seq).objHdr g := hsource
      exact learnt_objHdr hwords hshrink
    | none =>
      obtain ⟨ha, hs⟩ := hsource
      have hp := hparent ha hs
      have hzero : f.shadowsObj = 0 := by
        have := (hback.shadows ha hp).symm.trans hs
        simpa using this
      exact
        { type := hback.type ha hp
          parent := hback.parent ha hp
          isShrink := hback.isShrink ha hp
          shadows := (if_pos hzero).symm
          size := hback.size ha hp
          equiv := hback.equiv ha hp }

/-- A new file in the root directory. -/
def newFileFacts : HdrFacts where
  type := .file
  parentObjId := 1
  isShrink := false
  shadowsObj := 0
  fileSize := 0
  equivId := 0
  type_lt := by decide
  ofStored_type := rfl
  parent_lt := by decide
  shadows_lt := by decide
  size_lt := by decide
  equiv_lt := by decide

/-- A header that has been wiped. -/
def wipedHdr : HdrWords where
  type := 0xffffffff
  parentObjId := 0xffffffff
  sumNoLongerUsed := List.replicate 2 0xff
  name := List.replicate 258 0
  ystMode := 0x81a4
  ystUid := 0
  ystGid := 0
  ystAtime := 0
  ystMtime := 0
  ystCtime := 0
  fileSizeLow := 0xffffffff
  equivId := 0xffffffff
  aliasName := List.replicate 160 0xff
  ystRdev := 0
  winCtime0 := 0
  winCtime1 := 0
  winAtime0 := 0
  winAtime1 := 0
  winMtime0 := 0
  winMtime1 := 0
  inbandShadowedObjId := 0xffffffff
  inbandIsShrink := 0xffffffff
  fileSizeHigh := 0xffffffff
  reserved := 0xffffffff
  shadowsObj := 0xffffffff
  isShrink := 0xffffffff

/-- The sample device with inband tags. -/
def inbandGeometry : Geometry :=
  { sampleGeometry with
    toParam := { sampleGeometry.toParam with inbandTags := true } }

/-- The page of the header of the new file, object 257. -/
def newFileRead : PageRead :=
  hdrRead (updateOhWords wipedHdr newFileFacts)
    (updateOhTags 257 newFileFacts (updateOhWords wipedHdr newFileFacts)) 0x1000

/-- Without inband tags a scan learns the facts of a new file. -/
theorem newFile_agrees : HdrAgree sampleGeometry newFileRead newFileFacts :=
  (hdrAgree_iff (HdrWritten.update wipedHdr 257 newFileFacts) (by decide)).mpr
    ⟨fun hin => absurd hin (by decide), fun _ _ => by decide⟩

/-- With inband tags the header of the new file says that it is a shrink header. -/
theorem newFile_disagrees : ¬HdrAgree inbandGeometry newFileRead newFileFacts := by
  intro hagree
  have hshrink := (hagree (some (newFileRead.objHdr inbandGeometry)) rfl).isShrink
  exact absurd hshrink (by decide)

/-! ## Scans and the headers of the model -/

/-- A scan goes by one of the sources. -/
theorem findHdrObj_source {e : Env} {m : MountParam} {c : ℕ} {r : PageRead} (hread : ∀ n, m.reader n c = r)
    (s : ScanDev) : HdrSource g r (findHdrObj g e m c r.tags s).2.2.1 := by
  have hpage : ∀ d : ScanDev, (d.onDev fun d => d.onBlocks (rdChunkTagsNand g m.reader c)).2 = r :=
    fun d => hread _
  unfold findHdrObj
  cases ha : r.tags.extraAvailable with
  | false =>
    simp only [Bool.false_eq_true, if_false, needsHdr, if_true]
    rw [hpage]
    rfl
  | true =>
    simp only [if_true]
    split
    · split <;> exact congrArg _ (hpage _)
    · rename_i hneeds
      refine ⟨ha, ?_⟩
      generalize (findOrCreateByNumber g e r.tags.objId r.tags.extraObjType s).2 = o at hneeds
      cases o with
      | none => exact absurd rfl hneeds
      | some o =>
        simp only [needsHdr, Bool.or_eq_true, not_or, Bool.not_eq_true] at hneeds
        exact hneeds.1

/-- Some facts are those of a header of the model. -/
structure HdrFacts.Of (f : HdrFacts) (oh : ObjHdr) : Prop where
  type : f.type = oh.type
  parent : f.parentObjId = oh.parentObjId
  isShrink : f.isShrink = oh.isShrink
  shadows : f.shadowsObj = oh.shadowsObj
  size : f.type = .file → f.fileSize = oh.fileSize
  equiv : f.type = .hardlink → f.equivId = oh.equivId

/-- The tags of the model are packed as the tags of the words are. -/
theorem packTags_hdrTags {oh : ObjHdr} (hof : f.Of oh) (o : ℕ) (buf : HdrWords) :
    packTags2TagsOnly (hdrTags o oh) = packTags2TagsOnly (updateOhTags o f (updateOhWords buf f)) := by
  have hw := updateOhWords_tell buf f
  have hshrink : decide ((updateOhWords buf f).isShrink ≠ 0) = oh.isShrink := by
    rw [← hof.isShrink]
    exact (Bool.decide_congr hw.isShrink).trans Bool.decide_eq_true
  have hshadows : decide (0 < (updateOhWords buf f).shadowsObj.toNat ∧ (updateOhWords buf f).shadowsObj.toNat < 2 ^ 31) =
      decide (0 < oh.shadowsObj) := by
    rw [hw.shadows, ← hof.shadows]
    exact Bool.decide_congr (and_iff_left f.shadows_lt)
  have hpack : (hdrTags o oh).extraPackable = (updateOhTags o f (updateOhWords buf f)).extraPackable := by
    unfold ExtTags.extraPackable hdrTags updateOhTags
    simp only [← hof.type]
    by_cases hfile : f.type = .file
    · rw [if_pos hfile, hof.size hfile]
    · simp [hfile]
  unfold packTags2TagsOnly
  rw [hpack]
  split
  · unfold hdrTags updateOhTags
    simp only [hshrink, hshadows, hw.parent, ← hof.parent, ← hof.type]
    congr 1
    by_cases hlink : f.type = .hardlink
    · rw [if_pos hlink, if_pos hlink, hw.equiv hlink, hof.equiv hlink]
    · rw [if_neg hlink, if_neg hlink]
      by_cases hfile : f.type = .file
      · rw [if_pos hfile, if_pos hfile, if_pos hfile, hof.size hfile]
      · rw [if_neg hfile, if_neg hfile]
  · rfl

/-- The words of a header are a header of the same facts. -/
theorem updateOhWords_of (buf : HdrWords) (f : HdrFacts) : f.Of (updateOhWords buf f).objHdr := by
  have hw := updateOhWords_tell buf f
  refine
    { type := ?_
      parent := hw.parent.symm
      isShrink := ?_
      shadows := hw.shadows.symm
      size := fun hfile => (hw.size hfile).symm
      equiv := fun hlink => (hw.equiv hlink).symm }
  · change f.type = ObjType.ofStored (updateOhWords buf f).type.toNat
    rw [hw.type, f.ofStored_type]
  · exact ((Bool.decide_congr hw.isShrink).trans Bool.decide_eq_true).symm

end Yaffs
