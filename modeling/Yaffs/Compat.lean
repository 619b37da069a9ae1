import Yaffs.Ecc
import Yaffs.Endian
import Yaffs.Scan

/-!
# The tags of yaffs1

`yaffs_tagscompat.c` : the tags of a yaffs1 page are bit fields of two words, with an ECC among them,
which lie in the spare area of the page. The ECC is the exclusive or of the numbers of the bits set, so
it tells the number of a flipped bit, and takes a flipped bit of its own for another one.
-/

namespace Yaffs

open Words

/-! ## The fields -/

/-- `union yaffs_tags_union` on a little-endian host : the fields of `struct yaffs_tags` from the low
bit on are `chunk_id`, `serial_number`, `n_bytes_lsb`, `obj_id`, `ecc` and `n_bytes_msb`. -/
abbrev TagsWord : Type :=
  BitVec 64

/-- The fields of `struct yaffs_tags` but for the ECC. -/
structure TagsPayload where
  chunkId : BitVec 20
  serialNumber : BitVec 2
  nBytesLsb : BitVec 10
  objId : BitVec 18
  nBytesMsb : BitVec 2
  deriving DecidableEq, Repr

/-- The fields of the tags. -/
def TagsWord.payload (v : TagsWord) : TagsPayload where
  chunkId := v.extractLsb' 0 20
  serialNumber := v.extractLsb' 20 2
  nBytesLsb := v.extractLsb' 22 10
  objId := v.extractLsb' 32 18
  nBytesMsb := v.extractLsb' 62 2

/-- `tags->ecc`. -/
def TagsWord.ecc (v : TagsWord) : BitVec 12 :=
  v.extractLsb' 50 12

/-- `tags->ecc = ecc`. -/
def TagsWord.setEcc (v : TagsWord) (ecc : BitVec 12) : TagsWord :=
  (v &&& ~~~((0xfff#64) <<< 50)) ||| (ecc.setWidth 64 <<< 50)

/-- The tags of some fields, with the ECC `ecc`. -/
def TagsPayload.word (t : TagsPayload) (ecc : BitVec 12) : TagsWord :=
  t.nBytesMsb ++ ecc ++ t.objId ++ t.nBytesLsb ++ t.serialNumber ++ t.chunkId

/-! ## The ECC -/

/-- The body of the loop of `yaffs_calc_tags_ecc`, for bit `k` of the eight bytes. -/
def tagsEccStep (v : TagsWord) (ecc : BitVec 32) (k : Fin 64) : BitVec 32 :=
  if v.getLsbD k then ecc ^^^ BitVec.ofNat 32 (k + 1) else ecc

/-- The ECC of the eight bytes. -/
def tagsEcc (v : TagsWord) : BitVec 32 :=
  (List.finRange 64).foldl (tagsEccStep v) 0#32

/-- `yaffs_calc_tags_ecc`. -/
def calcTagsEcc (v : TagsWord) : TagsWord :=
  v.setEcc ((tagsEcc (v.setEcc 0#12)).setWidth 12)

/-- `yaffs_check_tags_ecc`, with what it returns. -/
def checkTagsEcc (v : TagsWord) : TagsWord × ℤ :=
  let w := calcTagsEcc v
  let ecc := v.ecc.setWidth 32 ^^^ w.ecc.setWidth 32
  if ecc ≠ 0#32 ∧ ecc ≤ 64#32 then (calcTagsEcc (w ^^^ (1#64 <<< (ecc - 1#32).toNat)), 1)
  else if ecc ≠ 0#32 then (w, -1)
  else (w, 0)

/-- Flip one bit of the tags. -/
def TagsWord.flip (v : TagsWord) (p : Fin 64) : TagsWord :=
  v ^^^ (1#64 <<< (p : ℕ))

/-- The bit is one of the ECC. -/
def isEccBit (p : ℕ) : Prop :=
  50 ≤ p ∧ p < 62

instance (p : ℕ) : Decidable (isEccBit p) :=
  inferInstanceAs (Decidable (_ ∧ _))

/-! ## Bits of the tags -/

section

variable {v w : TagsWord} {p : Fin 64}

theorem getLsbD_setEcc (v : TagsWord) (x : BitVec 12) {i : ℕ} (hi : i < 64) :
    (v.setEcc x).getLsbD i = if isEccBit i then x.getLsbD (i - 50) else v.getLsbD i := by
  have hmask : ((0xfff#64) <<< 50).getLsbD i = decide (isEccBit i) := by
    revert i
    decide
  unfold TagsWord.setEcc
  rw [BitVec.getLsbD_or, BitVec.getLsbD_and, BitVec.getLsbD_not, hmask, BitVec.getLsbD_shiftLeft,
    BitVec.getLsbD_setWidth]
  unfold isEccBit
  by_cases h1 : i < 50
  · simp [h1, hi, show ¬50 ≤ i by omega]
  · by_cases h2 : i < 62
    · simp [h1, h2, hi, show 50 ≤ i by omega, show i - 50 < 64 by omega]
    · have hout : x.getLsbD (i - 50) = false := BitVec.getLsbD_of_ge _ _ (by omega)
      simp [h1, h2, hi, hout]

theorem getLsbD_flip_tags (v : TagsWord) (p : Fin 64) {i : ℕ} (hi : i < 64) :
    (v.flip p).getLsbD i = (v.getLsbD i ^^ decide (i = p)) := by
  unfold TagsWord.flip
  rw [BitVec.getLsbD_xor, ← BitVec.twoPow_eq, BitVec.getLsbD_twoPow]
  simp [hi, eq_comm]

theorem flip_flip (v : TagsWord) (p : Fin 64) : (v.flip p).flip p = v := by
  unfold TagsWord.flip
  rw [BitVec.xor_assoc, BitVec.xor_self, BitVec.xor_zero]

/-- The fields are the bits that are not of the ECC. -/
theorem payload_eq_iff : v.payload = w.payload ↔ ∀ i < 64, ¬isEccBit i → v.getLsbD i = w.getLsbD i := by
  constructor
  · intro h i hi hnot
    unfold isEccBit at hnot
    have hfield : ∀ start width, v.extractLsb' start width = w.extractLsb' start width → start ≤ i →
        i < start + width → v.getLsbD i = w.getLsbD i := by
      intro start width heq h1 h2
      have hbit := congrArg (fun x => x.getLsbD (i - start)) heq
      simp only [BitVec.getLsbD_extractLsb', show start + (i - start) = i by omega] at hbit
      simpa [show i - start < width by omega] using hbit
    obtain ⟨h1, h2, h3, h4, h5⟩ := (TagsPayload.mk.injEq ..).mp h
    rcases lt_or_ge i 20 with hi1 | hi1
    · exact hfield 0 20 h1 (Nat.zero_le _) hi1
    rcases lt_or_ge i 22 with hi2 | hi2
    · exact hfield 20 2 h2 hi1 hi2
    rcases lt_or_ge i 32 with hi3 | hi3
    · exact hfield 22 10 h3 hi2 hi3
    rcases lt_or_ge i 50 with hi4 | hi4
    · exact hfield 32 18 h4 hi3 hi4
    · exact hfield 62 2 h5 (by omega) hi
  · intro h
    have hfield : ∀ start width, start + width ≤ 64 → (∀ i < width, ¬isEccBit (start + i)) →
        v.extractLsb' start width = w.extractLsb' start width := by
      intro start width hle hnot
      refine BitVec.eq_of_getLsbD_eq fun i hi => ?_
      rw [BitVec.getLsbD_extractLsb', BitVec.getLsbD_extractLsb', h _ (by omega) (hnot i hi)]
    unfold TagsWord.payload
    rw [hfield 0 20, hfield 20 2, hfield 22 10, hfield 32 18, hfield 62 2] <;> first | omega | skip
    all_goals
      intro i hi
      unfold isEccBit
      omega

theorem ecc_setEcc (v : TagsWord) (x : BitVec 12) : (v.setEcc x).ecc = x := by
  refine BitVec.eq_of_getLsbD_eq fun i hi => ?_
  unfold TagsWord.ecc
  rw [BitVec.getLsbD_extractLsb', getLsbD_setEcc _ _ (by omega), if_pos ⟨by omega, by omega⟩]
  simp [hi]

theorem payload_setEcc (v : TagsWord) (x : BitVec 12) : (v.setEcc x).payload = v.payload :=
  payload_eq_iff.mpr fun i hi hnot => by rw [getLsbD_setEcc _ _ hi, if_neg hnot]

/-- Setting the ECC forgets the old one. -/
theorem setEcc_congr (h : v.payload = w.payload) (x : BitVec 12) : v.setEcc x = w.setEcc x := by
  refine BitVec.eq_of_getLsbD_eq fun i hi => ?_
  rw [getLsbD_setEcc _ _ hi, getLsbD_setEcc _ _ hi]
  split_ifs with hecc
  · rfl
  · exact payload_eq_iff.mp h i hi hecc

theorem payload_flip (hp : isEccBit p) : (v.flip p).payload = v.payload := by
  refine payload_eq_iff.mpr fun i hi hnot => ?_
  have hne : i ≠ p := by
    rintro rfl
    exact hnot hp
  rw [getLsbD_flip_tags _ _ hi, decide_eq_false hne, Bool.xor_false]

/-- A flipped bit of the fields shows. -/
theorem payload_flip_ne (hp : ¬isEccBit p) : (v.flip p).payload ≠ v.payload := by
  intro h
  have hbit := payload_eq_iff.mp h p p.isLt hp
  rw [getLsbD_flip_tags _ _ p.isLt] at hbit
  simp at hbit

theorem ecc_flip (hp : ¬isEccBit p) : (v.flip p).ecc = v.ecc := by
  refine BitVec.eq_of_getLsbD_eq fun i hi => ?_
  unfold TagsWord.ecc
  have hne : 50 + i ≠ p := fun h => hp ⟨by omega, by omega⟩
  rw [BitVec.getLsbD_extractLsb', BitVec.getLsbD_extractLsb', getLsbD_flip_tags _ _ (by omega),
    decide_eq_false hne, Bool.xor_false]

theorem ecc_flip_ecc (hp : isEccBit p) : (v.flip p).ecc = v.ecc ^^^ (1#12 <<< (p - 50 : ℕ)) := by
  obtain ⟨h1, h2⟩ := hp
  refine BitVec.eq_of_getLsbD_eq fun i hi => ?_
  unfold TagsWord.ecc
  rw [BitVec.getLsbD_xor, BitVec.getLsbD_extractLsb', BitVec.getLsbD_extractLsb',
    getLsbD_flip_tags _ _ (by omega), ← BitVec.twoPow_eq, BitVec.getLsbD_twoPow]
  have hiff : (50 + i = p) ↔ (p - 50 : ℕ) = i := by omega
  simp only [hi, decide_true, Bool.true_and, hiff]
  by_cases h : (p - 50 : ℕ) = i
  · simp [h, hi]
  · simp [h]

/-! ## The ECC is linear -/

/-- What bit `k` adds to the ECC. -/
def tagsEccTerm (v : TagsWord) (k : Fin 64) : BitVec 32 :=
  if v.getLsbD k then BitVec.ofNat 32 (k + 1) else 0#32

theorem tagsEcc_eq (v : TagsWord) : tagsEcc v = xorSum (tagsEccTerm v) (List.finRange 64) := by
  have hstep : tagsEccStep v = fun ecc k => ecc ^^^ tagsEccTerm v k := by
    funext ecc k
    unfold tagsEccStep tagsEccTerm
    split_ifs
    · rfl
    · rw [BitVec.xor_zero]
  rw [tagsEcc, hstep, foldl_xor, BitVec.zero_xor]

/-- A flipped bit changes the ECC by its number. -/
theorem tagsEcc_flip (v : TagsWord) (p : Fin 64) :
    tagsEcc (v.flip p) = tagsEcc v ^^^ BitVec.ofNat 32 (p + 1) := by
  rw [tagsEcc_eq, tagsEcc_eq]
  refine xorSum_change (List.nodup_finRange 64) (List.mem_finRange p) ?_ fun k hk => ?_
  · unfold tagsEccTerm
    rw [getLsbD_flip_tags _ _ p.isLt]
    cases v.getLsbD p <;> simp
  · unfold tagsEccTerm
    rw [getLsbD_flip_tags _ _ k.isLt, decide_eq_false fun h => hk (Fin.ext h), Bool.xor_false]

/-- The numbers of the bits have seven bits. -/
theorem tagsEcc_setWidth (v : TagsWord) : ((tagsEcc v).setWidth 12).setWidth 32 = tagsEcc v := by
  have hsmall : ∀ ks : List (Fin 64), ((xorSum (tagsEccTerm v) ks).setWidth 12).setWidth 32 =
      xorSum (tagsEccTerm v) ks := by
    have hbit : ∀ k : Fin 64, ((BitVec.ofNat 32 (k + 1)).setWidth 12).setWidth 32 = BitVec.ofNat 32 (k + 1) := by
      decide
    intro ks
    induction ks with
    | nil => rfl
    | cons k ks ih =>
      rw [xorSum, BitVec.setWidth_xor, BitVec.setWidth_xor, ih]
      unfold tagsEccTerm
      split_ifs
      · rw [hbit]
      · rfl
  rw [tagsEcc_eq, hsmall]

/-- The ECC of tags goes by their fields. -/
theorem ecc_calcTagsEcc (v : TagsWord) : (calcTagsEcc v).ecc.setWidth 32 = tagsEcc (v.setEcc 0#12) := by
  rw [calcTagsEcc, ecc_setEcc, tagsEcc_setWidth]

theorem payload_calcTagsEcc (v : TagsWord) : (calcTagsEcc v).payload = v.payload :=
  payload_setEcc v _

theorem calcTagsEcc_congr (h : v.payload = w.payload) : calcTagsEcc v = calcTagsEcc w := by
  rw [calcTagsEcc, calcTagsEcc, setEcc_congr h, setEcc_congr h]

theorem calcTagsEcc_idem (v : TagsWord) : calcTagsEcc (calcTagsEcc v) = calcTagsEcc v :=
  calcTagsEcc_congr (payload_calcTagsEcc v)

theorem setEcc_flip (hp : ¬isEccBit p) (x : BitVec 12) : (v.flip p).setEcc x = (v.setEcc x).flip p := by
  refine BitVec.eq_of_getLsbD_eq fun i hi => ?_
  rw [getLsbD_setEcc _ _ hi, getLsbD_flip_tags _ _ hi, getLsbD_flip_tags _ _ hi, getLsbD_setEcc _ _ hi]
  split_ifs with hecc
  · have hne : i ≠ p := by
      rintro rfl
      exact hp hecc
    rw [decide_eq_false hne, Bool.xor_false]
  · rfl

/-! ## What the check makes of a flipped bit -/

/-- What `yaffs_check_tags_ecc` sees of tags that were written with their ECC. -/
theorem checkTagsEcc_eq (v : TagsWord) : checkTagsEcc v =
    (let d := v.ecc.setWidth 32 ^^^ tagsEcc (v.setEcc 0#12)
    if d ≠ 0#32 ∧ d ≤ 64#32 then (calcTagsEcc (calcTagsEcc v ^^^ (1#64 <<< (d - 1#32).toNat)), 1)
    else if d ≠ 0#32 then (calcTagsEcc v, -1)
    else (calcTagsEcc v, 0)) := by
  unfold checkTagsEcc
  simp only [ecc_calcTagsEcc]

/-- Tags that are read as they were written. -/
theorem checkTagsEcc_calc (v : TagsWord) : checkTagsEcc (calcTagsEcc v) = (calcTagsEcc v, 0) := by
  have hclear : (calcTagsEcc v).setEcc 0#12 = v.setEcc 0#12 := setEcc_congr (payload_calcTagsEcc v) _
  rw [checkTagsEcc_eq, ecc_calcTagsEcc, hclear, BitVec.xor_self, calcTagsEcc_idem]
  rfl

/-- A flipped bit of a field is flipped back. -/
theorem checkTagsEcc_flip_field (v : TagsWord) (hp : ¬isEccBit p) :
    checkTagsEcc ((calcTagsEcc v).flip p) = (calcTagsEcc v, 1) := by
  have hd : ((calcTagsEcc v).flip p).ecc.setWidth 32 ^^^ tagsEcc (((calcTagsEcc v).flip p).setEcc 0#12) =
      BitVec.ofNat 32 (p + 1) := by
    rw [ecc_flip hp, ecc_calcTagsEcc, setEcc_flip hp, tagsEcc_flip, setEcc_congr (payload_calcTagsEcc v),
      ← BitVec.xor_assoc, BitVec.xor_self, BitVec.zero_xor]
  have hrange : ∀ p : Fin 64, BitVec.ofNat 32 (p + 1) ≠ 0#32 ∧ BitVec.ofNat 32 (p + 1) ≤ 64#32 ∧
      (BitVec.ofNat 32 (p + 1) - 1#32).toNat = p := by
    decide
  obtain ⟨h1, h2, h3⟩ := hrange p
  rw [checkTagsEcc_eq, hd]
  simp only [if_pos (And.intro h1 h2), h3]
  congr 1
  change calcTagsEcc ((calcTagsEcc ((calcTagsEcc v).flip p)).flip p) = calcTagsEcc v
  refine calcTagsEcc_congr (payload_eq_iff.mpr fun i hi hnot => ?_)
  have hinner := payload_eq_iff.mp (payload_calcTagsEcc ((calcTagsEcc v).flip p)) i hi hnot
  have houter := payload_eq_iff.mp (payload_calcTagsEcc v) i hi hnot
  rw [getLsbD_flip_tags _ _ hi, hinner, getLsbD_flip_tags _ _ hi, houter, Bool.xor_assoc, Bool.xor_self,
    Bool.xor_false]

/-- A flipped bit of the ECC is taken for one of a field, or for more than one. -/
theorem checkTagsEcc_flip_ecc (v : TagsWord) (hp : isEccBit p) :
    (checkTagsEcc ((calcTagsEcc v).flip p)).2 = -1 ∨
      (checkTagsEcc ((calcTagsEcc v).flip p)).1.payload ≠ v.payload := by
  have hpay := payload_flip (v := calcTagsEcc v) hp
  have hd : ((calcTagsEcc v).flip p).ecc.setWidth 32 ^^^ tagsEcc (((calcTagsEcc v).flip p).setEcc 0#12) =
      (1#12 <<< (p - 50 : ℕ)).setWidth 32 := by
    rw [ecc_flip_ecc hp, BitVec.setWidth_xor, ecc_calcTagsEcc, setEcc_congr (hpay.trans (payload_calcTagsEcc v)),
      BitVec.xor_comm, ← BitVec.xor_assoc, BitVec.xor_self, BitVec.zero_xor]
  have hcases : ∀ p : Fin 64, isEccBit p → (1#12 <<< (p - 50 : ℕ)).setWidth 32 ≠ 0#32 ∧
      ((1#12 <<< (p - 50 : ℕ)).setWidth 32 ≤ 64#32 → ∃ q : Fin 64, ¬isEccBit q ∧
        ((1#12 <<< (p - 50 : ℕ)).setWidth 32 - 1#32).toNat = q) := by
    decide +kernel
  obtain ⟨h1, h2⟩ := hcases p hp
  rw [checkTagsEcc_eq, hd]
  by_cases hle : (1#12 <<< (p - 50 : ℕ)).setWidth 32 ≤ 64#32
  · obtain ⟨q, hq, heq⟩ := h2 hle
    simp only [if_pos (And.intro h1 hle), heq]
    refine Or.inr fun h => payload_flip_ne (v := calcTagsEcc v) hq ?_
    rw [payload_calcTagsEcc, calcTagsEcc_congr hpay, calcTagsEcc_idem] at h
    exact h.trans (payload_calcTagsEcc v).symm
  · simp only [if_neg (fun hand : _ ∧ _ => hle hand.2), if_pos h1]
    exact Or.inl trivial

/-- A flipped bit is reported as corrected, with the fields as they were, exactly when it is one of the
fields. -/
theorem checkTagsEcc_flip_iff (v : TagsWord) (p : Fin 64) :
    ((checkTagsEcc ((calcTagsEcc v).flip p)).2 = 1 ∧
      (checkTagsEcc ((calcTagsEcc v).flip p)).1.payload = v.payload) ↔ ¬isEccBit p := by
  constructor
  · rintro ⟨hone, hpay⟩ hp
    rcases checkTagsEcc_flip_ecc v hp with h | h
    · omega
    · exact h hpay
  · intro hp
    rw [checkTagsEcc_flip_field v hp]
    exact ⟨rfl, payload_calcTagsEcc v⟩

/-- The lowest bit of the ECC of empty tags : the lowest bit of `chunk_id` is flipped. -/
theorem checkTagsEcc_flip_lowEcc : ¬∀ (v : TagsWord) (p : Fin 64),
    (checkTagsEcc ((calcTagsEcc v).flip p)).2 = 1 ∧
      (checkTagsEcc ((calcTagsEcc v).flip p)).1.payload = v.payload := by
  intro h
  have hpay := (h 0#64 50).2
  exact absurd hpay (by decide +kernel)

end

/-! ## The spare area -/

/-- `struct yaffs_spare`, with the eight bytes of the tags together. -/
structure Spare where
  tb : List UInt8
  pageStatus : BitVec 8
  blockStatus : BitVec 8
  ecc1 : Ecc
  ecc2 : Ecc

/-- `yaffs_spare_init`. -/
def spareInit : Spare :=
  ⟨List.replicate 8 0xff, 0xff#8, 0xff#8, fun _ => 0xff#8, fun _ => 0xff#8⟩

/-- All bytes of the spare area are `0xff`. -/
def Spare.isBlank (spare : Spare) : Bool :=
  spare.tb = List.replicate 8 0xff && spare.pageStatus = 0xff#8 && spare.blockStatus = 0xff#8 &&
    decide (∀ j, spare.ecc1 j = 0xff#8) && decide (∀ j, spare.ecc2 j = 0xff#8)

/-- `as_u32` of the tags. -/
def TagsWord.words (v : TagsWord) : UInt32 × UInt32 :=
  (⟨v.extractLsb' 0 32⟩, ⟨v.extractLsb' 32 32⟩)

/-- The tags of two words. -/
def TagsWord.ofWords (w : UInt32 × UInt32) : TagsWord :=
  w.2.toBitVec ++ w.1.toBitVec

/-- `yaffs_load_tags_to_spare`. -/
def loadTagsToSpare (swap : Bool) (tags : TagsWord) (spare : Spare) : Spare :=
  let stored := (calcTagsEcc tags).words
  { spare with
    tb := ByteOrder.wordBytes (doEndianU32 swap stored.1) ++ ByteOrder.wordBytes (doEndianU32 swap stored.2) }

/-- The tags as they are stored in the spare area. -/
def Spare.tags (swap : Bool) (spare : Spare) : TagsWord :=
  .ofWords (doEndianU32 swap (ByteOrder.ofWordBytes (spare.tb.take 4)),
    doEndianU32 swap (ByteOrder.ofWordBytes (spare.tb.drop 4)))

/-- `yaffs_get_tags_from_spare`. -/
def getTagsFromSpare (swap : Bool) (spare : Spare) : TagsWord :=
  (checkTagsEcc (spare.tags swap)).1

/-- The extended tags of a yaffs1 page. -/
structure CompatTags where
  objId : ℕ
  chunkId : ℕ
  nBytes : ℕ
  serialNumber : ℕ
  isDeleted : Bool := false
  chunkUsed : Bool := true
  deriving DecidableEq, Repr

/-- The fields `yaffs_tags_compat_wr` stores. -/
def compatPayload (p : Param) (t : CompatTags) : TagsPayload where
  chunkId := BitVec.ofNat 20 t.chunkId
  serialNumber := BitVec.ofNat 2 t.serialNumber
  nBytesLsb := BitVec.ofNat 10 (t.nBytes &&& (1024 - 1))
  objId := BitVec.ofNat 18 t.objId
  nBytesMsb := if 1024 ≤ p.dataBytesPerChunk then BitVec.ofNat 2 ((t.nBytes >>> 10) &&& 3) else 3#2

/-- `yaffs_tags_compat_wr` : the spare area it writes with the data, of which the ECC of 512 bytes is
stored unless the driver has its own. -/
def tagsCompatWr (p : Param) (swap useNandEcc : Bool) (data : Option (EccBlock × EccBlock)) (t : CompatTags) : Spare :=
  if t.isDeleted then { spareInit with pageStatus := 0#8 }
  else
    let spare :=
      match data with
      | some d => if useNandEcc then spareInit else { spareInit with ecc1 := eccCalc d.1, ecc2 := eccCalc d.2 }
      | none => spareInit
    -- The ECC of the tags is whatever the stack holds, until it is computed.
    loadTagsToSpare swap ((compatPayload p t).word 0#12) spare

/-- `yaffs_tags_compat_rd` on the tags; the tags of an unused page are left as the caller has them. -/
def tagsCompatRd (p : Param) (swap : Bool) (spare : Spare) (old : CompatTags) : CompatTags :=
  let t := { old with isDeleted := decide (hweight8 spare.pageStatus < 7), chunkUsed := !spare.isBlank }
  if t.chunkUsed then
    let tags := (getTagsFromSpare swap spare).payload
    let nBytes := tags.nBytesLsb.toNat
    { t with
      objId := tags.objId.toNat
      chunkId := tags.chunkId.toNat
      nBytes := if 1024 ≤ p.dataBytesPerChunk then nBytes ||| (tags.nBytesMsb.toNat <<< 10) else nBytes
      serialNumber := tags.serialNumber.toNat }
  else t

section

theorem ofWords_words (v : TagsWord) : TagsWord.ofWords v.words = v := by
  refine BitVec.eq_of_getLsbD_eq fun i hi => ?_
  unfold TagsWord.ofWords TagsWord.words
  rw [BitVec.getLsbD_append]
  split_ifs with hlow
  · simp [hlow]
  · simp [show i - 32 < 32 by omega, show 32 + (i - 32) = i by omega]

/-- The words are told by their bytes, swapped or not. -/
theorem doEndianU32_bytes (swap : Bool) (x : UInt32) :
    doEndianU32 swap (ByteOrder.ofWordBytes (ByteOrder.wordBytes (doEndianU32 swap x))) = x := by
  rw [ByteOrder.ofWordBytes_wordBytes]
  unfold doEndianU32
  cases swap
  · rfl
  · exact ByteOrder.swap32_swap32 x

theorem tags_loadTagsToSpare (swap : Bool) (tags : TagsWord) (spare : Spare) :
    (loadTagsToSpare swap tags spare).tags swap = calcTagsEcc tags := by
  have hlen : ∀ x, (ByteOrder.wordBytes x).length = 4 := fun _ => rfl
  unfold Spare.tags loadTagsToSpare
  dsimp only
  rw [List.take_left' (hlen _), List.drop_left' (hlen _), doEndianU32_bytes, doEndianU32_bytes]
  exact ofWords_words (calcTagsEcc tags)

/-- The tags are read from the spare area as they were loaded to it. -/
theorem getTagsFromSpare_load (swap : Bool) (tags : TagsWord) (spare : Spare) :
    getTagsFromSpare swap (loadTagsToSpare swap tags spare) = calcTagsEcc tags := by
  rw [getTagsFromSpare, tags_loadTagsToSpare, checkTagsEcc_calc]

theorem payload_word (t : TagsPayload) (ecc : BitVec 12) : (t.word ecc).payload = t := by
  obtain ⟨chunkId, serialNumber, nBytesLsb, objId, nBytesMsb⟩ := t
  unfold TagsPayload.word TagsWord.payload
  congr 1
  all_goals
    refine BitVec.eq_of_getLsbD_eq fun i hi => ?_
    rw [BitVec.getLsbD_extractLsb']
    simp only [BitVec.getLsbD_append, hi, decide_true, Bool.true_and]
    split_ifs <;> first | omega | (congr 1; omega)

/-- The ECC of tags has seven bits, so tags with their ECC are never all ones. -/
theorem calcTagsEcc_ne_ones (v : TagsWord) : calcTagsEcc v ≠ BitVec.allOnes 64 := by
  intro h
  have hwide := congrArg (fun x : BitVec 32 => x.getLsbD 11) (ecc_calcTagsEcc v)
  have hlow : ∀ ks : List (Fin 64), (xorSum (tagsEccTerm (v.setEcc 0#12)) ks).getLsbD 11 = false := by
    have hbit : ∀ k : Fin 64, (BitVec.ofNat 32 (k + 1)).getLsbD 11 = false := by decide
    intro ks
    induction ks with
    | nil => exact BitVec.getLsbD_zero
    | cons k ks ih =>
      rw [xorSum, BitVec.getLsbD_xor, ih, Bool.xor_false]
      unfold tagsEccTerm
      split_ifs
      · exact hbit k
      · rfl
  rw [h, tagsEcc_eq, hlow] at hwide
  exact absurd hwide (by decide)

/-- The page is not taken for an unused one. -/
theorem isBlank_load (swap : Bool) (tags : TagsWord) (spare : Spare) :
    (loadTagsToSpare swap tags spare).isBlank = false := by
  by_contra hblank
  have htb : (loadTagsToSpare swap tags spare).tb = List.replicate 8 0xff := by
    unfold Spare.isBlank at hblank
    simp only [Bool.not_eq_false, Bool.and_eq_true, decide_eq_true_eq] at hblank
    exact hblank.1.1.1.1
  refine calcTagsEcc_ne_ones tags ?_
  rw [← tags_loadTagsToSpare swap tags spare]
  unfold Spare.tags
  rw [htb]
  cases swap <;> decide

/-- What fits the fields is read back from the spare area, the serial number modulo 4. -/
theorem tagsCompatRd_wr (p : Param) (swap useNandEcc : Bool) (data : Option (EccBlock × EccBlock))
    (old : CompatTags) {t : CompatTags} (hdel : t.isDeleted = false) (hobj : t.objId ≤ maxObjectId)
    (hchunk : t.chunkId < 2 ^ 20) (hle : t.nBytes ≤ p.dataBytesPerChunk) (hbytes : t.nBytes < 2 ^ 12) :
    tagsCompatRd p swap (tagsCompatWr p swap useNandEcc data t) old =
      { objId := t.objId, chunkId := t.chunkId, nBytes := t.nBytes, serialNumber := t.serialNumber % 4 } := by
  obtain ⟨spare, hstatus, hwr⟩ : ∃ spare : Spare, spare.pageStatus = 0xff#8 ∧
      tagsCompatWr p swap useNandEcc data t = loadTagsToSpare swap ((compatPayload p t).word 0#12) spare := by
    unfold tagsCompatWr
    rw [if_neg (by rw [hdel]; decide)]
    refine ⟨_, ?_, rfl⟩
    cases data with
    | none => rfl
    | some d => cases useNandEcc <;> rfl
  have hstatus' : (loadTagsToSpare swap ((compatPayload p t).word 0#12) spare).pageStatus = 0xff#8 := hstatus
  have hweight : decide (hweight8 (0xff#8) < 7) = false := by decide
  have hobj' : t.objId % 2 ^ 18 = t.objId := Nat.mod_eq_of_lt (by unfold maxObjectId at hobj; omega)
  have hlsb : t.nBytes &&& 1023 = t.nBytes % 2 ^ 10 := Nat.and_two_pow_sub_one_eq_mod _ 10
  have hmsb : (t.nBytes >>> 10) &&& 3 = t.nBytes >>> 10 % 2 ^ 2 := Nat.and_two_pow_sub_one_eq_mod _ 2
  unfold tagsCompatRd
  rw [hwr, hstatus', hweight, isBlank_load, getTagsFromSpare_load, payload_calcTagsEcc, payload_word]
  simp only [Bool.not_false, if_true, compatPayload, BitVec.toNat_ofNat, hobj', Nat.mod_eq_of_lt hchunk]
  congr 1
  rw [show 1024 - 1 = 1023 from rfl, hlsb, Nat.mod_mod]
  split_ifs with hsize
  · rw [BitVec.toNat_ofNat, hmsb, Nat.mod_mod, Nat.shiftRight_eq_div_pow, Nat.shiftLeft_eq, Nat.or_comm, Nat.mul_comm]
    rw [Nat.mod_eq_of_lt (show t.nBytes / 2 ^ 10 < 2 ^ 2 by omega),
      ← Nat.two_pow_add_eq_or_of_lt (Nat.mod_lt t.nBytes (Nat.two_pow_pos 10))]
    exact Nat.div_add_mod _ _
  · exact Nat.mod_eq_of_lt (by omega)

/-- A yaffs1 device with chunks of 512 bytes. -/
def compatParam : Param :=
  { sampleGeometry.toParam with isYaffs2 := false }

/-- A page of a file whose last overwrite wraps the serial number. -/
theorem tagsCompatRd_wr_four : tagsCompatRd compatParam true
    (tagsCompatWr compatParam true false none ⟨257, 3, 512, 4, false, true⟩) ⟨0, 0, 0, 0, false, false⟩ =
      ⟨257, 3, 512, 0, false, true⟩ :=
  tagsCompatRd_wr compatParam true false none _ rfl (by decide) (by decide) (by decide) (by decide)

/-- What is read back of tags written on the device `p`. -/
def rewritten (p : Param) (t : CompatTags) : CompatTags :=
  tagsCompatRd p false (tagsCompatWr p false false none t) ⟨0, 0, 0, 0, false, false⟩

/-- The serial number 4 is read as 0; so is the chunk at 512 MiB, whose page becomes a header, and so is
the length of a full chunk of 4096 bytes. -/
theorem rewritten_ne : (rewritten compatParam ⟨257, 3, 512, 4, false, true⟩).serialNumber ≠ 4 ∧
    (rewritten compatParam ⟨257, 2 ^ 20, 512, 1, false, true⟩).chunkId ≠ 2 ^ 20 ∧
    (rewritten { compatParam with dataBytesPerChunk := 4096 } ⟨257, 1, 4096, 1, false, true⟩).nBytes ≠ 4096 := by
  decide +kernel

end

end Yaffs
