import Yaffs.CheckptTree

/-!
# The records of a checkpoint

What is stored of numbers, of a block, of the chunks in use, of a tnode and of an object is read back.
`yaffs2_wr_checkpt_dev` writes the block table while the writer of the stream takes blocks for itself, so
that of a block it may store the state before or after that.
-/

namespace Yaffs

open LittleEndian

/-! ## Words -/

theorem u32Bytes_eq (n : ℕ) : u32Bytes n = bytes 4 n := by
  simp [u32Bytes, bytes, List.range_succ]

theorem length_wordBytes (ws : List ℕ) : (ws.flatMap u32Bytes).length = 4 * ws.length := by
  induction ws with
  | nil => rfl
  | cons w ws ih =>
    rw [List.flatMap_cons, List.length_append, ih, u32Bytes_eq, length_bytes, List.length_cons]
    omega

/-- A word is read where it was put. -/
theorem rdWord_words (ws : List ℕ) (rest : List UInt8) (i : ℕ) (hi : i < ws.length) :
    rdWord (ws.flatMap u32Bytes ++ rest) i = ws[i] % 2 ^ 32 := by
  induction ws generalizing i with
  | nil => simp at hi
  | cons w ws ih =>
    cases i with
    | zero =>
      rw [rdWord, Nat.mul_zero, List.drop_zero, List.flatMap_cons, List.append_assoc, u32Bytes_eq,
        List.take_left' (length_bytes 4 w), number_bytes]
      rfl
    | succ i =>
      have hdrop : ((w :: ws).flatMap u32Bytes ++ rest).drop (4 * (i + 1)) =
          (ws.flatMap u32Bytes ++ rest).drop (4 * i) := by
        rw [List.flatMap_cons, List.append_assoc, Nat.mul_add, Nat.mul_one, Nat.add_comm, ← List.drop_drop,
          List.drop_left' (by rw [u32Bytes_eq, length_bytes])]
      have hrest := ih i (by simpa using hi)
      rw [rdWord] at hrest
      rw [rdWord, hdrop, hrest]
      rfl

theorem rdWord_ofWords (ws : List ℕ) (i : ℕ) (hi : i < ws.length) :
    rdWord (ws.flatMap u32Bytes) i = ws[i] % 2 ^ 32 := by
  rw [← rdWord_words ws [] i hi, List.append_nil]

/-- The number is a C `int`. -/
def IsInt (z : ℤ) : Prop :=
  -2 ^ 31 ≤ z ∧ z < 2 ^ 31

theorem natCast_u32 (z : ℤ) : ((u32 z % 2 ^ 32 : ℕ) : ℤ) = z % ((2 ^ 32 : ℕ) : ℤ) := by
  unfold u32
  push_cast
  omega

theorem rdInt_eq {bs : List UInt8} {i : ℕ} {z : ℤ} (hz : IsInt z) (h : rdWord bs i = u32 z % 2 ^ 32) :
    rdInt bs i = z := by
  have hcast := natCast_u32 z
  unfold IsInt at hz
  unfold rdInt
  rw [h]
  split_ifs with hlt <;> omega

/-! ## Blocks -/

theorem BlockState.ofStored_toNat (s : BlockState) : BlockState.ofStored s.toNat = s := by
  cases s <;> rfl

theorem BlockState.toNat_lt (s : BlockState) : s.toNat < 2 ^ 4 := by
  cases s <;> decide

/-- The fields of a block have room in `struct yaffs_block_info`. -/
structure BlockInfo.Fits (bi : BlockInfo) : Prop where
  softDelPages : 0 ≤ bi.softDelPages ∧ bi.softDelPages < 2 ^ 10
  pagesInUse : 0 ≤ bi.pagesInUse ∧ bi.pagesInUse < 2 ^ 10
  chunkErrorStrikes : bi.chunkErrorStrikes < 2 ^ 3
  seqNumber : bi.seqNumber < 2 ^ 32

/-- The bit fields of a block below its state. -/
def BlockInfo.lowFields (bi : BlockInfo) : ℕ :=
  u32 bi.softDelPages % 2 ^ 10 + 2 ^ 10 * (u32 bi.pagesInUse % 2 ^ 10)

/-- The bit fields of a block above its state. -/
def BlockInfo.highFields (bi : BlockInfo) : ℕ :=
  bi.needsRetiring.toNat + 2 * (bi.skipErasedCheck.toNat + 2 * (bi.gcPrioritise.toNat +
    2 * (bi.chunkErrorStrikes % 8 + 8 * (bi.hasSummary.toNat + 2 * bi.hasShrinkHdr.toNat))))

theorem BlockInfo.word_eq (bi : BlockInfo) :
    bi.word = bi.lowFields + 2 ^ 20 * (bi.blockState.toNat + 2 ^ 4 * bi.highFields) := by
  unfold BlockInfo.word BlockInfo.lowFields BlockInfo.highFields
  ring

theorem u32_small {z : ℤ} (h : 0 ≤ z ∧ z < 2 ^ 10) : ((u32 z % 2 ^ 10 : ℕ) : ℤ) = z := by
  unfold u32
  omega

theorem BlockInfo.highFields_lt (bi : BlockInfo) : bi.highFields < 2 ^ 8 := by
  unfold BlockInfo.highFields
  have h1 := Bool.toNat_le bi.needsRetiring
  have h2 := Bool.toNat_le bi.skipErasedCheck
  have h3 := Bool.toNat_le bi.gcPrioritise
  have h4 := Bool.toNat_le bi.hasSummary
  have h5 := Bool.toNat_le bi.hasShrinkHdr
  omega

theorem BlockInfo.lowFields_lt (bi : BlockInfo) : bi.lowFields < 2 ^ 20 := by
  unfold BlockInfo.lowFields
  omega

theorem BlockInfo.word_lt (bi : BlockInfo) : bi.word < 2 ^ 32 := by
  rw [bi.word_eq]
  have := bi.highFields_lt
  have := bi.lowFields_lt
  have := bi.blockState.toNat_lt
  omega

theorem decide_toNat (b : Bool) : decide (b.toNat = 1) = b := by
  cases b <;> rfl

/-- A block is read from the words that were stored of it. -/
theorem BlockInfo.ofWords_word {bi : BlockInfo} (h : bi.Fits) :
    BlockInfo.ofWords (bi.word % 2 ^ 32) (bi.seqNumber % 2 ^ 32) = bi := by
  rw [Nat.mod_eq_of_lt bi.word_lt, Nat.mod_eq_of_lt h.seqNumber]
  have hsoft := u32_small h.softDelPages
  have huse := u32_small h.pagesInUse
  have hstrikes := h.chunkErrorStrikes
  have hword := bi.word_eq
  unfold BlockInfo.lowFields BlockInfo.highFields at hword
  have hstate := bi.blockState.toNat_lt
  have h1 := Bool.toNat_le bi.needsRetiring
  have h2 := Bool.toNat_le bi.skipErasedCheck
  have h3 := Bool.toNat_le bi.gcPrioritise
  have h4 := Bool.toNat_le bi.hasSummary
  have h5 := Bool.toNat_le bi.hasShrinkHdr
  have hf1 : field 0 10 bi.word = u32 bi.softDelPages % 2 ^ 10 := by unfold field; omega
  have hf2 : field 10 10 bi.word = u32 bi.pagesInUse % 2 ^ 10 := by unfold field; omega
  have hf3 : field 20 4 bi.word = bi.blockState.toNat := by unfold field; omega
  have hf4 : field 24 1 bi.word = bi.needsRetiring.toNat := by unfold field; omega
  have hf5 : field 25 1 bi.word = bi.skipErasedCheck.toNat := by unfold field; omega
  have hf6 : field 26 1 bi.word = bi.gcPrioritise.toNat := by unfold field; omega
  have hf7 : field 27 3 bi.word = bi.chunkErrorStrikes := by unfold field; omega
  have hf8 : field 30 1 bi.word = bi.hasSummary.toNat := by unfold field; omega
  have hf9 : field 31 1 bi.word = bi.hasShrinkHdr.toNat := by unfold field; omega
  unfold BlockInfo.ofWords
  rw [hf1, hf2, hf3, hf4, hf5, hf6, hf7, hf8, hf9, hsoft, huse, BlockState.ofStored_toNat]
  simp only [decide_toNat]

/-- The eight bytes stored of a block. -/
def BlockInfo.entry (bi : BlockInfo) : List UInt8 :=
  u32Bytes bi.word ++ u32Bytes bi.seqNumber

/-- Only the third byte has the state. -/
theorem BlockInfo.entry_state (bi : BlockInfo) (s : BlockState) {m : ℕ} (hm : m ≠ 2) :
    ({ bi with blockState := s } : BlockInfo).entry.getD m 0 = bi.entry.getD m 0 := by
  have hword := bi.word_eq
  have hword' := ({ bi with blockState := s } : BlockInfo).word_eq
  have hlow : ({ bi with blockState := s } : BlockInfo).lowFields = bi.lowFields := rfl
  have hhigh : ({ bi with blockState := s } : BlockInfo).highFields = bi.highFields := rfl
  rw [hlow, hhigh] at hword'
  have hl := bi.lowFields_lt
  have hstate := bi.blockState.toNat_lt
  have hstate' := ({ bi with blockState := s } : BlockInfo).blockState.toNat_lt
  have h0 := ofNat_congr (show ({ bi with blockState := s } : BlockInfo).word % 2 ^ 8 = bi.word % 2 ^ 8 by omega)
  have h1 := ofNat_congr
    (show ({ bi with blockState := s } : BlockInfo).word / 2 ^ 8 % 2 ^ 8 = bi.word / 2 ^ 8 % 2 ^ 8 by omega)
  have h3 := ofNat_congr
    (show ({ bi with blockState := s } : BlockInfo).word / 2 ^ 24 % 2 ^ 8 = bi.word / 2 ^ 24 % 2 ^ 8 by omega)
  unfold BlockInfo.entry u32Bytes
  rcases m with _ | _ | _ | _ | m
  · exact h0
  · exact h1
  · exact absurd rfl hm
  · exact h3
  · rfl

section

variable {g : Geometry}

theorem rdWord_pair (bs : List UInt8) (q : ℕ) : rdWord bs (2 * q) = rdWord ((bs.drop (8 * q)).take 8) 0 ∧
    rdWord bs (2 * q + 1) = rdWord ((bs.drop (8 * q)).take 8) 1 := by
  unfold rdWord
  refine ⟨?_, ?_⟩
  · rw [show 4 * (2 * q) = 8 * q by omega, Nat.mul_zero, List.drop_zero, List.take_take]
    rfl
  · rw [show 4 * (2 * q + 1) = 8 * q + 4 by omega, ← List.drop_drop, Nat.mul_one, List.drop_take, List.take_take]
    rfl

/-- The block table `info` as it is stored, while the blocks with `taken` become checkpoint blocks. -/
structure StoredTable (g : Geometry) (info : ℕ → BlockInfo) (taken : ℕ → Prop) (bs : List UInt8) : Prop where
  length : bs.length = (g.endBlock - g.startBlock + 1) * blockInfoSize
  byte : ∀ i < bs.length, ∃ s, (s = (info (g.startBlock + i / 8)).blockState ∨
      taken (g.startBlock + i / 8) ∧ s = .checkpoint) ∧
    bs.getD i 0 = ({ info (g.startBlock + i / 8) with blockState := s } : BlockInfo).entry.getD (i % 8) 0

/-- Every block is read back, with its state before or after it was taken. -/
theorem StoredTable.read {info : ℕ → BlockInfo} {taken : ℕ → Prop} {bs : List UInt8}
    (h : StoredTable g info taken bs) {b : ℕ} (hlo : g.startBlock ≤ b) (hhi : b ≤ g.endBlock)
    (hfits : (info b).Fits) :
    ∃ s, (s = (info b).blockState ∨ taken b ∧ s = .checkpoint) ∧
      BlockInfo.ofWords (rdWord bs (2 * (b - g.startBlock))) (rdWord bs (2 * (b - g.startBlock) + 1)) =
        { info b with blockState := s } := by
  obtain ⟨q, rfl⟩ : ∃ q, b = g.startBlock + q := ⟨b - g.startBlock, by omega⟩
  rw [Nat.add_sub_cancel_left]
  have hlen := h.length
  have hle : 8 * q + 8 ≤ bs.length := by
    rw [hlen, blockInfoSize]
    omega
  have hbyte : ∀ m < 8, ∃ s, (s = (info (g.startBlock + q)).blockState ∨ taken (g.startBlock + q) ∧
      s = .checkpoint) ∧
      bs.getD (8 * q + m) 0 = ({ info (g.startBlock + q) with blockState := s } : BlockInfo).entry.getD m 0 := by
    intro m hm
    have hget := h.byte (8 * q + m) (by omega)
    rwa [show (8 * q + m) / 8 = q by omega, show (8 * q + m) % 8 = m by omega] at hget
  obtain ⟨s, hs, hstate⟩ := hbyte 2 (by omega)
  refine ⟨s, hs, ?_⟩
  have hentry : (bs.drop (8 * q)).take 8 =
      [({ info (g.startBlock + q) with blockState := s } : BlockInfo).word,
        ({ info (g.startBlock + q) with blockState := s } : BlockInfo).seqNumber].flatMap u32Bytes := by
    refine List.ext_getElem (by rw [length_wordBytes]; simp; omega) fun m hm _ => ?_
    have hm8 : m < 8 := by
      rw [List.length_take] at hm
      omega
    have hleft : ((bs.drop (8 * q)).take 8)[m] = bs.getD (8 * q + m) 0 := by
      rw [List.getElem_take, List.getElem_drop, List.getD_eq_getElem]
    rw [hleft, ← List.getD_eq_getElem _ 0]
    change _ = ({ info (g.startBlock + q) with blockState := s } : BlockInfo).entry.getD m 0
    by_cases h2 : m = 2
    · rw [h2, hstate]
    · obtain ⟨s', -, hm'⟩ := hbyte m hm8
      rw [hm', BlockInfo.entry_state _ s' h2, BlockInfo.entry_state _ s h2]
  have hfits' : ({ info (g.startBlock + q) with blockState := s } : BlockInfo).Fits :=
    ⟨hfits.softDelPages, hfits.pagesInUse, hfits.chunkErrorStrikes, hfits.seqNumber⟩
  rw [(rdWord_pair bs q).1, (rdWord_pair bs q).2, hentry, rdWord_ofWords _ 0 (by simp),
    rdWord_ofWords _ 1 (by simp)]
  exact BlockInfo.ofWords_word hfits'

/-! ## Chunks in use -/

/-- `yaffs_check_chunk_bit` on the bitmap that was stored. -/
theorem chunkBitAt_stored {d : BlockDev} {bits : List UInt8} (hlen : bits.length = (chunkBitsRecord g).size)
    (hbits : ∀ i < bits.length, bits.getD i 0 = (chunkBitsRecord g).byteAt d i) {b page : ℕ}
    (hlo : g.startBlock ≤ b)
    (hhi : b ≤ g.endBlock) (hpage : page < g.chunksPerBlock) :
    chunkBitAt g bits b page = d.chunkBits (b * g.chunksPerBlock + page) := by
  have hstride : page / 8 < g.chunkBitStride := by
    unfold Param.chunkBitStride
    omega
  have hi : (b - g.startBlock) * g.chunkBitStride + page / 8 < bits.length := by
    rw [hlen]
    calc (b - g.startBlock) * g.chunkBitStride + page / 8 < (b - g.startBlock + 1) * g.chunkBitStride := by
          rw [Nat.add_mul, Nat.one_mul]
          omega
      _ ≤ (g.endBlock - g.startBlock + 1) * g.chunkBitStride := Nat.mul_le_mul_right _ (by omega)
  have hdiv : ((b - g.startBlock) * g.chunkBitStride + page / 8) / g.chunkBitStride = b - g.startBlock := by
    rw [Nat.mul_comm, Nat.mul_add_div (by omega), Nat.div_eq_of_lt hstride, Nat.add_zero]
  have hmod : ((b - g.startBlock) * g.chunkBitStride + page / 8) % g.chunkBitStride = page / 8 := by
    rw [Nat.mul_comm, Nat.mul_add_mod, Nat.mod_eq_of_lt hstride]
  have hbyte : (chunkBitsRecord g).byteAt d ((b - g.startBlock) * g.chunkBitStride + page / 8) =
      UInt8.ofNat (bitsBelow (fun j => 8 * (page / 8) + j < g.chunksPerBlock ∧
        d.chunkBits (b * g.chunksPerBlock + (8 * (page / 8) + j)) = true) 8) := by
    unfold chunkBitsRecord
    dsimp only
    rw [hdiv, hmod, Nat.add_sub_of_le hlo]
    rfl
  unfold chunkBitAt
  rw [hbits _ hi, hbyte]
  have hlt := bitsBelow_lt (fun j => 8 * (page / 8) + j < g.chunksPerBlock ∧
        d.chunkBits (b * g.chunksPerBlock + (8 * (page / 8) + j)) = true) 8
  rw [UInt8.toNat_ofNat_of_lt' hlt, field_bitsBelow _ (Nat.mod_lt page (by decide)), Nat.div_add_mod]
  by_cases hbit : d.chunkBits (b * g.chunksPerBlock + page) = true <;> simp [hbit, hpage]

/-! ## Tnodes -/

/-- The groups of a tnode are of the width it has room for. -/
def Tnode.Narrow (g : Geometry) (t : Tnode 0) : Prop :=
  ∀ i, t.group i < 2 ^ g.tnodeWidth

/-- A tnode is read from the bytes that were stored of it. -/
theorem tnodeOfBytes_tnodeBytes {t : Tnode 0} (h : t.Narrow g) : tnodeOfBytes g (tnodeBytes g t) = t := by
  have hsum : ((List.finRange 16).map fun i => t.group i * 2 ^ (g.tnodeWidth * i.val)).sum =
      Nat.ofDigits (2 ^ g.tnodeWidth) (List.ofFn t.group) := sum_shifts _ _
  have hall : ∀ v ∈ List.ofFn t.group, v < 2 ^ g.tnodeWidth := fun v hv => by
    obtain ⟨i, rfl⟩ := List.mem_ofFn.mp hv
    exact h i
  have hwidth : 16 ≤ g.tnodeWidth := by
    unfold Param.tnodeWidth
    split_ifs
    · exact le_rfl
    · exact Nat.le_max_left _ _
  have hlt : Nat.ofDigits (2 ^ g.tnodeWidth) (List.ofFn t.group) < 2 ^ (8 * g.tnodeSize) := by
    have hbase := Nat.ofDigits_lt_base_pow_length (Nat.one_lt_two_pow (by omega)) hall
    rw [List.length_ofFn, ← Nat.pow_mul] at hbase
    refine hbase.trans_le (Nat.pow_le_pow_right (by decide) ?_)
    unfold Param.tnodeSize
    omega
  have hnum : number (tnodeBytes g t) = Nat.ofDigits (2 ^ g.tnodeWidth) (List.ofFn t.group) := by
    unfold tnodeBytes
    rw [hsum]
    exact number_bytes_of_lt hlt
  funext i
  unfold tnodeOfBytes
  rw [hnum, field_ofDigits hall (by simp), List.getElem_ofFn]
  rfl

theorem length_tnodeBytes (t : Tnode 0) : (tnodeBytes g t).length = g.tnodeSize := by
  simp [tnodeBytes]

end

/-! ## Objects -/

/-- The word of the bit fields of `struct yaffs_checkpt_obj`. -/
def Obj.checkptBits (ob : Obj) : ℕ :=
  ob.variantType.toNat + 2 ^ 3 * ob.deleted.toNat + 2 ^ 4 * ob.softDel.toNat + 2 ^ 5 * ob.unlinked.toNat +
    2 ^ 6 * ob.fake.toNat + 2 ^ 7 * ob.renameAllowed.toNat + 2 ^ 8 * ob.unlinkAllowed.toNat

/-- `size_or_equiv_obj`. -/
def Obj.sizeOrEquiv (ob : Obj) : ℕ :=
  if ob.variantType = .file then ob.file.fileSize else if ob.variantType = .hardlink then ob.equivId else 0

/-- The words stored of an object. -/
def objWords (o : ℕ) (ob : Obj) : List ℕ :=
  [checkptObjSize, o, ob.parent.getD 0, ob.hdrChunk, ob.checkptBits, u32 ob.nDataChunks,
    ob.sizeOrEquiv % 2 ^ 32, ob.sizeOrEquiv / 2 ^ 32]

/-- The bytes stored of an object. -/
def objCp (o : ℕ) (ob : Obj) : List UInt8 :=
  (objWords o ob).flatMap u32Bytes

theorem length_objCp (o : ℕ) (ob : Obj) : (objCp o ob).length = checkptObjSize :=
  length_wordBytes _

/-- The fields of an object have room in `struct yaffs_checkpt_obj`. -/
structure Obj.Fits (ob : Obj) : Prop where
  type : ∀ n, ob.variantType ≠ .other n
  hdrChunk : ob.hdrChunk < 2 ^ 32
  nDataChunks : IsInt ob.nDataChunks
  fileSize : ob.file.fileSize < 2 ^ 64
  equivId : ob.equivId < 2 ^ 32

theorem ObjType.ofStored_toNat {t : ObjType} (h : ∀ n, t ≠ .other n) :
    t.toNat < 2 ^ 3 ∧ ObjType.ofStored t.toNat = t := by
  cases t <;> first | exact ⟨by decide, rfl⟩ | exact absurd rfl (h _)

/-- What is read of an object is what was stored. -/
structure StoredObj (o : ℕ) (ob : Obj) (cp : List UInt8) : Prop where
  structType : rdWord cp 0 = checkptObjSize
  objId : rdWord cp 1 = o
  parentId : rdWord cp 2 = ob.parent.getD 0
  hdrChunk : rdWord cp 3 = ob.hdrChunk
  variantType : ObjType.ofStored (checkptObjBitGet cp 0 3) = ob.variantType
  flag : checkptObjBitGet cp 3 1 = ob.deleted.toNat ∧ checkptObjBitGet cp 4 1 = ob.softDel.toNat ∧
    checkptObjBitGet cp 5 1 = ob.unlinked.toNat ∧ checkptObjBitGet cp 6 1 = ob.fake.toNat ∧
    checkptObjBitGet cp 7 1 = ob.renameAllowed.toNat ∧ checkptObjBitGet cp 8 1 = ob.unlinkAllowed.toNat
  nDataChunks : rdInt cp 5 = ob.nDataChunks
  size : number ((cp.drop 24).take 8) = ob.sizeOrEquiv

theorem storedObj_objCp {o : ℕ} {ob : Obj} (h : ob.Fits) (ho : o < 2 ^ 32)
    (hp : ∀ p, ob.parent = some p → p < 2 ^ 32) :
    StoredObj o ob (objCp o ob) := by
  obtain ⟨htlt, htype⟩ := ObjType.ofStored_toNat h.type
  have h1 := Bool.toNat_le ob.deleted
  have h2 := Bool.toNat_le ob.softDel
  have h3 := Bool.toNat_le ob.unlinked
  have h4 := Bool.toNat_le ob.fake
  have h5 := Bool.toNat_le ob.renameAllowed
  have h6 := Bool.toNat_le ob.unlinkAllowed
  have hword : ∀ i < 8, rdWord (objCp o ob) i = (objWords o ob).getD i 0 % 2 ^ 32 := fun i hi => by
    rw [objCp, rdWord_ofWords (objWords o ob) i hi, List.getD_eq_getElem _ _ hi]
  have hparent : ob.parent.getD 0 < 2 ^ 32 := by
    cases hpar : ob.parent with
    | none => decide
    | some p => exact hp p hpar
  have hbits : rdWord (objCp o ob) 4 = ob.checkptBits := by
    refine (hword 4 (by decide)).trans (Nat.mod_eq_of_lt ?_)
    change ob.checkptBits < 2 ^ 32
    unfold Obj.checkptBits
    omega
  have hfield : ∀ off width, checkptObjBitGet (objCp o ob) off width = field off width ob.checkptBits :=
      fun off width => by
    rw [checkptObjBitGet, hbits]
  have hsize : ob.sizeOrEquiv < 2 ^ 64 := by
    have := h.equivId
    have := h.fileSize
    unfold Obj.sizeOrEquiv
    split_ifs <;> omega
  unfold Obj.checkptBits at hfield
  refine ⟨hword 0 (by decide), (hword 1 (by decide)).trans (Nat.mod_eq_of_lt ho),
    (hword 2 (by decide)).trans (Nat.mod_eq_of_lt hparent), (hword 3 (by decide)).trans
      (Nat.mod_eq_of_lt h.hdrChunk),
    ?_, ?_, ?_, ?_⟩
  · rw [hfield]
    refine (congrArg ObjType.ofStored ?_).trans htype
    unfold field
    omega
  · simp only [hfield, field]
    omega
  · exact rdInt_eq h.nDataChunks (hword 5 (by decide))
  · have hbytes : (objCp o ob).drop 24 = u32Bytes (ob.sizeOrEquiv % 2 ^ 32) ++ u32Bytes (ob.sizeOrEquiv / 2 ^ 32) :=
    rfl
    rw [hbytes, List.take_of_length_le (by simp [u32Bytes_eq]), number_append, u32Bytes_eq, u32Bytes_eq,
      number_bytes,
      number_bytes, length_bytes]
    omega

end Yaffs
