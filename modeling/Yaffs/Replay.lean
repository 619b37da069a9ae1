import Mathlib.Data.Nat.Bitwise
import Yaffs.Run
import Yaffs.Stream

/-!
# Reading the checkpoint stream back

What `yaffs2_checkpt_rd` finds of the pages `yaffs2_checkpt_wr` has written, and when the stream gives
back what was put into it.
-/

namespace Yaffs

open Paging

section

variable {p : Param} {e : Env} {E : List ℕ} {W : List UInt8} {j : ℕ} {d d₁ : BlockDev}

/-! ## What is on flash -/

theorem and_eq_zero_of_lt {n : ℕ} (h : n < 2 ^ 31) : n &&& 0x80000000 = 0 := by
  have hand := Nat.two_pow_and n 31
  rw [Nat.testBit_lt_two_pow h, Bool.toNat_false, Nat.mul_zero, Nat.and_comm] at hand
  exact hand

/-- The tags of a page of the stream, as they are read. -/
theorem pageTags_streamPage {t : ExtTags} (hj : j + 1 < 2 ^ 31)
    (hb : nextFrom p.startBlock E (j / p.chunksPerBlock + 1) < 2 ^ 31) :
    (pageTags (some (streamPage p E W t j))).seqNumber = sequenceCheckpointData ∧
    (pageTags (some (streamPage p E W t j))).chunkId = j + 1 ∧
    (pageTags (some (streamPage p E W t j))).objId = nextFrom p.startBlock E (j / p.chunksPerBlock + 1) := by
  have hpack : packTags2TagsOnly (streamPage p E W t j).tags =
      ⟨nextFrom p.startBlock E (j / p.chunksPerBlock + 1), j + 1, p.dataBytesPerChunk⟩ := by
    unfold packTags2TagsOnly
    rw [if_neg (by simp [streamPage, ExtTags.extraPackable])]
    rfl
  have hflag : (j + 1) % 2 ^ 32 &&& 0x80000000 = 0 := by
    rw [Nat.mod_eq_of_lt (by omega)]
    exact and_eq_zero_of_lt hj
  have hread : pageTags (some (streamPage p E W t j)) =
      { chunkUsed := true, objId := nextFrom p.startBlock E (j / p.chunksPerBlock + 1) % 2 ^ 32
        chunkId := (j + 1) % 2 ^ 32, nBytes := p.dataBytesPerChunk % 2 ^ 32
        seqNumber := sequenceCheckpointData } := by
    simp only [pageTags, hpack]
    rw [unpackTags2TagsOnly, if_neg (by simp [streamPage, sequenceCheckpointData])]
    simp only [SummaryTags.stored, hflag, ne_eq, not_true_eq_false, if_false]
    rfl
  rw [hread]
  exact ⟨rfl, Nat.mod_eq_of_lt (by omega), Nat.mod_eq_of_lt (by omega)⟩

/-- A device with its checkpoint blocks erased : its empty blocks are not marked bad, and no other
block of it begins like one of a checkpoint, unless it is marked bad. -/
structure LaidOut (p : Param) (d : BlockDev) : Prop where
  erased : ∀ b, p.startBlock ≤ b → b ≤ p.endBlock → (d.blockInfo b).blockState = .empty →
    d.nand.markedBad b = false
  used : ∀ b, p.startBlock ≤ b → b ≤ p.endBlock → (d.blockInfo b).blockState ≠ .empty →
    isCheckptBlock p d.nand b = false

/-- The first `j` pages of the stream `W` can be read from flash. -/
structure Readable (p : Param) (d₁ : BlockDev) (W : List UInt8) (j : ℕ) (nand : Nand) : Prop where
  le : j ≤ (emptyBlocks p d₁).length * p.chunksPerBlock
  page : ∀ i < j, ∃ t,
    nand.flash (streamChunk p (emptyBlocks p d₁) i) = some (streamPage p (emptyBlocks p d₁) W t i)
  other : ∀ c, (∀ i < j, c ≠ streamChunk p (emptyBlocks p d₁) i) → nand.flash c = d₁.nand.flash c
  bad : nand.markedBad = d₁.nand.markedBad

theorem emptyBlocks_getElem {q b : ℕ} (h : (emptyBlocks p d₁)[q]? = some b) :
    p.startBlock ≤ b ∧ b ≤ p.endBlock ∧ (d₁.blockInfo b).blockState = .empty := by
  obtain ⟨hlt, rfl⟩ := List.getElem?_eq_some_iff.mp h
  obtain ⟨h1, h2, h3⟩ := mem_hits.mp (List.getElem_mem hlt)
  exact ⟨h1, Nat.le_of_lt_succ h2, of_decide_eq_true h3⟩

theorem start_le_nextFrom {q : ℕ} (hq : q ≤ (emptyBlocks p d₁).length) :
    p.startBlock ≤ nextFrom p.startBlock (emptyBlocks p d₁) q := by
  cases q with
  | zero => exact le_rfl
  | succ q =>
    have hget := List.getElem?_eq_getElem (show q < (emptyBlocks p d₁).length by omega)
    rw [nextFrom_succ hget]
    exact (emptyBlocks_getElem hget).1.trans (Nat.le_succ _)

/-- There are no more pages than chunk numbers. -/
theorem page_lt (hsmall : p.chunksPerBlock * (p.endBlock + 1) < 2 ^ 31) {i : ℕ}
    (hi : i < (emptyBlocks p d₁).length * p.chunksPerBlock) : i + 1 < 2 ^ 31 := by
  have hlen : (emptyBlocks p d₁).length ≤ p.endBlock + 1 := length_hits_le.trans (Nat.sub_le _ _)
  have := Nat.mul_le_mul_right p.chunksPerBlock hlen
  rw [Nat.mul_comm (p.endBlock + 1)] at this
  omega

/-- A block that was in use begins as it did. -/
theorem Readable.isCheckptBlock_used {nand : Nand} (hp : 0 < p.chunksPerBlock) (h : Readable p d₁ W j nand)
    (hlay : LaidOut p d₁) {b : ℕ} (h1 : p.startBlock ≤ b) (h2 : b ≤ p.endBlock)
    (hb : (d₁.blockInfo b).blockState ≠ .empty) : isCheckptBlock p nand b = false := by
  rw [← hlay.used b h1 h2 hb, isCheckptBlock, isCheckptBlock, h.bad, h.other]
  intro i hi heq
  have hdiv := streamChunk_div hp (emptyBlocks p d₁) i
  have hlt : i / p.chunksPerBlock < (emptyBlocks p d₁).length :=
    (Nat.div_lt_iff_lt_mul hp).mpr (hi.trans_le h.le)
  rw [← heq, Nat.mul_div_cancel _ hp, List.getD_eq_getElem?_getD, List.getElem?_eq_getElem hlt,
    Option.getD_some] at hdiv
  exact hb (hdiv ▸ (emptyBlocks_getElem (List.getElem?_eq_getElem hlt)).2.2)

/-- The reader finds the blocks in the order in which they were written. -/
theorem Readable.firstFrom {nand : Nand} (hp : 0 < p.chunksPerBlock) (h : Readable p d₁ W j nand)
    (hlay : LaidOut p d₁) (hsmall : p.chunksPerBlock * (p.endBlock + 1) < 2 ^ 31) {q : ℕ}
    (hq : q * p.chunksPerBlock < j) : ∃ b, (emptyBlocks p d₁)[q]? = some b ∧
      Paging.firstFrom (isCheckptBlock p nand) (nextFrom p.startBlock (emptyBlocks p d₁) q) (p.endBlock + 1) = some b ∧
      (pageTags (nand.flash (b * p.chunksPerBlock))).objId = nextFrom p.startBlock (emptyBlocks p d₁) (q + 1) := by
  have hlt : q < (emptyBlocks p d₁).length := Nat.lt_of_mul_lt_mul_right (hq.trans_le h.le)
  have hget := List.getElem?_eq_getElem hlt
  generalize (emptyBlocks p d₁)[q] = b at hget
  obtain ⟨hb1, hb2, hempty⟩ := emptyBlocks_getElem hget
  obtain ⟨hnext, -, hbetween⟩ := hits_between hget
  -- The first page of the block is a page of the stream.
  have hchunk : streamChunk p (emptyBlocks p d₁) (q * p.chunksPerBlock) = b * p.chunksPerBlock := by
    rw [streamChunk, Nat.mul_mod_left, Nat.mul_div_cancel _ hp, List.getD_eq_getElem?_getD, hget, Option.getD_some,
      Nat.add_zero]
  obtain ⟨t, ht⟩ := h.page _ hq
  have hq31 : q * p.chunksPerBlock + 1 < 2 ^ 31 := page_lt hsmall (hq.trans_le h.le)
  have hb31 : b + 1 < 2 ^ 31 := by
    have : p.endBlock + 1 ≤ p.chunksPerBlock * (p.endBlock + 1) := Nat.le_mul_of_pos_left _ hp
    omega
  have hsucc : nextFrom p.startBlock (emptyBlocks p d₁) (q * p.chunksPerBlock / p.chunksPerBlock + 1) = b + 1 := by
    rw [Nat.mul_div_cancel _ hp, nextFrom_succ hget]
  obtain ⟨hseq, -, hobj⟩ := pageTags_streamPage (E := emptyBlocks p d₁) (W := W) (t := t) hq31 (hsucc ▸ hb31)
  rw [← ht, hchunk] at hseq hobj
  refine ⟨b, hget, firstFrom_eq_some.mpr ⟨?_, hnext, Nat.lt_succ_of_le hb2, fun b' h1 h2 => ?_⟩, ?_⟩
  · rw [isCheckptBlock, hseq, h.bad, hlay.erased b hb1 hb2 hempty]
    rfl
  · refine h.isCheckptBlock_used hp hlay ((start_le_nextFrom hlt.le).trans h1) (by omega) fun he => ?_
    have := hbetween b' h1 h2
    simp [he] at this
  · rw [hobj, Nat.mul_div_cancel _ hp]

/-- A page of the stream is in the buffer, and its byte `r` of the stream is the next. -/
structure Loaded (p : Param) (d₁ : BlockDev) (W : List UInt8) (r j : ℕ) (d : BlockDev) : Prop where
  lo : j * p.payload ≤ r
  hi : r < (j + 1) * p.payload
  cursor : CursorAt p (emptyBlocks p d₁) (j + 1) d.checkpt
  byteOffs : d.checkpt.byteOffs = checkptHdrSize + (r - j * p.payload)
  buffer : d.checkpt.buffer = pad p.payload 0 (page p.payload W j)
  sum : d.checkpt.sum = byteSum (W.take r)
  xor : d.checkpt.xor = byteXor (W.take r)
  blocks : d.blocksInCheckpt = j / p.chunksPerBlock + 1

/-- The reader behind `r` bytes of the stream, in which it has read `j` pages. -/
structure Behind (p : Param) (d₁ : BlockDev) (W : List UInt8) (r j : ℕ) (d : BlockDev) : Prop where
  lo : r ≤ j * p.payload
  hi : j * p.payload < r + p.payload
  cursor : CursorAt p (emptyBlocks p d₁) j d.checkpt
  byteOffs : d.checkpt.byteOffs + (j * p.payload - r) = checkptHdrSize + p.payload
  buffer : ∀ i, j = i + 1 → d.checkpt.buffer = pad p.payload 0 (page p.payload W i)
  sum : d.checkpt.sum = byteSum (W.take r)
  xor : d.checkpt.xor = byteXor (W.take r)
  blocks : d.blocksInCheckpt = if j = 0 then 0 else (j - 1) / p.chunksPerBlock + 1

/-- In the middle of a page, the page is in the buffer. -/
theorem Behind.loaded {r : ℕ} (h : Behind p d₁ W r (j + 1) d) (hlt : r < (j + 1) * p.payload) :
    Loaded p d₁ W r j d := by
  have hhi := h.hi
  have hoff := h.byteOffs
  rw [Nat.add_mul, Nat.one_mul] at hhi hlt hoff
  refine ⟨by omega, by rw [Nat.add_mul, Nat.one_mul]; exact hlt, h.cursor, by omega, h.buffer j rfl, h.sum, h.xor, ?_⟩
  simpa using h.blocks

/-- The page at which the cursor stands is read, and has the header that is expected. -/
theorem checkptReadPage_ok {r m : ℕ} (hp : 0 < p.chunksPerBlock) (hP : 0 < p.payload)
    (hsmall : p.chunksPerBlock * (p.endBlock + 1) < 2 ^ 31) (hread : Readable p d₁ W m d.nand) (hj : j < m)
    (hon : CursorOn p (emptyBlocks p d₁) j d.checkpt) (hr : r = j * p.payload)
    (hsum : d.checkpt.sum = byteSum (W.take r)) (hxor : d.checkpt.xor = byteXor (W.take r))
    (hblocks : d.blocksInCheckpt = j / p.chunksPerBlock + 1) :
    ∃ b, d.checkpt.curBlock = some b ∧ (checkptReadPage p b d).2 = true ∧
      Loaded p d₁ W r j (checkptReadPage p b d).1 ∧ (checkptReadPage p b d).1.nand = d.nand ∧
      (checkptReadPage p b d).1.checkpt.maxBlocks = d.checkpt.maxBlocks := by
  have hlt := (Nat.div_lt_iff_lt_mul hp).mpr (hj.trans_le hread.le)
  have hget := List.getElem?_eq_getElem hlt
  generalize (emptyBlocks p d₁)[j / p.chunksPerBlock] = b at hget
  obtain ⟨t, ht⟩ := hread.page j hj
  have hchunk : b * p.chunksPerBlock + d.checkpt.curChunk = streamChunk p (emptyBlocks p d₁) j := by
    rw [streamChunk, List.getD_eq_getElem?_getD, hget, Option.getD_some, hon.curChunk]
  have hb31 : nextFrom p.startBlock (emptyBlocks p d₁) (j / p.chunksPerBlock + 1) < 2 ^ 31 := by
    rw [nextFrom_succ hget]
    have := (emptyBlocks_getElem hget).2.1
    have : p.endBlock + 1 ≤ p.chunksPerBlock * (p.endBlock + 1) := Nat.le_mul_of_pos_left _ hp
    omega
  obtain ⟨hseq, hid, -⟩ := pageTags_streamPage (E := emptyBlocks p d₁) (W := W) (t := t)
    (page_lt hsmall (hj.trans_le hread.le)) hb31
  refine ⟨b, hon.curBlock.trans hget, ?_⟩
  have hhdr : streamHdr p W j = ⟨checkpointVersion, d.checkpt.pageSeq, d.checkpt.sum, d.checkpt.xor.toNat⟩ := by
    rw [streamHdr, hon.pageSeq, hsum, hxor, hr]
  have hmatch : ¬(j + 1 ≠ d.checkpt.pageSeq + 1 ∨ sequenceCheckpointData ≠ sequenceCheckpointData) := by
    simp [hon.pageSeq]
  have heq : checkptReadPage p b d = ({ d with checkpt := CheckptCursor.next p { d.checkpt with
      bufferHdr := streamHdr p W j
      buffer := pad p.payload 0 (page p.payload W j)
      byteOffs := checkptHdrSize } }, true) := by
    unfold checkptReadPage
    rw [hchunk, ht]
    simp only [hid, hseq, if_neg hmatch]
    simp only [Option.elim_some, streamPage, PageData.checkptChunk, checkptCheckChunkHdr, hhdr, decide_true, if_true]
  rw [heq]
  have hnext := hon.next hp
  exact ⟨rfl, ⟨hr.ge, by rw [hr, Nat.add_mul, Nat.one_mul]; omega,
    ⟨hnext.pageSeq, hnext.closed, hnext.opened⟩, by rw [hr, Nat.sub_self]; rfl, rfl, hsum, hxor, hblocks⟩, rfl, rfl⟩

/-- The next page of the stream is read. -/
theorem checkptFetch_ok {r m : ℕ} (hp : 0 < p.chunksPerBlock) (hP : 0 < p.payload)
    (hsmall : p.chunksPerBlock * (p.endBlock + 1) < 2 ^ 31) (hlay : LaidOut p d₁)
    (hread : Readable p d₁ W m d.nand) (hj : j < m) (hmax : j < d.checkpt.maxBlocks * p.chunksPerBlock)
    (h : Behind p d₁ W r j d) (hr : r = j * p.payload) :
    (checkptFetch p d).2 = true ∧ Loaded p d₁ W r j (checkptFetch p d).1 ∧
    (checkptFetch p d).1.nand = d.nand ∧ (checkptFetch p d).1.checkpt.maxBlocks = d.checkpt.maxBlocks := by
  unfold checkptFetch
  by_cases hmod : j % p.chunksPerBlock = 0
  · obtain ⟨hcur, hnext⟩ := h.cursor.closed hmod
    have hmul : j / p.chunksPerBlock * p.chunksPerBlock = j := by
      have := Nat.div_add_mod' j p.chunksPerBlock
      omega
    obtain ⟨b, hget, hfirst, hobj⟩ := hread.firstFrom hp hlay hsmall (q := j / p.chunksPerBlock) (by omega)
    have hfew : d.blocksInCheckpt = j / p.chunksPerBlock := by
      rw [h.blocks]
      split_ifs with h0
      · simp [h0]
      · obtain ⟨i, rfl⟩ : ∃ i, j = i + 1 := ⟨j - 1, by omega⟩
        rcases succ_mod_cases hp i with h1 | h1
        · rw [h1.2.2, Nat.add_sub_cancel]
        · omega
    have hlt : d.blocksInCheckpt < d.checkpt.maxBlocks := by
      rw [hfew]
      exact Nat.lt_of_mul_lt_mul_right (hmul.trans_lt hmax)
    have hfind : checkptNextBlock p d = { d with
        blocksInCheckpt := d.blocksInCheckpt + 1
        checkpt :=
          { d.checkpt with
            nextBlock := some (nextFrom p.startBlock (emptyBlocks p d₁) (j / p.chunksPerBlock + 1))
            curBlock := some b
            blockList := d.checkpt.blockList ++ [b]
            curChunk := 0 } } := by
      unfold checkptNextBlock checkptFindBlock
      rw [if_pos hlt, hnext, Option.bind_some, hfirst]
      simp only [hobj]
    obtain ⟨b', hb', h1, h2, h3, h4⟩ := checkptReadPage_ok (d := checkptNextBlock p d) (r := r) (m := m) (j := j)
      hp hP hsmall (by rw [hfind]; exact hread) hj
      (by rw [hfind]; exact ⟨h.cursor.pageSeq, hget.symm, hmod.symm, rfl⟩) hr
      (by rw [hfind]; exact h.sum) (by rw [hfind]; exact h.xor) (by rw [hfind]; exact congrArg (· + 1) hfew)
    rw [if_pos hcur]
    simp only [hb']
    exact ⟨h1, h2, h3.trans (by rw [hfind]), h4.trans (by rw [hfind])⟩
  · obtain ⟨hcur, -, -⟩ := h.cursor.opened hmod
    have hblocks : d.blocksInCheckpt = j / p.chunksPerBlock + 1 := by
      obtain ⟨i, rfl⟩ : ∃ i, j = i + 1 := ⟨j - 1, by
        have : j ≠ 0 := by
          rintro rfl
          exact hmod (Nat.zero_mod _)
        omega⟩
      rw [h.blocks, if_neg (by omega), Nat.add_sub_cancel]
      rcases succ_mod_cases hp i with h1 | h1
      · omega
      · rw [h1.2.2]
    obtain ⟨b, hb, hok⟩ := checkptReadPage_ok hp hP hsmall hread hj (h.cursor.on hmod) hr h.sum h.xor hblocks
    rw [if_neg (by rw [hb]; simp)]
    simp only [hb]
    exact hok

/-- The byte taken from the buffer is the next one of the stream. -/
theorem Loaded.take {r : ℕ} (h : Loaded p d₁ W r j d) (hr : r < W.length) :
    d.checkpt.take.2 = W.getD r 0 ∧ Behind p d₁ W (r + 1) (j + 1) { d with checkpt := d.checkpt.take.1 } := by
  have hx : d.checkpt.take.2 = W.getD r 0 := by
    change d.checkpt.buffer.getD (d.checkpt.byteOffs - checkptHdrSize) 0 = _
    rw [h.byteOffs, h.buffer, Nat.add_sub_cancel_left, getD_pad_page h.lo h.hi hr]
  have htake : W.take (r + 1) = W.take r ++ [W.getD r 0] := by
    rw [List.take_add_one, List.getElem?_eq_getElem hr, List.getD_eq_getElem?_getD, List.getElem?_eq_getElem hr]
    rfl
  have hlo := h.lo
  have hhi := h.hi
  rw [Nat.add_mul, Nat.one_mul] at hhi
  refine ⟨hx, ⟨by rw [Nat.add_mul, Nat.one_mul]; omega, by rw [Nat.add_mul, Nat.one_mul]; omega,
    ⟨h.cursor.pageSeq, h.cursor.closed, h.cursor.opened⟩, ?_, ?_, ?_, ?_, ?_⟩⟩
  · change d.checkpt.byteOffs + 1 + ((j + 1) * p.payload - (r + 1)) = _
    rw [h.byteOffs, Nat.add_mul, Nat.one_mul]
    omega
  · intro i hi
    obtain rfl : j = i := by omega
    exact h.buffer
  · change (d.checkpt.sum + d.checkpt.take.2.toNat) % 2 ^ 32 = _
    rw [hx, htake, byteSum_concat, h.sum]
  · change d.checkpt.xor ^^^ d.checkpt.take.2 = _
    rw [hx, htake, byteXor_concat, h.xor]
  · rw [if_neg (by omega), Nat.add_sub_cancel]
    exact h.blocks

/-- As long as the stream has bytes, the next one is in the buffer. -/
theorem checkptFill_ok {r m : ℕ} (hp : 0 < p.chunksPerBlock) (hP : 0 < p.payload)
    (hsmall : p.chunksPerBlock * (p.endBlock + 1) < 2 ^ 31) (hlay : LaidOut p d₁) (hread : Readable p d₁ W m d.nand)
    (hmax : r < d.checkpt.maxBlocks * p.chunksPerBlock * p.payload) (h : Behind p d₁ W r j d)
    (hr : r < m * p.payload) :
    (checkptFill p d).2 = true ∧ (∃ i, Loaded p d₁ W r i (checkptFill p d).1) ∧
    (checkptFill p d).1.nand = d.nand ∧ (checkptFill p d).1.checkpt.maxBlocks = d.checkpt.maxBlocks := by
  have hsize : p.dataBytesPerChunk = checkptHdrSize + p.payload := by
    unfold Param.payload at hP ⊢
    omega
  have hoff := h.byteOffs
  have hlo := h.lo
  unfold checkptFill
  by_cases hfull : r = j * p.payload
  · have hj : j < m := Nat.lt_of_mul_lt_mul_right (hfull ▸ hr)
    obtain ⟨hok, hload, hn, hm⟩ := checkptFetch_ok hp hP hsmall hlay hread hj
      (Nat.lt_of_mul_lt_mul_right (hfull ▸ hmax)) h hfull
    rw [if_pos (by rw [hsize, ← hoff, hfull]; omega)]
    exact ⟨hok, ⟨j, hload⟩, hn, hm⟩
  · obtain ⟨i, rfl⟩ : ∃ i, j = i + 1 := ⟨j - 1, by
      have : j ≠ 0 := by
        rintro rfl
        omega
      omega⟩
    rw [if_neg (by omega)]
    exact ⟨rfl, ⟨i, h.loaded (by omega)⟩, rfl, rfl⟩

/-- A call of the reader for bytes the stream has returns them. -/
theorem checkptRd_spec {m mb : ℕ} {nand : Nand} (hp : 0 < p.chunksPerBlock) (hP : 0 < p.payload)
    (hsmall : p.chunksPerBlock * (p.endBlock + 1) < 2 ^ 31) (hlay : LaidOut p d₁) (hread : Readable p d₁ W m nand)
    (hpages : W.length ≤ m * p.payload) (hmax : W.length ≤ mb * p.chunksPerBlock * p.payload) (n : ℕ) :
    ∀ (r : ℕ) (d : BlockDev), r + n ≤ W.length → d.nand = nand → d.checkpt.maxBlocks = mb →
      (∃ j, Behind p d₁ W r j d) →
      (checkptRd p n d).2 = (W.drop r).take n ∧ (checkptRd p n d).1.nand = nand ∧
      (checkptRd p n d).1.checkpt.maxBlocks = mb ∧ ∃ j, Behind p d₁ W (r + n) j (checkptRd p n d).1 := by
  induction n with
  | zero => exact fun r d _ hn hm h => ⟨by simp [checkptRd], hn, hm, h⟩
  | succ n ih =>
    rintro r d hr rfl rfl ⟨j, h⟩
    obtain ⟨hok, ⟨i, hload⟩, hn, hm⟩ := checkptFill_ok hp hP hsmall hlay hread (by omega) h (by omega)
    simp only [checkptRd, if_pos hok]
    generalize (checkptFill p d).1 = x at hload hn hm
    obtain ⟨hbyte, hbehind⟩ := hload.take (by omega)
    obtain ⟨h1, h2, h3, h4⟩ := ih (r + 1) { x with checkpt := x.checkpt.take.1 } (by omega) hn hm ⟨_, hbehind⟩
    refine ⟨?_, h2, h3, by rwa [show r + (n + 1) = r + 1 + n by omega]⟩
    have hdrop : W.drop r = W.getD r 0 :: W.drop (r + 1) := by
      rw [List.drop_eq_getElem_cons (by omega), List.getD_eq_getElem?_getD, List.getElem?_eq_getElem (by omega)]
      rfl
    rw [h1, hbyte, hdrop, List.take_succ_cons]

theorem checkptRdCalls_spec {m mb : ℕ} {nand : Nand} (hp : 0 < p.chunksPerBlock) (hP : 0 < p.payload)
    (hsmall : p.chunksPerBlock * (p.endBlock + 1) < 2 ^ 31) (hlay : LaidOut p d₁) (hread : Readable p d₁ W m nand)
    (hpages : W.length ≤ m * p.payload) (hmax : W.length ≤ mb * p.chunksPerBlock * p.payload) (ns : List ℕ) :
    ∀ (r : ℕ) (d : BlockDev), r + ns.sum = W.length → d.nand = nand → d.checkpt.maxBlocks = mb →
      (∃ j, Behind p d₁ W r j d) →
      (checkptRdCalls p ns d).map List.length = ns ∧ (checkptRdCalls p ns d).flatten = W.drop r := by
  induction ns with
  | nil =>
    intro r d hr _ _ _
    rw [List.sum_nil] at hr
    exact ⟨rfl, by rw [List.drop_of_length_le (by omega)]; rfl⟩
  | cons n ns ih =>
    intro r d hr hn hm h
    rw [List.sum_cons] at hr
    obtain ⟨h1, h2, h3, h4⟩ := checkptRd_spec hp hP hsmall hlay hread hpages hmax n r d (by omega) hn hm h
    obtain ⟨h5, h6⟩ := ih (r + n) _ (by omega) h2 h3 h4
    simp only [checkptRdCalls, List.map_cons, List.flatten_cons, h1, h5, h6]
    refine ⟨?_, ?_⟩
    · rw [List.length_take, List.length_drop, Nat.min_eq_left (by omega)]
    · rw [← List.drop_drop, List.take_append_drop]

/-- Behind the last page there is, or the last it takes, the reader bails out. -/
theorem checkptFetch_ends {r m : ℕ} (hp : 0 < p.chunksPerBlock) (hlay : LaidOut p d₁)
    (hread : Readable p d₁ W m d.nand) (h : Behind p d₁ W r j d)
    (hend : j = roomPages p d₁ ∨ j = d.checkpt.maxBlocks * p.chunksPerBlock) (hmb : 0 < d.checkpt.maxBlocks) :
    (checkptFetch p d).2 = false := by
  have hmod : j % p.chunksPerBlock = 0 := by
    rcases hend with rfl | rfl <;> exact Nat.mul_mod_left _ _
  obtain ⟨hcur, hnext⟩ := h.cursor.closed hmod
  have hnone : (checkptNextBlock p d).checkpt.curBlock = none := by
    unfold checkptNextBlock checkptFindBlock
    rcases hend with hroom | hlimit
    · -- No block behind the last empty one begins like one of a checkpoint.
      have hq : j / p.chunksPerBlock = (emptyBlocks p d₁).length := by
        rw [hroom, roomPages, Nat.mul_div_cancel _ hp]
      have hfirst : firstFrom _ (nextFrom p.startBlock (emptyBlocks p d₁) (j / p.chunksPerBlock)) (p.endBlock + 1) =
          (emptyBlocks p d₁)[j / p.chunksPerBlock]? := firstFrom_next hq.le
      rw [List.getElem?_eq_none hq.ge, firstFrom_eq_none] at hfirst
      have hsearch : firstFrom (isCheckptBlock p d.nand)
          (nextFrom p.startBlock (emptyBlocks p d₁) (j / p.chunksPerBlock)) (p.endBlock + 1) = none := by
        refine firstFrom_eq_none.mpr fun b h1 h2 => ?_
        exact hread.isCheckptBlock_used hp hlay ((start_le_nextFrom hq.le).trans h1) (Nat.le_of_lt_succ h2)
          (of_decide_eq_false (hfirst b h1 h2))
      rw [hnext, Option.bind_some, hsearch, ite_self]
    · have hall : ¬d.blocksInCheckpt < d.checkpt.maxBlocks := by
        obtain ⟨i, hi⟩ : ∃ i, j = i + 1 :=
          ⟨j - 1, by have := Nat.mul_pos hmb hp; omega⟩
        rw [h.blocks, if_neg (by omega), hi, Nat.add_sub_cancel]
        rcases succ_mod_cases hp i with h1 | h1
        · rw [← h1.2.2, ← hi, hlimit, Nat.mul_div_cancel _ hp]
          exact lt_irrefl _
        · rw [← hi] at h1
          omega
      rw [if_neg hall]
  unfold checkptFetch
  rw [if_pos hcur]
  simp only [hnone]

/-- A call for more bytes than the reader gets to returns less than its byte count. -/
theorem checkptRd_ends {m mb lim : ℕ} {nand : Nand} (hp : 0 < p.chunksPerBlock) (hP : 0 < p.payload)
    (hsmall : p.chunksPerBlock * (p.endBlock + 1) < 2 ^ 31) (hlay : LaidOut p d₁) (hread : Readable p d₁ W m nand)
    (hm : lim ≤ m) (hlim : lim = min (roomPages p d₁) (mb * p.chunksPerBlock)) (hmb : 0 < mb)
    (hW : lim * p.payload < W.length) (n : ℕ) : ∀ (r : ℕ) (d : BlockDev), r ≤ lim * p.payload → d.nand = nand →
      d.checkpt.maxBlocks = mb → (∃ j, Behind p d₁ W r j d) →
      r + (checkptRd p n d).2.length ≤ lim * p.payload := by
  induction n with
  | zero => exact fun r d hr _ _ _ => hr
  | succ n ih =>
    rintro r d hr rfl rfl ⟨j, h⟩
    unfold checkptRd
    rcases Nat.lt_or_eq_of_le hr with hlt | heq
    · have hle : lim * p.payload ≤ d.checkpt.maxBlocks * p.chunksPerBlock * p.payload :=
        Nat.mul_le_mul_right _ (hlim ▸ Nat.min_le_right _ _)
      obtain ⟨hok, ⟨i, hload⟩, hn, hb⟩ := checkptFill_ok hp hP hsmall hlay hread (hlt.trans_le hle) h
        (hlt.trans_le (Nat.mul_le_mul_right _ hm))
      simp only [if_pos hok]
      generalize (checkptFill p d).1 = x at hload hn hb
      obtain ⟨-, hbehind⟩ := hload.take (hlt.trans hW)
      have hrest := ih (r + 1) { x with checkpt := x.checkpt.take.1 } hlt hn hb ⟨_, hbehind⟩
      rw [List.length_cons]
      omega
    · obtain rfl : j = lim := by
        have hlo := h.lo
        have hhi := h.hi
        rw [heq] at hlo hhi
        refine Nat.le_antisymm ?_ (Nat.le_of_mul_le_mul_right hlo hP)
        rw [← Nat.succ_mul] at hhi
        exact Nat.le_of_lt_succ (Nat.lt_of_mul_lt_mul_right hhi)
      have hfull : p.dataBytesPerChunk ≤ d.checkpt.byteOffs := by
        have hoff := h.byteOffs
        have hsize : p.dataBytesPerChunk = checkptHdrSize + p.payload := by
          unfold Param.payload at hP ⊢
          omega
        omega
      have hend : j = roomPages p d₁ ∨ j = d.checkpt.maxBlocks * p.chunksPerBlock := by omega
      have hbail : (checkptFill p d).2 = false := by
        unfold checkptFill
        rw [if_pos hfull]
        exact checkptFetch_ends hp hlay hread h hend hmb
      simp only [hbail, Bool.false_eq_true, if_false]
      exact hr

/-- The reader begins before the first page. -/
theorem checkptOpenRead_behind (hP : 0 < p.payload) (W : List UInt8) (d : BlockDev) :
    Behind p d₁ W 0 0 (checkptOpenRead p d) := by
  have hsize : p.dataBytesPerChunk = checkptHdrSize + p.payload := by
    unfold Param.payload at hP ⊢
    omega
  refine ⟨by omega, by omega, ⟨rfl, fun _ => ⟨rfl, ?_⟩, fun hne => absurd (Nat.zero_mod _) hne⟩, ?_, fun i hi => by omega,
    rfl, rfl, rfl⟩
  · rw [Nat.zero_div]
    rfl
  · rw [Nat.zero_mul, Nat.sub_self, ← hsize]
    rfl

/-! ## Closing -/

/-- The pages that hold the bytes `W`. -/
def pagesOf (p : Param) (W : List UInt8) : ℕ :=
  W.length / p.payload + if W.length % p.payload = 0 then 0 else 1

theorem length_le_pagesOf (hP : 0 < p.payload) (W : List UInt8) : W.length ≤ pagesOf p W * p.payload := by
  have := Nat.div_add_mod' W.length p.payload
  have := Nat.mod_lt W.length hP
  unfold pagesOf
  split_ifs
  · rw [Nat.add_zero]
    omega
  · rw [Nat.add_mul, Nat.one_mul]
    omega

theorem pagesOf_le {n : ℕ} (hP : 0 < p.payload) (h : W.length ≤ n * p.payload) : pagesOf p W ≤ n := by
  have hdiv := Nat.div_add_mod' W.length p.payload
  unfold pagesOf
  split_ifs with h0
  · exact Nat.div_le_of_le_mul (by rwa [Nat.mul_comm])
  · exact (Nat.div_lt_iff_lt_mul hP).mpr (by
      rcases Nat.lt_or_eq_of_le h with h1 | h1
      · exact h1
      · rw [h1, Nat.mul_mod_left] at h0
        exact absurd rfl h0)

/-- Closing the stream writes its last page, as far as there is a block for it. -/
theorem checkptClose_readable (hp : 0 < p.chunksPerBlock) (h : Streamed p e d₁ W d)
    (hres : (p.nReservedBlocks : ℤ) < d₁.nErasedBlocks) (hw : ∀ n, e.writeOk n = true) :
    Readable p d₁ W (min (pagesOf p W) (roomPages p d₁)) (checkptClose p e d).nand := by
  have hof : ∀ {j : ℕ} {x : BlockDev}, OnStream p e d₁ W j x → Readable p d₁ W j x.nand := fun hx =>
    ⟨hx.le, hx.page hw, hx.other, hx.bad⟩
  have hle : W.length / p.payload ≤ roomPages p d₁ := h.onStream.le
  unfold checkptClose
  rw [if_pos h.openWrite]
  by_cases hmod : W.length % p.payload = 0
  · rw [if_neg (by rw [h.byteOffs, hmod]; simp)]
    rw [pagesOf, if_pos hmod, Nat.add_zero, Nat.min_eq_left hle]
    have := hof h.onStream
    exact this
  · rw [if_pos (by rw [h.byteOffs]; omega), pagesOf, if_neg hmod]
    rcases Nat.lt_or_eq_of_le hle with hlt | heq
    · rw [Nat.min_eq_left (Nat.succ_le_of_lt hlt)]
      have := hof (checkptFlushBuffer_ok hp h.onStream h.cursor hres hlt h.bufferHdr h.buffer).2.onStream
      exact this
    · obtain ⟨-, hnand, -⟩ := checkptFlushBuffer_full hp h.onStream h.cursor hres heq
      rw [Nat.min_eq_right (by omega), ← heq]
      change Readable p d₁ W _ (checkptFlushBuffer p e d).1.nand
      rw [hnand]
      exact hof h.onStream

/-! ## Opening -/

/-- What flash and the block table agree on before a checkpoint is written : blocks that are empty or
hold a checkpoint are not marked bad, and no others begin like one of a checkpoint, unless they are
marked bad. -/
structure Layout (p : Param) (d : BlockDev) : Prop where
  good : ∀ b, p.startBlock ≤ b → b ≤ p.endBlock → (d.blockInfo b).blockState = .empty ∨
    (d.blockInfo b).blockState = .checkpoint → d.nand.markedBad b = false
  used : ∀ b, p.startBlock ≤ b → b ≤ p.endBlock → (d.blockInfo b).blockState ≠ .checkpoint →
    isCheckptBlock p d.nand b = false

/-- A round of `yaffs_checkpt_erase` : what becomes of the block, and that the others stay. -/
theorem checkptEraseBlock_layout (hp : 0 < p.chunksPerBlock) (hmark : ∀ n, e.markOk n = true)
    (h : Layout p d) (b : ℕ) : Layout p (checkptEraseBlock p e d b) := by
  unfold checkptEraseBlock
  by_cases hb : (d.blockInfo b).blockState = .checkpoint
  · rw [if_pos hb]
    cases hok : e.eraseOk d.nand.calls with
    | true =>
      simp only [eraseBlock, hok, if_true]
      refine ⟨fun b' h1 h2 hs => ?_, fun b' h1 h2 hs => ?_⟩
      · by_cases hbb : b' = b
        · exact h.good b' h1 h2 (Or.inr (hbb ▸ hb))
        · exact h.good b' h1 h2 (by simpa [BlockDev.setState, BlockDev.modBlock, hbb] using hs)
      · by_cases hbb : b' = b
        · subst hbb
          simp [isCheckptBlock, BlockDev.setState, BlockDev.modBlock, Nat.mul_div_cancel _ hp, pageTags,
            sequenceCheckpointData]
        · have hused := h.used b' h1 h2 (by simpa [BlockDev.setState, BlockDev.modBlock, hbb] using hs)
          simpa [isCheckptBlock, BlockDev.setState, BlockDev.modBlock, Nat.mul_div_cancel _ hp, hbb] using hused
    | false =>
      simp only [eraseBlock, hok, Bool.false_eq_true, if_false]
      refine ⟨fun b' h1 h2 hs => ?_, fun b' h1 h2 hs => ?_⟩
      · by_cases hbb : b' = b
        · subst hbb
          simp [BlockDev.setState, BlockDev.modBlock] at hs
        · have hgood := h.good b' h1 h2 (by simpa [BlockDev.setState, BlockDev.modBlock, driverMarkBad, hbb] using hs)
          simpa [BlockDev.setState, BlockDev.modBlock, driverMarkBad, hbb] using hgood
      · by_cases hbb : b' = b
        · subst hbb
          simp [isCheckptBlock, BlockDev.setState, BlockDev.modBlock, driverMarkBad, hmark]
        · have hused := h.used b' h1 h2 (by simpa [BlockDev.setState, BlockDev.modBlock, driverMarkBad, hbb] using hs)
          simpa [isCheckptBlock, BlockDev.setState, BlockDev.modBlock, driverMarkBad, Nat.mul_div_cancel _ hp,
            hbb] using hused
  · rw [if_neg hb]
    exact h

/-- What a round of `yaffs_checkpt_erase` leaves alone. -/
theorem checkptEraseBlock_keeps (d : BlockDev) (b : ℕ) : (checkptEraseBlock p e d b).checkpt = d.checkpt ∧
    d.nErasedBlocks ≤ (checkptEraseBlock p e d b).nErasedBlocks ∧
    ((checkptEraseBlock p e d b).blockInfo b).blockState ≠ .checkpoint ∧
    ∀ b', (d.blockInfo b').blockState ≠ .checkpoint →
      ((checkptEraseBlock p e d b).blockInfo b').blockState ≠ .checkpoint := by
  unfold checkptEraseBlock
  by_cases hb : (d.blockInfo b).blockState = .checkpoint
  · rw [if_pos hb]
    cases hok : e.eraseOk d.nand.calls with
    | true =>
      simp only [eraseBlock, hok, if_true]
      refine ⟨rfl, by simp [BlockDev.setState, BlockDev.modBlock], by simp [BlockDev.setState, BlockDev.modBlock],
        fun b' hb' => ?_⟩
      by_cases hbb : b' = b
      · simp [BlockDev.setState, BlockDev.modBlock, hbb]
      · simpa [BlockDev.setState, BlockDev.modBlock, hbb] using hb'
    | false =>
      simp only [eraseBlock, hok, Bool.false_eq_true, if_false]
      refine ⟨rfl, by simp [BlockDev.setState, BlockDev.modBlock, driverMarkBad],
        by simp [BlockDev.setState, BlockDev.modBlock], fun b' hb' => ?_⟩
      by_cases hbb : b' = b
      · simp [BlockDev.setState, BlockDev.modBlock, hbb]
      · simpa [BlockDev.setState, BlockDev.modBlock, driverMarkBad, hbb] using hb'
  · rw [if_neg hb]
    exact ⟨rfl, le_rfl, hb, fun _ h => h⟩

/-- `yaffs_checkpt_erase` leaves no checkpoint block. -/
theorem foldl_checkptEraseBlock_laidOut (hp : 0 < p.chunksPerBlock) (hmark : ∀ n, e.markOk n = true) (l : List ℕ) :
    ∀ d, Layout p d → Layout p (l.foldl (checkptEraseBlock p e) d) ∧
      (l.foldl (checkptEraseBlock p e) d).checkpt = d.checkpt ∧
      d.nErasedBlocks ≤ (l.foldl (checkptEraseBlock p e) d).nErasedBlocks ∧
      ∀ b, b ∈ l ∨ (d.blockInfo b).blockState ≠ .checkpoint →
        ((l.foldl (checkptEraseBlock p e) d).blockInfo b).blockState ≠ .checkpoint := by
  induction l with
  | nil => exact fun d h => ⟨h, rfl, le_rfl, fun b hb => hb.resolve_left (by simp)⟩
  | cons a l ih =>
    intro d h
    obtain ⟨k1, k2, k3, k4⟩ := checkptEraseBlock_keeps (p := p) (e := e) d a
    obtain ⟨h1, h2, h3, h4⟩ := ih _ (checkptEraseBlock_layout hp hmark h a)
    refine ⟨h1, h2.trans k1, k2.trans h3, fun b hb => h4 b ?_⟩
    rcases hb with hb | hb
    · rcases List.mem_cons.mp hb with rfl | hb
      · exact Or.inr k3
      · exact Or.inl hb
    · exact Or.inr (k4 b hb)

/-- The writer before its first byte. -/
theorem checkptOpen_spec (hp : 0 < p.chunksPerBlock) (hmark : ∀ n, e.markOk n = true) (h : Layout p d)
    (hopen : (checkptOpen p e d).2 = true) : LaidOut p (checkptOpen p e d).1 ∧
      (p.nReservedBlocks : ℤ) < (checkptOpen p e d).1.nErasedBlocks ∧
      Streamed p e (checkptOpen p e d).1 [] (checkptOpen p e d).1 := by
  have hspace : (p.nReservedBlocks : ℤ) < d.nErasedBlocks := by
    unfold checkptOpen at hopen
    dsimp only at hopen
    split_ifs at hopen with hs
    exact of_decide_eq_true hs
  obtain ⟨x, hx, hlayout, hcp, herased⟩ : ∃ x : BlockDev, (checkptOpen p e d).1 = checkptErase p e x ∧ Layout p x ∧
      x.checkpt = { d.checkpt with
        openWrite := true, pageSeq := 0, byteCount := 0, sum := 0, xor := 0
        curBlock := none, curChunk := 0, nextBlock := some p.startBlock
        byteOffs := checkptHdrSize, bufferHdr := ⟨checkpointVersion, 0, 0, 0⟩
        buffer := List.replicate p.payload 0 } ∧ x.nErasedBlocks = d.nErasedBlocks := by
    unfold checkptOpen
    dsimp only
    rw [if_pos (show checkptSpaceOk p { d with checkpt := { d.checkpt with openWrite := true } } = true from
      decide_eq_true hspace)]
    exact ⟨_, rfl, ⟨h.good, h.used⟩, rfl, rfl⟩
  obtain ⟨h1, h2, h3, h4⟩ := foldl_checkptEraseBlock_laidOut (e := e) hp hmark p.blocks x hlayout
  have hmem : ∀ b, p.startBlock ≤ b → b ≤ p.endBlock → b ∈ p.blocks := by
    intro b hb1 hb2
    rw [Param.blocks, List.mem_range'_1]
    omega
  rw [hx]
  refine ⟨⟨fun b hb1 hb2 hs => h1.good b hb1 hb2 (Or.inl hs), fun b hb1 hb2 _ =>
    h1.used b hb1 hb2 (h4 b (Or.inl (hmem b hb1 hb2)))⟩, ?_, ?_⟩
  · exact (herased ▸ hspace).trans_le h3
  · have hcheckpt : (checkptErase p e x).checkpt = x.checkpt := h2
    have hzero : ([] : List UInt8).length / p.payload = 0 := Nat.zero_div _
    refine ⟨?_, ?_, ?_, ?_, ?_, ?_, ?_, ?_⟩
    · rw [hzero]
      exact ⟨Nat.zero_le _, fun _ i hi => absurd hi (Nat.not_lt_zero i), fun _ _ => rfl, fun _ _ => rfl, rfl, rfl⟩
    · rw [hzero, hcheckpt, hcp]
      exact ⟨rfl, fun _ => ⟨rfl, by rw [Nat.zero_div]; rfl⟩, fun hne => absurd (Nat.zero_mod _) hne⟩
    · rw [hcheckpt, hcp, List.length_nil, Nat.zero_mod, Nat.add_zero]
    · rw [hcheckpt, hcp, hzero, streamHdr, Nat.zero_mul]
      rfl
    · rw [hcheckpt, hcp, hzero]
      simp [page, pad]
    · rw [hcheckpt, hcp]
      rfl
    · rw [hcheckpt, hcp]
      rfl
    · rw [hcheckpt, hcp]

/-! ## What the stream promises -/

/-- A call runs out of blocks before its last byte, and no byte is written behind it : `n` bytes have
been written, and the byte `f` is the last one of a page there is no block for. -/
def OverrunShows (f : ℕ) : ℕ → List (List UInt8) → Prop
  | _, [] => False
  | n, bs :: calls =>
    if n + bs.length < f then OverrunShows f (n + bs.length) calls
    else f < n + bs.length ∧ calls.flatten = []

/-- The blocks a reader takes of a checkpoint. -/
def Param.checkptMaxBlocks (p : Param) : ℕ :=
  (p.endBlock - p.startBlock) / 16 + 2

/-- No byte is written; or the bytes end before a flush fails and, if the pages can be written, fit the
empty blocks and what the reader takes of them; or a call shows that they do not. -/
def StreamFits (p : Param) (e : Env) (d₁ : BlockDev) (calls : List (List UInt8)) : Prop :=
  calls.flatten = [] ∨ checkptHdrSize < p.dataBytesPerChunk ∧
    (calls.flatten.length < failPoint p d₁ ∧
        ((∀ n, e.writeOk n = true) → calls.flatten.length ≤ roomPages p d₁ * p.payload ∧
          calls.flatten.length ≤ p.checkptMaxBlocks * p.chunksPerBlock * p.payload) ∨
      OverrunShows (failPoint p d₁) 0 calls)

/-- Calls without a byte. -/
theorem calls_nil (p : Param) (e : Env) (calls : List (List UInt8)) : ∀ d, calls.flatten = [] →
    StoresInside p e calls d ∧ FailuresShow p e calls d ∧ checkptWrCalls p e calls d = (d, true) := by
  induction calls with
  | nil => exact fun d _ => ⟨trivial, trivial, rfl⟩
  | cons bs calls ih =>
    intro d h
    obtain ⟨rfl, hrest⟩ := List.append_eq_nil_iff.mp h
    obtain ⟨h1, h2, h3⟩ := ih d hrest
    refine ⟨⟨by simp [wrOffsets], h1⟩, ⟨by simp [wrFails], h2⟩, ?_⟩
    change ((checkptWrCalls p e calls d).1, true && (checkptWrCalls p e calls d).2) = _
    rw [h3]
    rfl

theorem ofBytes_byteAt (bs : List UInt8) (d : BlockDev) (k : ℕ) :
    (CheckptRecord.ofBytes bs).byteAt d (0 + k) = bs.getD k 0 := by
  rw [Nat.zero_add]
  rfl

/-- A call of the writer behind the bytes `W`. -/
theorem checkptWr_spec (hp : 0 < p.chunksPerBlock) (hP : 0 < p.payload)
    (hres : (p.nReservedBlocks : ℤ) < d₁.nErasedBlocks) (bs : List UInt8) (hW : W.length < failPoint p d₁)
    (h : Streamed p e d₁ W d) :
    WrSpec p e d₁ W bs (wrOffsets p e (CheckptRecord.ofBytes bs).byteAt bs.length 0 d)
      (wrFails p e (CheckptRecord.ofBytes bs).byteAt bs.length 0 d) (checkptWr p e (.ofBytes bs) d) :=
  checkptWrLoop_spec hp hP hres bs 0 W d (fun d k _ => ofBytes_byteAt bs d k) hW h

/-- Calls that do not come to the point where a flush fails. -/
theorem calls_fit (hp : 0 < p.chunksPerBlock) (hP : 0 < p.payload)
    (hres : (p.nReservedBlocks : ℤ) < d₁.nErasedBlocks) (calls : List (List UInt8)) : ∀ (W : List UInt8) (d : BlockDev),
    W.length + calls.flatten.length < failPoint p d₁ → Streamed p e d₁ W d →
    StoresInside p e calls d ∧ FailuresShow p e calls d ∧ (checkptWrCalls p e calls d).2 = true ∧
    Streamed p e d₁ (W ++ calls.flatten) (checkptWrCalls p e calls d).1 := by
  induction calls with
  | nil => exact fun W d _ h => ⟨trivial, trivial, rfl, by rw [List.flatten_nil, List.append_nil]; exact h⟩
  | cons bs calls ih =>
    intro W d hlt h
    rw [List.flatten_cons, List.length_append] at hlt
    have hspec := checkptWr_spec hp hP hres bs (by omega) h
    obtain ⟨hno, hok, hs⟩ := hspec.goesOn (by omega)
    obtain ⟨h1, h2, h3, h4⟩ := ih (W ++ bs) _ (by rw [List.length_append]; omega) hs
    refine ⟨⟨hspec.inside, h1⟩, ⟨fun hf => by rw [hno] at hf; exact absurd hf (by simp), h2⟩, ?_, ?_⟩
    · change ((checkptWr p e (.ofBytes bs) d).2 && _) = true
      rw [hok, h3]
      rfl
    · rw [List.flatten_cons, ← List.append_assoc]
      exact h4

/-- Calls one of which shows that there are too few blocks. -/
theorem calls_overrun (hp : 0 < p.chunksPerBlock) (hP : 0 < p.payload)
    (hres : (p.nReservedBlocks : ℤ) < d₁.nErasedBlocks) (calls : List (List UInt8)) : ∀ (W : List UInt8) (d : BlockDev),
    W.length < failPoint p d₁ → OverrunShows (failPoint p d₁) W.length calls → Streamed p e d₁ W d →
    StoresInside p e calls d ∧ FailuresShow p e calls d ∧ (checkptWrCalls p e calls d).2 = false := by
  induction calls with
  | nil => exact fun W d _ h _ => h.elim
  | cons bs calls ih =>
    intro W d hW hover h
    have hspec := checkptWr_spec hp hP hres bs hW h
    unfold OverrunShows at hover
    split_ifs at hover with hlt
    · obtain ⟨hno, hok, hs⟩ := hspec.goesOn hlt
      obtain ⟨h1, h2, h3⟩ := ih (W ++ bs) _ (by rwa [List.length_append]) (by rwa [List.length_append]) hs
      refine ⟨⟨hspec.inside, h1⟩, ⟨fun hf => by rw [hno] at hf; exact absurd hf (by simp), h2⟩, ?_⟩
      change (_ && (checkptWrCalls p e calls _).2) = false
      rw [h3, Bool.and_false]
    · obtain ⟨hpast, hrest⟩ := hover
      obtain ⟨hfails, hshort, -⟩ := hspec.fails (by omega)
      have hfalse : (checkptWr p e (.ofBytes bs) d).2 = false := by
        rw [hshort]
        exact decide_eq_false (by omega)
      obtain ⟨h1, h2, -⟩ := calls_nil p e calls (checkptWr p e (.ofBytes bs) d).1 hrest
      refine ⟨⟨hspec.inside, h1⟩, ⟨fun _ => hfalse, h2⟩, ?_⟩
      change ((checkptWr p e (.ofBytes bs) d).2 && _) = false
      rw [hfalse, Bool.false_and]

/-- With a full buffer, the next byte is stored behind its end. -/
theorem storesInside_past (calls : List (List UInt8)) : ∀ d : BlockDev, p.dataBytesPerChunk ≤ d.checkpt.byteOffs →
    StoresInside p e calls d → calls.flatten = [] := by
  induction calls with
  | nil => exact fun _ _ _ => rfl
  | cons bs calls ih =>
    intro d hoff h
    obtain ⟨hfirst, hrest⟩ := h
    cases bs with
    | nil => exact ih d hoff hrest
    | cons x bs =>
      have hlt := hfirst d.checkpt.byteOffs (by simp [wrOffsets])
      omega

/-- Calls that come to the point where a flush fails keep what the stream promises only if one of them
shows it. -/
theorem calls_overrunShows (hp : 0 < p.chunksPerBlock) (hP : 0 < p.payload)
    (hres : (p.nReservedBlocks : ℤ) < d₁.nErasedBlocks) (calls : List (List UInt8)) : ∀ (W : List UInt8) (d : BlockDev),
    W.length < failPoint p d₁ → failPoint p d₁ ≤ W.length + calls.flatten.length → Streamed p e d₁ W d →
    StoresInside p e calls d → FailuresShow p e calls d → OverrunShows (failPoint p d₁) W.length calls := by
  induction calls with
  | nil =>
    intro W d hW hge _ _ _
    rw [List.flatten_nil, List.length_nil] at hge
    omega
  | cons bs calls ih =>
    rintro W d hW hge h ⟨-, hin⟩ ⟨hshows, hshow⟩
    have hspec := checkptWr_spec hp hP hres bs hW h
    rw [List.flatten_cons, List.length_append] at hge
    unfold OverrunShows
    split_ifs with hlt
    · have hnext := ih (W ++ bs) _ (by rwa [List.length_append]) (by rw [List.length_append]; omega)
        (hspec.goesOn hlt).2.2 hin hshow
      rwa [List.length_append] at hnext
    · obtain ⟨hfails, hshort, hoff⟩ := hspec.fails (by omega)
      have hne := hshows hfails
      rw [hshort] at hne
      have := of_decide_eq_false hne
      exact ⟨by omega, storesInside_past calls _ hoff hin⟩

/-- Reading nothing. -/
theorem checkptRdCalls_nil (p : Param) (ns : List ℕ) : ∀ d, ns.sum = 0 →
    (checkptRdCalls p ns d).map List.length = ns ∧ (checkptRdCalls p ns d).flatten = [] := by
  induction ns with
  | nil => exact fun _ _ => ⟨rfl, rfl⟩
  | cons n ns ih =>
    intro d h
    rw [List.sum_cons] at h
    obtain rfl : n = 0 := by omega
    obtain ⟨h1, h2⟩ := ih d (by omega)
    exact ⟨congrArg (0 :: ·) h1, h2⟩

/-- The stream gives back the bytes that fit. -/
theorem checkptClose_readsBack (hp : 0 < p.chunksPerBlock) (hP : 0 < p.payload)
    (hsmall : p.chunksPerBlock * (p.endBlock + 1) < 2 ^ 31) (hlay : LaidOut p d₁)
    (hres : (p.nReservedBlocks : ℤ) < d₁.nErasedBlocks) (hw : ∀ n, e.writeOk n = true) (h : Streamed p e d₁ W d)
    (hroom : W.length ≤ roomPages p d₁ * p.payload)
    (hmax : W.length ≤ p.checkptMaxBlocks * p.chunksPerBlock * p.payload) : ReadsBack p W (checkptClose p e d) := by
  have hread := checkptClose_readable hp h hres hw
  rw [Nat.min_eq_left (pagesOf_le hP hroom)] at hread
  intro d' hflash hbad ns hns
  have hread' : Readable p d₁ W (pagesOf p W) d'.nand :=
    ⟨hread.le, fun i hi => hflash ▸ hread.page i hi, fun c hc => hflash ▸ hread.other c hc, hbad.trans hread.bad⟩
  exact checkptRdCalls_spec hp hP hsmall hlay hread' (length_le_pagesOf hP W) hmax ns 0 (checkptOpenRead p d')
    (by omega) rfl rfl ⟨0, checkptOpenRead_behind hP W d'⟩

/-- The stream gives back no more bytes than fit. -/
theorem ReadsBack.fits (hp : 0 < p.chunksPerBlock) (hP : 0 < p.payload)
    (hsmall : p.chunksPerBlock * (p.endBlock + 1) < 2 ^ 31) (hlay : LaidOut p d₁)
    (hres : (p.nReservedBlocks : ℤ) < d₁.nErasedBlocks) (hw : ∀ n, e.writeOk n = true) (h : Streamed p e d₁ W d)
    (hback : ReadsBack p W (checkptClose p e d)) :
    W.length ≤ roomPages p d₁ * p.payload ∧ W.length ≤ p.checkptMaxBlocks * p.chunksPerBlock * p.payload := by
  have hread := checkptClose_readable hp h hres hw
  obtain ⟨hlen, -⟩ := hback _ rfl rfl [W.length] (by simp)
  have hall : (checkptRd p W.length (checkptOpenRead p (checkptClose p e d))).2.length = W.length := by
    simpa [checkptRdCalls] using hlen
  obtain ⟨lim, hlim⟩ : ∃ lim, lim = min (roomPages p d₁) (p.checkptMaxBlocks * p.chunksPerBlock) := ⟨_, rfl⟩
  have hle : W.length ≤ lim * p.payload := by
    by_contra hlt
    have hlt := Nat.lt_of_not_le hlt
    have hpages : lim ≤ pagesOf p W :=
      (Nat.lt_of_mul_lt_mul_right (hlt.trans_le (length_le_pagesOf hP W))).le
    have hends := checkptRd_ends hp hP hsmall hlay hread (by omega) hlim (Nat.succ_pos _) hlt W.length 0
      (checkptOpenRead p (checkptClose p e d)) (Nat.zero_le _) rfl rfl ⟨0, checkptOpenRead_behind hP W _⟩
    omega
  exact ⟨hle.trans (Nat.mul_le_mul_right _ (hlim ▸ Nat.min_le_left _ _)),
    hle.trans (Nat.mul_le_mul_right _ (hlim ▸ Nat.min_le_right _ _))⟩

/-- The stream keeps its promises exactly for the calls that fit. -/
theorem streamOk_iff (calls : List (List UInt8)) (hp : 0 < p.chunksPerBlock)
    (hsmall : p.chunksPerBlock * (p.endBlock + 1) < 2 ^ 31) (hmark : ∀ n, e.markOk n = true) (hlayout : Layout p d)
    (hopen : (checkptOpen p e d).2 = true) :
    StreamOk p e calls d ↔ StreamFits p e (checkptOpen p e d).1 calls := by
  obtain ⟨hlay, hres, hs⟩ := checkptOpen_spec hp hmark hlayout hopen
  have hpay : checkptHdrSize < p.dataBytesPerChunk ↔ 0 < p.payload := by
    unfold Param.payload
    omega
  generalize hd₁ : (checkptOpen p e d).1 = d₁ at hlay hres hs
  have hpoint : 0 < p.payload → 0 < failPoint p d₁ := fun hP => Nat.mul_pos (Nat.succ_pos _) hP
  constructor
  · rintro ⟨hin, hshow, hback⟩
    rw [hd₁] at hin hshow hback
    by_cases hnil : calls.flatten = []
    · exact Or.inl hnil
    by_cases hP : 0 < p.payload
    · refine Or.inr ⟨hpay.mpr hP, ?_⟩
      rcases Nat.lt_or_ge calls.flatten.length (failPoint p d₁) with hlt | hge
      · obtain ⟨-, -, hok, hs'⟩ := calls_fit hp hP hres calls [] d₁ (by simpa using hlt) hs
        exact Or.inl ⟨hlt, fun hw => (hback hok hw).fits hp hP hsmall hlay hres hw hs'⟩
      · exact Or.inr (calls_overrunShows hp hP hres calls [] d₁ (hpoint hP) (by simpa using hge) hs hin hshow)
    · refine absurd (storesInside_past calls d₁ ?_ hin) hnil
      rw [hs.byteOffs, List.length_nil, Nat.zero_mod]
      omega
  · intro hfits
    suffices h : StoresInside p e calls d₁ ∧ FailuresShow p e calls d₁ ∧
        ((checkptWrCalls p e calls d₁).2 = true → (∀ n, e.writeOk n = true) →
          ReadsBack p calls.flatten (checkptClose p e (checkptWrCalls p e calls d₁).1)) by
      subst hd₁
      exact ⟨h.1, h.2.1, h.2.2⟩
    rcases hfits with hnil | ⟨hsize, hfits⟩
    · obtain ⟨h1, h2, -⟩ := calls_nil p e calls d₁ hnil
      refine ⟨h1, h2, fun _ _ d' _ _ ns hns => ?_⟩
      rw [hnil] at hns ⊢
      exact checkptRdCalls_nil p ns _ hns
    have hP := hpay.mp hsize
    rcases hfits with ⟨hlt, hroom⟩ | hover
    · obtain ⟨h1, h2, -, h4⟩ := calls_fit hp hP hres calls [] d₁ (by simpa using hlt) hs
      exact ⟨h1, h2, fun _ hw =>
        checkptClose_readsBack hp hP hsmall hlay hres hw h4 (hroom hw).1 (hroom hw).2⟩
    · obtain ⟨h1, h2, h3⟩ := calls_overrun hp hP hres calls [] d₁ (hpoint hP) hover hs
      refine ⟨h1, h2, fun hok => ?_⟩
      rw [h3] at hok
      exact absurd hok Bool.false_ne_true

end

/-! ## A fresh device -/

/-- The sample device with chunks of 2048 bytes. -/
def streamParam : Param :=
  { sampleGeometry.toParam with dataBytesPerChunk := 2048 }

/-- It has never been written to. -/
def streamDev : BlockDev :=
  (freshDev sampleGeometry fun _ => false).toBlockDev

theorem streamDev_layout : Layout streamParam streamDev :=
  ⟨fun _ _ _ _ => rfl, fun _ _ _ _ => rfl⟩

theorem streamDev_opens : (checkptOpen streamParam okEnv streamDev).2 = true := by decide +kernel

theorem streamDev_room : roomPages streamParam (checkptOpen streamParam okEnv streamDev).1 = 1024 := by
  decide +kernel

/-- A record of two bytes and one of one byte come back. -/
theorem streamDev_ok : StreamOk streamParam okEnv [[1, 2], [3]] streamDev := by
  refine (streamOk_iff [[1, 2], [3]] (by decide) (by decide) (fun _ => rfl) streamDev_layout streamDev_opens).mpr ?_
  refine Or.inr ⟨by decide, Or.inl ⟨?_, fun _ => ⟨?_, by decide⟩⟩⟩
  · rw [failPoint, streamDev_room]
    decide
  · rw [streamDev_room]
    decide

/-- A record that ends where a flush fails is taken whole, and the next byte stored behind the buffer. -/
theorem streamDev_not_ok : ¬∀ (p : Param) (e : Env) (d : BlockDev) (calls : List (List UInt8)),
    0 < p.chunksPerBlock → p.chunksPerBlock * (p.endBlock + 1) < 2 ^ 31 → (∀ n, e.markOk n = true) → Layout p d →
    (checkptOpen p e d).2 = true → StreamOk p e calls d := by
  intro h
  obtain ⟨bs, hlen⟩ : ∃ bs : List UInt8, bs.length = 1025 * 2032 :=
    ⟨List.replicate (1025 * 2032) 0, List.length_replicate⟩
  obtain ⟨hin, hshow, -⟩ := h streamParam okEnv streamDev [bs, [0]] (by decide) (by decide) (fun _ => rfl)
    streamDev_layout streamDev_opens
  obtain ⟨-, hres, hs⟩ := checkptOpen_spec (by decide) (fun _ => rfl) streamDev_layout streamDev_opens
  have hpoint : failPoint streamParam (checkptOpen streamParam okEnv streamDev).1 = 1025 * 2032 := by
    rw [failPoint, streamDev_room]
    rfl
  generalize (checkptOpen streamParam okEnv streamDev).1 = d₁ at hin hshow hres hs hpoint
  have hpast : failPoint streamParam d₁ ≤ ([] : List UInt8).length + [bs, [0]].flatten.length := by
    rw [hpoint, List.flatten_cons, List.length_append, hlen]
    simp
  have hpos : ([] : List UInt8).length < failPoint streamParam d₁ := by
    rw [hpoint]
    exact Nat.mul_pos (by omega) (by omega)
  have hover := calls_overrunShows (by decide) (by decide) hres [bs, [0]] [] d₁ hpos hpast hs hin hshow
  unfold OverrunShows at hover
  rw [hpoint, hlen, List.length_nil, Nat.zero_add, if_neg (lt_irrefl _)] at hover
  exact lt_irrefl _ hover.1

end Yaffs
