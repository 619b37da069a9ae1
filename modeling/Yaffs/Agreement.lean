import Yaffs.Filling
import Yaffs.Mount

/-!
# Reading a summary back

A scan that takes the tags of a chunk from the summary of its block finds the tags the chunk
was written with. The bytes of a summary are read back as they were written, so the packed
tags are those `dev->sum_tags` had, which by `FillInv` tell of the pages of the block.
-/

namespace Yaffs

variable {g : Geometry} {e : Env} {d s : BlockDev} {b c : ℕ} {v : Reader}

/-! ## Bytes -/

theorem u32OfBytes_u32Bytes (n : ℕ) (bs : List UInt8) : u32OfBytes (u32Bytes n ++ bs) = n % 2 ^ 32 := by
  simp only [u32OfBytes, u32Bytes, List.cons_append, List.nil_append, List.getD_cons_zero,
    List.getD_cons_succ, UInt8.toNat_ofNat']
  omega

theorem bytes_length (st : SummaryTags) : st.bytes.length = summaryTagsSize := rfl

/-- An entry is read back as the words that are stored. -/
theorem ofBytes_bytes (st : SummaryTags) (bs : List UInt8) : SummaryTags.ofBytes (st.bytes ++ bs) = st.stored := by
  have h4 : (st.bytes ++ bs).drop 4 = u32Bytes st.chunkId ++ (u32Bytes st.nBytes ++ bs) := rfl
  have h8 : (st.bytes ++ bs).drop 8 = u32Bytes st.nBytes ++ bs := rfl
  have h0 : st.bytes ++ bs = u32Bytes st.objId ++ (u32Bytes st.chunkId ++ (u32Bytes st.nBytes ++ bs)) := rfl
  unfold SummaryTags.ofBytes SummaryTags.stored
  rw [h4, h8, h0, u32OfBytes_u32Bytes, u32OfBytes_u32Bytes, u32OfBytes_u32Bytes]

theorem summaryBytes_length (l : List SummaryTags) : (summaryBytes l).length = summaryTagsSize * l.length := by
  induction l with
  | nil => rfl
  | cons st l ih =>
    have : (summaryBytes (st :: l)).length = st.bytes.length + (summaryBytes l).length := by
      simp [summaryBytes]
    rw [this, ih, bytes_length, List.length_cons, Nat.mul_succ, Nat.add_comm]

theorem summaryBytes_drop (l : List SummaryTags) (i : ℕ) :
    (summaryBytes l).drop (summaryTagsSize * i) = summaryBytes (l.drop i) := by
  induction l generalizing i with
  | nil => simp [summaryBytes]
  | cons st l ih =>
    cases i with
    | zero => rfl
    | succ i =>
      have hcons : summaryBytes (st :: l) = st.bytes ++ summaryBytes l := by simp [summaryBytes]
      have hlen : summaryTagsSize * (i + 1) = st.bytes.length + summaryTagsSize * i := by
        rw [bytes_length, Nat.mul_succ, Nat.add_comm]
      rw [hcons, hlen, List.drop_length_add_append, ih, List.drop_succ_cons]

/-- Entry `i` of the bytes of a summary. -/
theorem ofBytes_summaryBytes {l : List SummaryTags} {i : ℕ} (hi : i < l.length) (bs : List UInt8) :
    SummaryTags.ofBytes ((summaryBytes l ++ bs).drop (summaryTagsSize * i)) = l[i].stored := by
  have hle : summaryTagsSize * i ≤ (summaryBytes l).length := by
    rw [summaryBytes_length]
    exact Nat.mul_le_mul_left _ hi.le
  have hcons : summaryBytes (l.drop i) = l[i].bytes ++ summaryBytes (l.drop (i + 1)) := by
    rw [List.drop_eq_getElem_cons hi]
    exact List.flatMap_cons
  rw [List.drop_append_of_le_length hle, summaryBytes_drop, hcons, List.append_assoc, ofBytes_bytes]

/-! ## The pages of a summary -/

/-- What the driver reads with success is what the page holds. -/
structure Reads (v : Reader) (flash : ℕ → Option Page) : Prop where
  tags : ∀ n c, (v n c).ok = true → (v n c).ecc ≠ .unfixed → (v n c).tags = pageTags (flash c)
  data : ∀ n c, (v n c).ok = true → (v n c).ecc ≠ .unfixed →
    (v n c).data = (flash c).elim .blank Page.data

theorem flashReader_reads (flash : ℕ → Option Page) : Reads (flashReader flash) flash :=
  ⟨fun _ _ _ _ => rfl, fun _ _ _ _ => rfl⟩

/-- The pages the summary of block `b` takes have been written successfully. -/
def SummaryWritten (g : Geometry) (d : BlockDev) (b : ℕ) : Prop :=
  ∀ i, g.chunksPerSummary ≤ i → i < g.chunksPerBlock →
    summaryOffset g i < summaryTagsSize * g.chunksPerSummary →
    d.written g (b * g.chunksPerBlock + i) ≠ none

/-- The pages behind those a summary covers have room for it. -/
theorem summary_fits : summaryTagsSize * g.chunksPerSummary ≤
    (g.chunksPerBlock - g.chunksPerSummary) * (g.dataBytesPerChunk - summaryHeaderSize) := by
  have hpos := chunksPerSummary_pos (g := g)
  have hD := g.objHdrSize_le
  have hroom : 0 < g.dataBytesPerChunk - summaryHeaderSize := by
    simp only [objHdrSize, summaryHeaderSize] at *
    omega
  unfold Param.chunksPerSummary at hpos ⊢
  have hmul := Nat.lt_mul_div_succ (g.chunksPerBlock * summaryTagsSize + g.dataBytesPerChunk - 1) hroom
  generalize (g.chunksPerBlock * summaryTagsSize + g.dataBytesPerChunk - 1) /
    (g.dataBytesPerChunk - summaryHeaderSize) = n at *
  have hsub : g.chunksPerBlock - (g.chunksPerBlock - n) = n := by omega
  rw [hsub]
  have hle : summaryTagsSize * (g.chunksPerBlock - n) ≤ g.chunksPerBlock * summaryTagsSize := by
    rw [Nat.mul_comm]
    exact Nat.mul_le_mul_right _ (Nat.sub_le _ _)
  rw [Nat.mul_succ, Nat.mul_comm _ n] at hmul
  simp only [objHdrSize, summaryHeaderSize, summaryTagsSize] at *
  omega

theorem summaryOffset_succ {i : ℕ} (hi : g.chunksPerSummary ≤ i) :
    summaryOffset g (i + 1) = summaryOffset g i + (g.dataBytesPerChunk - summaryHeaderSize) := by
  unfold summaryOffset
  rw [Nat.sub_add_comm hi, Nat.succ_mul]

/-- What reading leaves alone. -/
structure SameSeq (d d' : BlockDev) : Prop where
  sumTags : d'.sumTags = d.sumTags
  blockSeq : ∀ b, (d'.blockInfo b).seqNumber = (d.blockInfo b).seqNumber

theorem SameSeq.trans {d' d'' : BlockDev} (h : SameSeq d d') (h' : SameSeq d' d'') : SameSeq d d'' :=
  ⟨h'.sumTags.trans h.sumTags, fun b => (h'.blockSeq b).trans (h.blockSeq b)⟩

theorem SameFill.sameSeq {d' : BlockDev} (h : SameFill d d') : SameSeq d d' :=
  ⟨h.sumTags, h.blockSeq⟩

theorem rdChunkTagsNand_sameSeq : SameSeq d (rdChunkTagsNand g v c d).1 := by
  have hcalls : SameSeq d { d with nand := { d.nand with calls := d.nand.calls + 1 } } := ⟨rfl, fun _ => rfl⟩
  unfold rdChunkTagsNand
  simp only
  split
  · exact hcalls.trans handleChunkError_same.sameSeq
  · exact hcalls

theorem useSummaryChunk_sameSeq : SameSeq d (useSummaryChunk b c d) := by
  refine ⟨rfl, fun b' => ?_⟩
  rcases eq_or_ne b' b with rfl | hne
  · simp [useSummaryChunk, BlockDev.modBlock, BlockDev.setChunkBit]
  · simp [useSummaryChunk, BlockDev.modBlock, BlockDev.setChunkBit, hne]

theorem summaryReadLoop_sameSeq (n : ℕ) : ∀ (i chunkId nBytes : ℕ) (buffer : List UInt8) (hdr : SummaryHeader)
    (d : BlockDev), SameSeq d (summaryReadLoop g v b n i chunkId nBytes buffer hdr d).1 := by
  induction n with
  | zero => exact fun _ _ _ _ _ d => ⟨rfl, fun _ => rfl⟩
  | succ n ih =>
    intro i chunkId nBytes buffer hdr d
    have hread := rdChunkTagsNand_sameSeq (g := g) (v := v) (c := b * g.chunksPerBlock + i) (d := d)
    unfold summaryReadLoop
    simp only
    split
    · split
      · exact hread.trans useSummaryChunk_sameSeq
      · exact (hread.trans useSummaryChunk_sameSeq).trans (ih _ _ _ _ _ _)
    · exact hread

/-- The loop of `yaffs_summary_read` over the pages from `i` on. -/
theorem summaryReadLoop_sealed {flash : ℕ → Option Page} {hdr : SummaryHeader} {sumTags : ℕ → SummaryTags}
    (hrd : Reads v flash)
    (hpages : ∀ i, g.chunksPerSummary ≤ i → i < g.chunksPerBlock →
      summaryOffset g i < summaryTagsSize * g.chunksPerSummary →
      ∃ t, flash (b * g.chunksPerBlock + i) = some ⟨t, summaryPage g hdr sumTags i⟩) (n : ℕ) :
    ∀ (i chunkId : ℕ) (buffer : List UInt8) (hdr' : SummaryHeader) (d : BlockDev), g.chunksPerSummary ≤ i →
      i + n = g.chunksPerBlock → summaryOffset g i < summaryTagsSize * g.chunksPerSummary →
      let r := summaryReadLoop g v b n i chunkId (summaryTagsSize * g.chunksPerSummary - summaryOffset g i)
        buffer hdr' d
      r.2.2.2 = true → r.2.2.1 = hdr ∧ r.2.1 = buffer ++
        (summaryBytes ((List.range g.chunksPerSummary).map sumTags)).drop (summaryOffset g i) := by
  have hfits := summary_fits (g := g)
  induction n with
  | zero =>
    intro i chunkId buffer hdr' d hi hn hoff
    obtain rfl : i = g.chunksPerBlock := hn
    unfold summaryOffset at hoff
    omega
  | succ n ih =>
    intro i chunkId buffer hdr' d hi hn hoff
    obtain ⟨t, ht⟩ := hpages i hi (by omega) hoff
    unfold summaryReadLoop
    simp only
    split
    · rename_i hsum
      have hok : (v d.nand.calls (b * g.chunksPerBlock + i)).ok = true ∧
          (v d.nand.calls (b * g.chunksPerBlock + i)).ecc ≠ .unfixed := by
        simp only [PageRead.isSummary, rdChunkTagsNand, Bool.and_eq_true, bne_iff_ne] at hsum
        exact ⟨hsum.1.1.1.1.1, hsum.1.2⟩
      have hdata : (rdChunkTagsNand g v (b * g.chunksPerBlock + i) d).2.data = summaryPage g hdr sumTags i := by
        have := hrd.data _ _ hok.1 hok.2
        simpa [rdChunkTagsNand, ht] using this
      have hlen := summaryBytes_length ((List.range g.chunksPerSummary).map sumTags)
      rw [List.length_map, List.length_range] at hlen
      rw [hdata]
      simp only [summaryPage, PageData.summaryPart, List.take_take, Nat.min_self]
      generalize summaryBytes ((List.range g.chunksPerSummary).map sumTags) = bytes at *
      split
      · intro _
        refine ⟨rfl, ?_⟩
        rw [List.take_of_length_le (by rw [List.length_drop]; omega)]
      · have hnext := summaryOffset_succ hi
        have hroom : min (summaryTagsSize * g.chunksPerSummary - summaryOffset g i)
            (g.dataBytesPerChunk - summaryHeaderSize) = g.dataBytesPerChunk - summaryHeaderSize := by omega
        rw [hroom, Nat.sub_sub, ← hnext]
        intro hr
        obtain ⟨hhdr, hbuffer⟩ := ih (i + 1) _ _ _ _ (by omega) (by omega) (by omega) hr
        refine ⟨hhdr, ?_⟩
        rw [hbuffer, hnext, ← List.drop_drop, List.append_assoc, List.take_append_drop]
    · simp

/-! ## Agreement -/

theorem overlaySumTags_entry (l : List SummaryTags) (sumTags : ℕ → SummaryTags) {i : ℕ} (hi : i < g.summaryChunks)
    (hl : i < l.length) : overlaySumTags g (summaryBytes l) sumTags i = l[i].stored := by
  unfold overlaySumTags
  rw [if_pos hi, ofBytes_summaryBytes hl]

/-- The tags made from packed tags with the number of the block. -/
theorem unpack_withSeq {stale seq : ℕ} (hstale : stale ≠ 0xffffffff) (hseq : seq ≠ 0xffffffff) (st : SummaryTags) :
    { unpackTags2TagsOnly stale st with seqNumber := seq } = unpackTags2TagsOnly seq st := by
  unfold unpackTags2TagsOnly
  rw [if_neg hstale, if_neg hseq]
  split <;> rfl

/-- The loop of `yaffs_summary_read`, from the front of the summary on. -/
abbrev summaryPages (g : Geometry) (v : Reader) (b : ℕ) (s : BlockDev) :
    BlockDev × List UInt8 × SummaryHeader × Bool :=
  summaryReadLoop g v b (g.chunksPerBlock - g.summaryChunks) g.summaryChunks 1
    (summaryTagsSize * g.summaryChunks) [] ⟨0, 0, 0, 0⟩ s

theorem summaryRead_cases : ∃ x : BlockDev,
    x = { (summaryPages g v b s).1 with
      sumTags := overlaySumTags g (summaryPages g v b s).2.1 s.sumTags } ∧
    ((summaryRead g v b s = (x.modBlock b fun bi => { bi with hasSummary := true }, true) ∧
      (summaryPages g v b s).2.2.2 = true ∧ (summaryPages g v b s).2.2.1.seq = (x.blockInfo b).seqNumber) ∨
    summaryRead g v b s = (x, false)) := by
  refine ⟨_, rfl, ?_⟩
  set x : BlockDev := { (summaryPages g v b s).1 with
    sumTags := overlaySumTags g (summaryPages g v b s).2.1 s.sumTags }
  have hread : summaryRead g v b s =
      if (summaryPages g v b s).2.2.2 && (summaryPages g v b s).2.2.1.version = 1 &&
        (summaryPages g v b s).2.2.1.seq = (x.blockInfo b).seqNumber &&
        (summaryPages g v b s).2.2.1.sum = (if g.hasSummaries then summarySum g x else 0) then
      (x.modBlock b fun bi => { bi with hasSummary := true }, true) else (x, false) := rfl
  rw [hread]
  by_cases hacc : ((summaryPages g v b s).2.2.2 && (summaryPages g v b s).2.2.1.version = 1 &&
      (summaryPages g v b s).2.2.1.seq = (x.blockInfo b).seqNumber &&
      (summaryPages g v b s).2.2.1.sum = (if g.hasSummaries then summarySum g x else 0)) = true
  · rw [if_pos hacc]
    simp only [Bool.and_eq_true, decide_eq_true_eq] at hacc
    exact Or.inl ⟨rfl, hacc.1.1.1, hacc.1.2⟩
  · rw [if_neg hacc]
    exact Or.inr rfl

theorem summaryPages_sameSeq : SameSeq s (summaryPages g v b s).1 :=
  summaryReadLoop_sameSeq _ _ _ _ _ _ _

theorem summaryRead_sumTags : (summaryRead g v b s).1.sumTags =
    overlaySumTags g (summaryPages g v b s).2.1 s.sumTags := by
  obtain ⟨x, rfl, ⟨h, -⟩ | h⟩ := summaryRead_cases (g := g) (v := v) (b := b) (s := s)
  · rw [h]
    rfl
  · rw [h]

theorem summaryRead_blockSeq (b' : ℕ) : ((summaryRead g v b s).1.blockInfo b').seqNumber =
    (s.blockInfo b').seqNumber := by
  rw [← summaryPages_sameSeq (g := g) (v := v) (b := b) (s := s).blockSeq]
  obtain ⟨x, rfl, ⟨h, -⟩ | h⟩ := summaryRead_cases (g := g) (v := v) (b := b) (s := s)
  · rw [h]
    rcases eq_or_ne b' b with rfl | hne
    · simp [BlockDev.modBlock]
    · simp [BlockDev.modBlock, hne]
  · rw [h]

/-- A summary is accepted only when all its pages were read and it is of this block's life. -/
theorem summaryRead_accepts (hread : (summaryRead g v b s).2 = true) :
    (summaryPages g v b s).2.2.2 = true ∧ (summaryPages g v b s).2.2.1.seq = (s.blockInfo b).seqNumber := by
  obtain ⟨x, rfl, ⟨-, hok, hseq⟩ | h⟩ := summaryRead_cases (g := g) (v := v) (b := b) (s := s)
  · exact ⟨hok, hseq.trans (summaryPages_sameSeq.blockSeq b)⟩
  · simp [h] at hread

/-- An accepted summary has, for each page of the block that was written, its packed tags or
nothing, and the number they were written with. -/
theorem summaryRead_tells (h : OnFlash g d) (hsum : g.hasSummaries = true) (hrd : Reads v d.nand.flash)
    (hwritten : SummaryWritten g d b) (hread : (summaryRead g v b s).2 = true) {i : ℕ} {t : ExtTags}
    (hi : i < g.chunksPerSummary) (ht : d.written g (b * g.chunksPerBlock + i) = some t) :
    t.seqNumber = (s.blockInfo b).seqNumber ∧
      ((summaryRead g v b s).1.sumTags i = (packTags2TagsOnly t).stored ∨
        (summaryRead g v b s).1.sumTags i = {}) := by
  obtain ⟨seq, sum, sumTags, htells, hsealed⟩ := h.sealed b
  have hpos := chunksPerSummary_pos (g := g)
  have hchunks : g.summaryChunks = g.chunksPerSummary := by simp [Param.summaryChunks, hsum]
  have hlt : g.chunksPerSummary ≤ g.chunksPerBlock := Nat.sub_le _ _
  have hpages : ∀ j, g.chunksPerSummary ≤ j → j < g.chunksPerBlock →
      summaryOffset g j < summaryTagsSize * g.chunksPerSummary →
      ∃ t, d.nand.flash (b * g.chunksPerBlock + j) = some ⟨t, summaryPage g ⟨1, b, seq, sum⟩ sumTags j⟩ := by
    intro j hj hjb hoff
    obtain ⟨u, hu⟩ := Option.ne_none_iff_exists'.mp (hwritten j hj hjb hoff)
    have hpage := hsealed _ u (chunk_div hjb) (by rw [chunk_mod hjb]; exact hj) hu
    rw [chunk_mod hjb] at hpage
    exact ⟨u, hpage⟩
  have hoff : summaryOffset g g.chunksPerSummary = 0 := by simp [summaryOffset]
  have hloop := summaryReadLoop_sealed hrd hpages (g.chunksPerBlock - g.chunksPerSummary) g.chunksPerSummary 1
    [] ⟨0, 0, 0, 0⟩ s le_rfl (by omega) (by rw [hoff]; simp only [summaryTagsSize]; omega)
  rw [hoff, Nat.sub_zero, List.drop_zero, List.nil_append] at hloop
  have htag := htells _ t (chunk_div (hi.trans_le hlt)) (by rw [chunk_mod (hi.trans_le hlt)]; exact hi) ht
  rw [chunk_mod (hi.trans_le hlt)] at htag
  obtain ⟨hok, hseq⟩ := summaryRead_accepts hread
  rw [summaryRead_sumTags]
  unfold summaryPages at hok hseq ⊢
  rw [hchunks] at hok hseq ⊢
  obtain ⟨hhdr, hbuffer⟩ := hloop hok
  rw [hhdr] at hseq
  have hentry := overlaySumTags_entry ((List.range g.chunksPerSummary).map sumTags) s.sumTags
    (hchunks ▸ hi) (by simpa using hi)
  rw [List.getElem_map, List.getElem_range] at hentry
  rw [hbuffer, hentry]
  refine ⟨htag.1.trans hseq, ?_⟩
  rcases htag.2 with hpack | hnone
  · exact Or.inl (congrArg SummaryTags.stored hpack)
  · exact Or.inr (congrArg SummaryTags.stored hnone)

/-- The tags fetched from an accepted summary are those of the page, if they name an object. -/
theorem fetchTags_agree (h : OnFlash g d) (hsum : g.hasSummaries = true) (hrd : Reads v d.nand.flash)
    (hwritten : SummaryWritten g d b) (hseq : (s.blockInfo b).seqNumber ≠ 0xffffffff)
    (hread : (summaryRead g v b s).2 = true) {i : ℕ} (hi : i < g.chunksPerSummary)
    (ht : d.written g (b * g.chunksPerBlock + i) ≠ none) (stale : ℕ)
    (hid : (fetchTags stale b i (summaryRead g v b s).1).objId ≠ 0) :
    fetchTags stale b i (summaryRead g v b s).1 = pageTags (d.nand.flash (b * g.chunksPerBlock + i)) := by
  obtain ⟨t, ht⟩ := Option.ne_none_iff_exists'.mp ht
  obtain ⟨data, hflash⟩ := h.flash _ t ht
  obtain ⟨htseq, hpack | hnone⟩ := summaryRead_tells h hsum hrd hwritten hread hi ht
  · have hstale : stale ≠ 0xffffffff := by
      rintro rfl
      simp [fetchTags, summaryFetch, unpackTags2TagsOnly] at hid
    unfold fetchTags summaryFetch
    rw [summaryRead_blockSeq, hpack, unpack_withSeq hstale hseq, hflash, ← htseq]
    rfl
  · have hempty : (fetchTags stale b i (summaryRead g v b s).1).objId = 0 := by
      unfold fetchTags summaryFetch unpackTags2TagsOnly
      rw [hnone]
      split <;> rfl
    exact absurd hempty hid

/-- A scan goes by the tags it got of a page, and by whether they were unreadable. -/
theorem scanPage_congr {m : MountParam} {i : ℕ} {found : Bool} {r r' : PageRead} {x : ScanDev}
    (htags : r.tags = r'.tags) (hecc : r.ecc = .unfixed ↔ r'.ecc = .unfixed) :
    scanPage g e m b i found r x = scanPage g e m b i found r' x := by
  unfold scanPage
  simp only [htags, hecc]

/-- The device after the summary of block `b` was read. -/
def ScanDev.withSummary (g : Geometry) (m : MountParam) (b : ℕ) (s : ScanDev) : ScanDev :=
  s.mapBlk fun d => (summaryRead g m.reader b d).1

/-- The tags of page `i` of block `b`, read from the page. -/
def ScanDev.ownTags (g : Geometry) (m : MountParam) (b i : ℕ) (s : ScanDev) : ScanDev × PageRead :=
  s.onDev fun d => d.onBlocks (rdChunkTagsNand g m.reader (b * g.chunksPerBlock + i))

/-- Write chunk `k` of the object `256 + k`. -/
def sampleWrite (e : Env) (d : BlockDev) (k : ℕ) : BlockDev :=
  (writeNewChunk sampleGeometry e (.bytes []) { objId := 256 + k, chunkId := k, nBytes := 512 } false d).1

/-- The sample device after the first 7 writes to its first block. -/
def sampleHalf : BlockDev :=
  [1, 2, 3, 4, 5, 6, 7].foldl (sampleWrite okEnv) (blankBlocks sampleGeometry fun _ => false)

/-- The last 8 chunks a summary of the sample device covers are written. -/
def fillRest (e : Env) (d : BlockDev) : BlockDev :=
  [8, 9, 10, 11, 12, 13, 14, 15].foldl (sampleWrite e) d

/-- A checkpoint is restored in the middle of a block. -/
def sampleRemounted : BlockDev :=
  fillRest okEnv { sampleHalf with sumTags := fun _ => {} }

/-- What the failing write of a summary leaves : the right sum, but the first two entries changed
about. -/
def tornSummary : Page where
  tags := { chunkUsed := true, objId := objectIdSummary, chunkId := 1, nBytes := 196, seqNumber := 0x1001 }
  data := .summary ⟨1, 1, 0x1001, 285⟩
    ([2, 1, 3, 4, 5, 6, 7, 8, 9, 10, 11, 12, 13, 14, 15].map fun k => ⟨256 + k, k, 512⟩) 0 180

/-- The 18th call of the driver, which writes the summary of the first block, fails. -/
def tornEnv : Env :=
  { okEnv with
    writeOk := fun n => n != 17
    leavesPage := fun n => if n = 17 then some tornSummary else none
    leavesPage_unmarked := fun n p h => by
      split at h
      · obtain rfl := Option.some.inj h
        rfl
      · simp at h }

/-- The sample device after 15 writes, with the failing write behind them. -/
def sampleTorn : BlockDev :=
  fillRest tornEnv ([1, 2, 3, 4, 5, 6, 7].foldl (sampleWrite tornEnv) (blankBlocks sampleGeometry fun _ => false))

/-- A device mounted by reading the flash `flash`. -/
def sampleMount (flash : ℕ → Option Page) : MountParam where
  readOnly := false
  disableLazyLoad := false
  emptyLostNFound := false
  hideLostNFound := false
  useHeaderFileSize := true
  reader := flashReader flash
  query := fun _ => .empty
  stale := 0

/-- The device `d`, to be scanned. -/
def sampleScan (d : BlockDev) : ScanDev :=
  { mountDev sampleGeometry (sampleMount d.nand.flash) d with toBlockDev := d }

theorem sampleWrite_life {e : Env} {bad : ℕ → Bool} {d : BlockDev} (h : Life sampleGeometry e bad d) (k : ℕ) :
    Life sampleGeometry e bad (sampleWrite e d k) :=
  h.tail (.write d _ _ _)

theorem foldl_sampleWrite_life {e : Env} {bad : ℕ → Bool} (ks : List ℕ) : ∀ {d : BlockDev},
    Life sampleGeometry e bad d → Life sampleGeometry e bad (ks.foldl (sampleWrite e) d) := by
  induction ks with
  | nil => exact fun h => h
  | cons k ks ih => exact fun h => ih (sampleWrite_life h k)

theorem fillRest_life {e : Env} {bad : ℕ → Bool} {d : BlockDev} (h : Life sampleGeometry e bad d) :
    Life sampleGeometry e bad (fillRest e d) :=
  foldl_sampleWrite_life _ h

theorem sampleHalf_life : Life sampleGeometry okEnv (fun _ => false) sampleHalf :=
  foldl_sampleWrite_life _ .refl

theorem sampleTorn_life : Life sampleGeometry tornEnv (fun _ => false) sampleTorn :=
  fillRest_life (foldl_sampleWrite_life _ .refl)

theorem clearSumTags_restored (d : BlockDev) : RestoredFrom d { d with sumTags := fun _ => {} } :=
  ⟨rfl, rfl, rfl, rfl, rfl, fun _ => rfl, fun _ => rfl, fun _ => rfl⟩

theorem sampleRemounted_life : Life sampleGeometry okEnv (fun _ => false) sampleRemounted :=
  fillRest_life (sampleHalf_life.tail (.restore _ _ (clearSumTags_restored _)))

/-- The sample device after the 15 writes to its first block. -/
def sampleFilled : BlockDev :=
  fillRest okEnv sampleHalf

theorem sampleFilled_life : Life sampleGeometry okEnv (fun _ => false) sampleFilled :=
  fillRest_life sampleHalf_life

theorem sampleFilled_summaryWritten : SummaryWritten sampleGeometry sampleFilled 1 := by
  intro i hi hib _
  have hcps : sampleGeometry.chunksPerSummary = 15 := by decide
  have hcpb : sampleGeometry.chunksPerBlock = 16 := rfl
  obtain rfl : i = 15 := by omega
  decide +kernel

/-- What a mount reads of the flash of the sample device. -/
def filledMount : MountParam :=
  sampleMount sampleFilled.nand.flash

theorem filledMount_reads : Reads filledMount.reader sampleFilled.nand.flash :=
  flashReader_reads sampleFilled.nand.flash

end Yaffs
