import Yaffs.Collector

/-!
# The width of the block counters

`pages_in_use` and `soft_del_pages` are signed bit fields of 10 bits, and `yaffs_guts_ll_init` takes any
number of chunks in a block. The functions that count are repeated here with the fields as narrow as
they are : they hold the true counts for as long as a block has no more than 511 chunks.
-/

namespace Yaffs

open Tally

/-! ## The source's functions, with fields of 10 bits -/

/-- What a signed bit field of 10 bits holds when it is given `n`. -/
def bits10 (n : ℤ) : ℤ :=
  n.bmod 1024

/-- The counters of a block info as they are stored. -/
def BlockInfo.narrow (bi : BlockInfo) : BlockInfo :=
  { bi with softDelPages := bits10 bi.softDelPages, pagesInUse := bits10 bi.pagesInUse }

section

variable (g : Geometry) (e : Env)

/-- The block infos as they are stored. -/
def narrow (d : BlockDev) : BlockDev :=
  { d with blockInfo := fun b => if b ∈ g.blocks then (d.blockInfo b).narrow else d.blockInfo b }

/-- `yaffs_alloc_chunk`, which counts one page, behind the choice of the block. -/
def allocChunkNarrow (useReserver : Bool) (d : BlockDev) : BlockDev :=
  narrow g (allocChunk g useReserver d).1

/-- `yaffs_chunk_del`. -/
def chunkDelNarrow (c : ℕ) (markFlash : Bool) (d : BlockDev) : BlockDev :=
  if c = 0 then d
  else
    let b := c / g.chunksPerBlock
    let d := markIfNeeded g e c markFlash (updateOldestDirtySeq g b d)
    if (d.blockInfo b).blockState.holdsChunks then
      let d := narrow g (releaseChunk b c d)
      if (d.blockInfo b).becameDirty then blockBecameDirty g e b d else d
    else d

/-- `yaffs_soft_del_chunk`. -/
def softDelChunkNarrow (c : ℕ) (d : BlockDev) : BlockDev :=
  let b := c / g.chunksPerBlock
  let d := narrow g (d.modBlock b fun bi => { bi with softDelPages := bi.softDelPages + 1 })
  updateOldestDirtySeq g b { d with nFreeChunks := d.nFreeChunks + 1 }

/-- `yaffs_gc_process_chunk` on a chunk of a soft-deleted file. -/
def gcDropNarrow (c : ℕ) (d : BlockDev) : BlockDev :=
  let d := narrow g (d.modBlock (c / g.chunksPerBlock) fun bi => { bi with softDelPages := bi.softDelPages - 1 })
  chunkDelNarrow g e c false { d with nFreeChunks := d.nFreeChunks - 1 }

/-! ## Runs -/

/-- gc may be at work on a block. -/
def inGc (_ : ℕ) (s : BlockState) : Prop :=
  s = .collecting

/-- The counters hold the true counts, of the chunks in use and of the soft-deleted ones among them. -/
structure TrueCounts (soft : ℕ → Bool) (d : BlockDev) : Prop where
  blk : BlkInv g inGc d
  opn : OpenInv g d
  free : ∃ k, FreeInv g soft k d

/-- Allocations, deletions and soft deletions, of which gc makes a block collecting and drops
soft-deleted chunks. `soft` are the chunks that are soft-deleted. -/
inductive CountRun : (ℕ → Bool) → BlockDev → Prop
  /-- a device as it is mounted -/
  | mounted {soft : ℕ → Bool} {d : BlockDev} : TrueCounts g soft d → narrow g d = d → CountRun soft d
  | alloc {soft : ℕ → Bool} {d : BlockDev} (useReserver : Bool) :
      CountRun soft d → CountRun soft (allocChunkNarrow g useReserver d)
  | del {soft : ℕ → Bool} {d : BlockDev} {c : ℕ} (markFlash : Bool) :
      CountRun soft d → d.chunkBits c = true → soft c = false → CountRun soft (chunkDelNarrow g e c markFlash d)
  | softDel {soft : ℕ → Bool} {d : BlockDev} {c : ℕ} :
      CountRun soft d → d.chunkBits c = true → soft c = false →
      CountRun (Function.update soft c true) (softDelChunkNarrow g c d)
  | gcDrop {soft : ℕ → Bool} {d : BlockDev} {c : ℕ} :
      CountRun soft d → soft c = true → CountRun (Function.update soft c false) (gcDropNarrow g e c d)
  | gcStart {soft : ℕ → Bool} {d : BlockDev} {b : ℕ} :
      CountRun soft d → b ∈ g.blocks → (d.blockInfo b).blockState = .full → CountRun soft (d.setState b .collecting)
  | gcStop {soft : ℕ → Bool} {d : BlockDev} {b : ℕ} :
      CountRun soft d → b ∈ g.blocks → (d.blockInfo b).blockState = .collecting → CountRun soft (d.setState b .full)

/-- The counters of all blocks are true, within their bounds, and compared as the true counts are : with
nothing, and their difference with any limit. -/
structure CountersTrue (soft : ℕ → Bool) (d : BlockDev) : Prop where
  pagesInUse : ∀ b ∈ g.blocks, (d.blockInfo b).pagesInUse = countChunkBits g b d.chunkBits
  softDelPages : ∀ b ∈ g.blocks, (d.blockInfo b).softDelPages = countChunkBits g b soft
  soft_nonneg : ∀ b ∈ g.blocks, 0 ≤ (d.blockInfo b).softDelPages
  soft_le : ∀ b ∈ g.blocks, (d.blockInfo b).softDelPages ≤ (d.blockInfo b).pagesInUse
  pages_le : ∀ b ∈ g.blocks, (d.blockInfo b).pagesInUse ≤ g.chunksPerBlock
  unused : ∀ b ∈ g.blocks, (d.blockInfo b).pagesInUse = 0 ↔ NoBits g b d.chunkBits
  pagesUsed : ∀ b ∈ g.blocks, ∀ n : ℕ,
    (d.blockInfo b).pagesUsed < n ↔ countChunkBits g b d.chunkBits - countChunkBits g b soft < n

end

variable {g : Geometry} {e : Env} {soft : ℕ → Bool} {d : BlockDev} {b c : ℕ}

/-! ## Counts that fit -/

theorem countChunkBits_le (b : ℕ) (bits : ℕ → Bool) : countChunkBits g b bits ≤ g.chunksPerBlock := by
  have hcount : countChunkBits g b bits = ((g.chunksOf b).countP fun c => bits c : ℕ) :=
    tally_indicator (g.chunksOf b) (fun x => x) bits
  have hlen : (g.chunksOf b).length = g.chunksPerBlock := List.length_range'
  have := List.countP_le_length (l := g.chunksOf b) (p := fun c => bits c)
  omega

/-- The count grows with the bits. -/
theorem countChunkBits_mono (b : ℕ) {bits bits' : ℕ → Bool} (h : ∀ c, bits c = true → bits' c = true) :
    countChunkBits g b bits ≤ countChunkBits g b bits' := by
  have hcount : ∀ x : ℕ → Bool, countChunkBits g b x = ((g.chunksOf b).countP fun c => x c : ℕ) :=
    fun x => tally_indicator (g.chunksOf b) (fun y => y) x
  rw [hcount, hcount]
  exact_mod_cast List.countP_mono_left fun c _ => h c

/-- A count of up to 511 fits the bit field. -/
theorem bits10_eq {n : ℤ} (h0 : 0 ≤ n) (hn : n ≤ 511) : bits10 n = n :=
  Int.bmod_eq_of_le (by omega) (by omega)

/-- The pages used, a `u32`, are compared as the counts are. -/
theorem BlkInv.pagesUsed_lt {T : ℕ → BlockState → Prop} {k : ℤ} (h : BlkInv g T d) (hfree : FreeInv g soft k d)
    (hb : b ∈ g.blocks) (n : ℕ) : (d.blockInfo b).pagesUsed < n ↔
      (d.blockInfo b).pagesInUse - (d.blockInfo b).softDelPages < n := by
  have hpages := h.pages b hb
  have hsoft := hfree.soft_pages b hb
  have hle := countChunkBits_mono (g := g) b hfree.soft_bit
  have hpos := countChunkBits_nonneg (g := g) b soft
  have hmax := countChunkBits_le (g := g) b d.chunkBits
  have hlt := g.chunks_lt
  have hone : g.chunksPerBlock * 1 ≤ g.chunksPerBlock * (g.endBlock + 1) :=
    Nat.mul_le_mul_left _ (Nat.le_add_left 1 _)
  unfold BlockInfo.pagesUsed u32
  omega

theorem TrueCounts.countersTrue (h : TrueCounts g soft d) : CountersTrue g soft d := by
  obtain ⟨k, hfree⟩ := h.free
  have hpages := h.blk.pages
  have hsoft := hfree.soft_pages
  have hle : ∀ b, countChunkBits g b soft ≤ countChunkBits g b d.chunkBits :=
    fun b => countChunkBits_mono b hfree.soft_bit
  have hpos := fun b => countChunkBits_nonneg (g := g) b soft
  have hmax := fun b => countChunkBits_le (g := g) b d.chunkBits
  exact
    { pagesInUse := hpages
      softDelPages := hsoft
      soft_nonneg := fun b hb => (hsoft b hb).symm ▸ hpos b
      soft_le := fun b hb => by
        rw [hsoft b hb, hpages b hb]
        exact hle b
      pages_le := fun b hb => (hpages b hb).symm ▸ hmax b
      unused := fun b hb => by rw [hpages b hb, countChunkBits_eq_zero]
      pagesUsed := fun b hb n => by
        rw [h.blk.pagesUsed_lt hfree hb, hsoft b hb, hpages b hb] }

/-- Counts of up to 511 are stored as they are. -/
theorem TrueCounts.narrow_eq (h : TrueCounts g soft d)
    (hle : ∀ b ∈ g.blocks, countChunkBits g b d.chunkBits ≤ 511) : narrow g d = d := by
  have htrue := h.countersTrue
  have hinfo : (narrow g d).blockInfo = d.blockInfo := by
    ext b : 1
    change (if b ∈ g.blocks then (d.blockInfo b).narrow else d.blockInfo b) = d.blockInfo b
    split_ifs with hb
    · have h1 := htrue.soft_nonneg b hb
      have h2 := htrue.soft_le b hb
      have h3 := htrue.pagesInUse b hb
      have h4 := hle b hb
      have hsoft := bits10_eq (n := (d.blockInfo b).softDelPages) h1 (by omega)
      have hpages := bits10_eq (n := (d.blockInfo b).pagesInUse) (by omega) (by omega)
      unfold BlockInfo.narrow
      rw [hsoft, hpages]
    · rfl
  exact congrArg (fun t => { d with blockInfo := t }) hinfo

theorem TrueCounts.narrow_eq_of_le (h : TrueCounts g soft d) (hg : g.chunksPerBlock ≤ 511) : narrow g d = d :=
  h.narrow_eq fun b _ => (countChunkBits_le b _).trans (by omega)

/-! ## Steps that count -/

theorem TrueCounts.ready (h : TrueCounts g soft d) : Ready g inGc anyBlock d :=
  ⟨h.blk, h.opn, fun _ _ => trivial⟩

theorem TrueCounts.alloc (h : TrueCounts g soft d) (useReserver : Bool) :
    TrueCounts g soft (allocChunk g useReserver d).1 := by
  obtain ⟨k, hfree⟩ := h.free
  have hspec := allocChunk_spec h.ready useReserver
  cases hc : (allocChunk g useReserver d).2 with
  | none =>
    rw [hc] at hspec
    exact ⟨hspec.keeps.blk, hspec.opn, k, hspec.keeps.free soft k hfree⟩
  | some c =>
    rw [hc] at hspec
    exact ⟨hspec.keeps.blk, hspec.opn, k, hspec.keeps.free soft k hfree⟩

theorem TrueCounts.del (h : TrueCounts g soft d) (hc : d.chunkBits c = true) (hs : soft c = false) (m : Bool) :
    TrueCounts g soft (chunkDel g e c m d) := by
  obtain ⟨k, hfree⟩ := h.free
  have hspec := chunkDel_spec (e := e) h.blk hc m
  exact ⟨hspec.blk, hspec.opn h.blk h.opn, k, hspec.free soft k hs hfree⟩

/-- A released page is counted before the block may become dirty. -/
theorem TrueCounts.release (h : TrueCounts g soft d) (hc : d.chunkBits c = true) (hs : soft c = false) (m : Bool) :
    TrueCounts g soft (releaseChunk (c / g.chunksPerBlock) c
      (markIfNeeded g e c m (updateOldestDirtySeq g (c / g.chunksPerBlock) d))) := by
  obtain ⟨k, hfree⟩ := h.free
  have hspec := (markAndRelease_spec (e := e) h.blk hc m).1
  exact ⟨hspec.blk, hspec.opn h.blk h.opn, k, hspec.free soft k hs hfree⟩

theorem chunkDelNarrow_eq (h : TrueCounts g soft d) (hg : g.chunksPerBlock ≤ 511) (hc : d.chunkBits c = true)
    (hs : soft c = false) (m : Bool) : chunkDelNarrow g e c m d = chunkDel g e c m d := by
  unfold chunkDelNarrow chunkDel
  dsimp only
  rw [(h.release (e := e) hc hs m).narrow_eq_of_le hg]

/-- The number of the soft-deleted chunks of a block changes by `n`, and that of the free chunks with it. -/
theorem TrueCounts.setSoft (h : TrueCounts g soft d) (hc : d.chunkBits c = true) (x : Bool) {n : ℤ}
    (hn : ∀ b, countChunkBits g b (Function.update soft c x) =
      countChunkBits g b soft + if c / g.chunksPerBlock = b then n else 0) (m : ℤ) :
    TrueCounts g (Function.update soft c x)
      { d.modBlock (c / g.chunksPerBlock) (fun bi => { bi with softDelPages := bi.softDelPages + n }) with
        nFreeChunks := m } := by
  obtain ⟨k, hfree⟩ := h.free
  have hblk := h.blk.flags (b := c / g.chunksPerBlock) (f := fun bi => { bi with softDelPages := bi.softDelPages + n })
    (fun _ => rfl) (fun _ => rfl) (fun _ => rfl) (fun _ => rfl)
  refine ⟨{ hblk with }, ⟨h.opn.page_lt, h.opn.clear, fun b' hb' => ?_⟩, _,
    ⟨fun c' hc' => ?_, fun b' hb' => ?_, (add_sub_cancel _ _).symm⟩⟩
  · have hsum := h.opn.noSummary b' hb'
    change (Function.update d.blockInfo _ _ b').hasSummary = false
    rcases eq_or_ne b' (c / g.chunksPerBlock) with rfl | hne
    · rwa [Function.update_self]
    · rwa [Function.update_of_ne hne]
  · rcases eq_or_ne c' c with rfl | hne
    · exact hc
    · rw [Function.update_of_ne hne] at hc'
      exact hfree.soft_bit c' hc'
  · have hold := hfree.soft_pages b' hb'
    rw [hn b', ← hold]
    change (Function.update d.blockInfo _ _ b').softDelPages = _
    rcases eq_or_ne b' (c / g.chunksPerBlock) with rfl | hne
    · rw [Function.update_self, if_pos rfl]
    · rw [Function.update_of_ne hne, if_neg (Ne.symm hne), add_zero]

theorem updateOldestDirtySeq_counted (h : TrueCounts g soft d) (hc : d.chunkBits c = true) :
    TrueCounts g soft (updateOldestDirtySeq g (c / g.chunksPerBlock) d) := by
  obtain ⟨k, hfree⟩ := h.free
  refine ⟨h.blk.updateOldest_of_bit hc, ?_, k, updateOldestDirtySeq_free hfree⟩
  unfold updateOldestDirtySeq
  split_ifs
  · exact { h.opn with }
  · exact h.opn

theorem TrueCounts.softDel (h : TrueCounts g soft d) (hg : g.chunksPerBlock ≤ 511) (hc : d.chunkBits c = true)
    (hs : soft c = false) : TrueCounts g (Function.update soft c true) (softDelChunkNarrow g c d) := by
  have hn := fun b => countChunkBits_set (g := g) (b := b) hs
  have hnarrow := (h.setSoft hc true hn d.nFreeChunks).narrow_eq_of_le hg
  unfold softDelChunkNarrow
  dsimp only
  change TrueCounts g _ (updateOldestDirtySeq g (c / g.chunksPerBlock)
    { narrow g { d.modBlock (c / g.chunksPerBlock) (fun bi => { bi with softDelPages := bi.softDelPages + 1 }) with
        nFreeChunks := d.nFreeChunks } with nFreeChunks := d.nFreeChunks + 1 })
  rw [hnarrow]
  exact updateOldestDirtySeq_counted (h.setSoft hc true hn (d.nFreeChunks + 1)) hc

theorem TrueCounts.gcDrop (h : TrueCounts g soft d) (hg : g.chunksPerBlock ≤ 511) (hs : soft c = true) :
    TrueCounts g (Function.update soft c false) (gcDropNarrow g e c d) := by
  obtain ⟨k, hfree⟩ := h.free
  have hc := hfree.soft_bit c hs
  have hn : ∀ b, countChunkBits g b (Function.update soft c false) =
      countChunkBits g b soft + if c / g.chunksPerBlock = b then -1 else 0 := by
    intro b
    rw [countChunkBits_clear hs]
    split_ifs <;> omega
  have hnarrow := (h.setSoft hc false hn d.nFreeChunks).narrow_eq_of_le hg
  have hcount := h.setSoft hc false hn (d.nFreeChunks - 1)
  unfold gcDropNarrow
  dsimp only
  change TrueCounts g _ (chunkDelNarrow g e c false
    { narrow g { d.modBlock (c / g.chunksPerBlock) (fun bi => { bi with softDelPages := bi.softDelPages + -1 }) with
        nFreeChunks := d.nFreeChunks } with nFreeChunks := d.nFreeChunks - 1 })
  rw [hnarrow, chunkDelNarrow_eq hcount hg hc (Function.update_self ..)]
  exact hcount.del hc (Function.update_self ..) false

/-- gc takes up a block, or leaves it. -/
theorem TrueCounts.setState (h : TrueCounts g soft d) {s : BlockState} (hblk : BlkInv g inGc (d.setState b s))
    (hb : b ∈ g.blocks) : TrueCounts g soft (d.setState b s) := by
  obtain ⟨k, hfree⟩ := h.free
  refine ⟨hblk, ⟨h.opn.page_lt, h.opn.clear, fun b' hb' => ?_⟩, _, hfree.modBlock hb rfl⟩
  have hsum := h.opn.noSummary b' hb'
  change (Function.update d.blockInfo _ _ b').hasSummary = false
  rcases eq_or_ne b' b with rfl | hne
  · rwa [Function.update_self]
  · rwa [Function.update_of_ne hne]

/-- With no more than 511 chunks in a block every run counts. -/
theorem CountRun.counted (hg : g.chunksPerBlock ≤ 511) (h : CountRun g e soft d) : TrueCounts g soft d := by
  induction h with
  | mounted h _ => exact h
  | alloc useReserver _ ih =>
    have hcount := ih.alloc useReserver
    rwa [allocChunkNarrow, hcount.narrow_eq_of_le hg]
  | del m _ hc hs ih =>
    rw [chunkDelNarrow_eq ih hg hc hs]
    exact ih.del hc hs m
  | softDel _ hc hs ih => exact ih.softDel hg hc hs
  | gcDrop _ hs ih => exact ih.gcDrop hg hs
  | gcStart _ hb hs ih => exact ih.setState (ih.blk.setCollecting hb hs rfl) hb
  | gcStop _ hb hs ih => exact ih.setState (ih.blk.setFull hb hs fun _ _ _ hT => hT) hb

/-! ## A block of 512 chunks -/

/-- The first allocation block of blank flash. -/
theorem ensureAllocBlock_blank (g : Geometry) :
    ∃ b, (ensureAllocBlock g (blankBlocks g fun _ => false)).alloc.block = some b := by
  have hmem := nextBlock_mem (g := g) 0
  have hgood : 0 < nGoodBlocks g fun _ => false := by
    unfold nGoodBlocks
    exact List.countP_pos_iff.mpr ⟨_, hmem, rfl⟩
  have hone : ¬(blankBlocks g fun _ => false).nErasedBlocks < 1 := by
    change ¬((nGoodBlocks g fun _ => false : ℕ) : ℤ) < 1
    omega
  have hempty : (blankBlock g (fun _ => false) (g.nextBlock 0)).blockState = .empty := by
    unfold blankBlock
    rw [if_pos hmem]
    rfl
  obtain ⟨n, hn⟩ : ∃ n, g.endBlock + 1 - g.startBlock = n + 1 := by
    have := g.endBlock_gt
    exact ⟨g.endBlock - g.startBlock, by omega⟩
  refine ⟨g.nextBlock 0, ?_⟩
  have hnone : (blankBlocks g fun _ => false).alloc.block = none := rfl
  rw [ensureAllocBlock, if_pos hnone, findAllocBlock, if_neg hone, hn, findAllocBlockLoop]
  dsimp only
  split
  · rfl
  · rename_i hnot
    exact absurd hempty hnot

/-- The counters of blank flash. -/
theorem blankBlocks_counted (g : Geometry) : TrueCounts g (fun _ => false) (blankBlocks g fun _ => false) where
  blk := blankBlocks_blk g inGc _
  opn := blankBlocks_opn g _
  free := ⟨0, blankBlocks_free g _⟩

/-- The first `n` pages of the allocation block `b` are in use, and no others. -/
structure FilledTo (g : Geometry) (b n : ℕ) (d : BlockDev) : Prop where
  counted : TrueCounts g (fun _ => false) d
  block : d.alloc.block = some b
  page : d.alloc.page = n
  count : countChunkBits g b d.chunkBits = n
  others : ∀ b', b' ≠ b → NoBits g b' d.chunkBits

namespace FilledTo

variable {n : ℕ}

theorem narrow_eq (h : FilledTo g b n d) (hn : n ≤ 511) : narrow g d = d := by
  refine h.counted.narrow_eq fun b' _ => ?_
  rcases eq_or_ne b' b with rfl | hne
  · rw [h.count]
    omega
  · rw [countChunkBits_eq_zero.mpr (h.others b' hne)]
    omega

/-- The next page is allocated. -/
theorem allocated (h : FilledTo g b n d) :
    Allocated g inGc anyBlock (b * g.chunksPerBlock + n) d (allocChunk g true d).1 := by
  have hne : d.alloc.block ≠ none := by
    rw [h.block]
    exact Option.some_ne_none b
  have hensure : ensureAllocBlock g d = d := if_neg hne
  have hpage : (allocChunk g true d).2 = some (b * g.chunksPerBlock + n) := by
    rw [← h.page]
    unfold allocChunk
    dsimp only
    rw [hensure, h.block]
    rfl
  have hspec := allocChunk_spec h.counted.ready true
  rw [hpage] at hspec
  exact hspec

theorem count_alloc (h : FilledTo g b n d) (b' : ℕ) (hn : n < g.chunksPerBlock) :
    countChunkBits g b' (allocChunk g true d).1.chunkBits =
      countChunkBits g b' d.chunkBits + if b = b' then 1 else 0 := by
  rw [h.allocated.bits, countChunkBits_set h.allocated.unused, chunk_div hn]

theorem alloc (h : FilledTo g b n d) (hn : n + 1 < g.chunksPerBlock) :
    FilledTo g b (n + 1) (allocChunk g true d).1 := by
  have hlt : n < g.chunksPerBlock := by omega
  have hnext := h.allocated.next
  rw [chunk_div hlt, chunk_mod hlt] at hnext
  obtain ⟨hblock, hpage⟩ := hnext hn
  refine ⟨h.counted.alloc true, hblock, hpage, ?_, fun b' hb' => ?_⟩
  · rw [h.count_alloc b hlt, h.count, if_pos rfl]
    rfl
  · rw [← countChunkBits_eq_zero, h.count_alloc b' hlt, countChunkBits_eq_zero.mpr (h.others b' hb'),
      if_neg (Ne.symm hb'), add_zero]

end FilledTo

/-- The first allocation is made in the block that it opens. -/
theorem allocChunk_ensure (h : (ensureAllocBlock g d).alloc.block = some b) :
    allocChunk g true d = allocChunk g true (ensureAllocBlock g d) := by
  have hne : (ensureAllocBlock g d).alloc.block ≠ none := by
    rw [h]
    exact Option.some_ne_none b
  have hensure : ensureAllocBlock g (ensureAllocBlock g d) = ensureAllocBlock g d := if_neg hne
  unfold allocChunk
  dsimp only
  rw [hensure]

/-- Up to 511 pages of a block are counted as they are allocated. -/
theorem opened_run (hg : 512 ≤ g.chunksPerBlock) (e : Env) (n : ℕ) (hn : n ≤ 510) :
    ∃ b d, CountRun g e (fun _ => false) d ∧ FilledTo g b (n + 1) d := by
  induction n with
  | zero =>
    have hblank := blankBlocks_counted g
    obtain ⟨b, hb⟩ := ensureAllocBlock_blank g
    have hcases := ensureAllocBlock_spec hblank.ready
    obtain ⟨hkeeps, hopn, hbits, -, -⟩ := hcases
    have hpage : (ensureAllocBlock g (blankBlocks g fun _ => false)).alloc.page = 0 := by
      rcases ensureAllocBlock_cases (g := g) (blankBlocks g fun _ => false) with ⟨a, ha, -, heq⟩ | ⟨b', a, -, -, -, -, ha, heq⟩
      · rw [heq] at hb
        exact absurd (ha.symm.trans hb) (by simp [blankBlocks])
      · rw [heq]
        exact ha
    have hnone : ∀ b', NoBits g b' (ensureAllocBlock g (blankBlocks g fun _ => false)).chunkBits := by
      intro b' c _
      rw [hbits]
      rfl
    have hopened : FilledTo g b 0 (ensureAllocBlock g (blankBlocks g fun _ => false)) :=
      { counted := ⟨hkeeps.blk, hopn, hblank.free.imp fun k hk => hkeeps.free _ k hk⟩
        block := hb
        page := hpage
        count := countChunkBits_eq_zero.mpr (hnone b)
        others := fun b' _ => hnone b' }
    have hone := hopened.alloc (by omega)
    have hrun : CountRun g e (fun _ => false) (allocChunkNarrow g true (blankBlocks g fun _ => false)) :=
      .alloc true (.mounted hblank (hblank.narrow_eq fun b' _ => by
        rw [← hbits, countChunkBits_eq_zero.mpr (hnone b')]
        decide))
    rw [allocChunkNarrow, allocChunk_ensure hb, hone.narrow_eq (by omega)] at hrun
    exact ⟨b, _, hrun, hone⟩
  | succ n ih =>
    obtain ⟨b, d, hrun, hopened⟩ := ih (by omega)
    have hnext := hopened.alloc (by omega)
    have hrun' := CountRun.alloc true hrun
    rw [allocChunkNarrow, hnext.narrow_eq (by omega)] at hrun'
    exact ⟨b, _, hrun', hnext⟩

/-- A bit field of 10 bits cannot hold 512. -/
theorem bits10_ne (n : ℤ) : bits10 n ≠ 512 := by
  have := Int.bmod_lt (x := n) (m := 1024) (by decide)
  unfold bits10
  omega

/-- The last of 512 pages is not counted. -/
theorem counters_fail (hg : 512 ≤ g.chunksPerBlock) (e : Env) :
    ∃ soft d, CountRun g e soft d ∧ ¬CountersTrue g soft d := by
  obtain ⟨b, d, hrun, hopened⟩ := opened_run hg e 510 (by omega)
  refine ⟨_, _, .alloc true hrun, fun htrue => ?_⟩
  obtain ⟨hmem, -, -⟩ := hopened.counted.blk.alloc_block b hopened.block
  have hpages := htrue.pagesInUse b hmem
  have hcount := hopened.count_alloc b (by omega)
  rw [hopened.count, if_pos rfl] at hcount
  have hfield : ((allocChunkNarrow g true d).blockInfo b).pagesInUse =
      bits10 ((allocChunk g true d).1.blockInfo b).pagesInUse := by
    change (if b ∈ g.blocks then _ else _ : BlockInfo).pagesInUse = _
    rw [if_pos hmem]
    rfl
  exact bits10_ne _ (hfield.symm.trans (hpages.trans hcount))

/-- The counters hold the true counts in every run exactly when a block has no more than 511 chunks. -/
theorem countersTrue_iff (g : Geometry) (e : Env) :
    (∀ soft d, CountRun g e soft d → CountersTrue g soft d) ↔ g.chunksPerBlock ≤ 511 := by
  constructor
  · intro hall
    by_contra hg
    obtain ⟨soft, d, hrun, hfail⟩ := counters_fail (g := g) (by omega) e
    exact hfail (hall soft d hrun)
  · intro hg soft d hrun
    exact (hrun.counted hg).countersTrue

/-- The sample device with blocks of 512 chunks. -/
def bigBlockGeometry : Geometry :=
  { sampleGeometry with
    toParam := { sampleGeometry.toParam with chunksPerBlock := 512 }
    two_le_chunksPerBlock := by decide
    chunkGrpSize_le := by decide
    chunks_lt := by decide }

/-- The counter of a block of it that is filled does not hold 512. -/
theorem bigBlocks_fail :
    ¬∀ soft d, CountRun bigBlockGeometry okEnv soft d → CountersTrue bigBlockGeometry soft d := by
  intro hall
  obtain ⟨soft, d, hrun, hfail⟩ := counters_fail (g := bigBlockGeometry) (by decide) okEnv
  exact hfail (hall soft d hrun)

end Yaffs
