import Yaffs.Writing
import Yaffs.Summary
import Yaffs.Run
import Mathlib.Logic.Relation

/-!
# Filling a block

The pages of a block that have been written, and what the summary of the block says of them.
`FillInv` is the invariant of the block management : pages are written behind one another into
the allocation block, `dev->sum_tags` has the packed tags of those written since the mount, and
a summary on flash has those of its block. `Sheds` is what everything but a write does : pages
may go, none comes.
-/

namespace Yaffs

variable {g : Geometry} {e : Env} {d d' d'' : BlockDev} {b c : ℕ}

/-! ## The pages written -/

/-- The tags with which chunk `c` has been programmed, going by the latest calls first : by
`yaffs_wr_chunk_tags_nand`, with success, and not before an erasure of its block. -/
def lastWrite (g : Geometry) (c : ℕ) : List NandCall → Option ExtTags
  | [] => none
  | .program c' t ok :: calls =>
    if c' = c then (if ok && t.chunkUsed then some t else none) else lastWrite g c calls
  | .erase b _ :: calls => if c / g.chunksPerBlock = b then none else lastWrite g c calls
  | .markBad _ _ :: calls => lastWrite g c calls

/-- The tags with which chunk `c` has been written successfully. -/
def BlockDev.written (g : Geometry) (d : BlockDev) (c : ℕ) : Option ExtTags :=
  lastWrite g c d.nand.trace

theorem driverMarkBad_written : (driverMarkBad e b d).1.written g = d.written g := rfl

theorem eraseBlock_written : (eraseBlock g e b d).1.written g =
    fun c => if c / g.chunksPerBlock = b then none else d.written g c := rfl

theorem driverWrite_written (p : Page) : (driverWrite e c p d).1.written g = Function.update (d.written g) c
    (if (driverWrite e c p d).2 && p.tags.chunkUsed then some p.tags else none) := by
  funext c'
  by_cases hc : c' = c
  · subst hc
    simp [BlockDev.written, driverWrite, lastWrite]
  · simp [BlockDev.written, driverWrite, lastWrite, hc, Ne.symm hc]

/-! ## Losing pages -/

/-- The allocation block is in the state of one. -/
def AllocOpen (d : BlockDev) : Prop :=
  ∀ b, d.alloc.block = some b → (d.blockInfo b).blockState = .allocating

/-- What the allocation goes by is as before. -/
structure SameAlloc (b : ℕ) (d d' : BlockDev) : Prop where
  alloc : d'.alloc = d.alloc
  state : (d'.blockInfo b).blockState = (d.blockInfo b).blockState
  blockSeq : (d'.blockInfo b).seqNumber = (d.blockInfo b).seqNumber
  seq : d'.seqNumber = d.seqNumber
  sumTags : d'.sumTags = d.sumTags

theorem SameAlloc.trans (h : SameAlloc b d d') (h' : SameAlloc b d' d'') : SameAlloc b d d'' :=
  ⟨h'.alloc.trans h.alloc, h'.state.trans h.state, h'.blockSeq.trans h.blockSeq, h'.seq.trans h.seq,
    h'.sumTags.trans h.sumTags⟩

/-- The flash and what the allocation of pages goes by are as before. -/
structure SameFill (d d' : BlockDev) : Prop where
  flash : d'.nand.flash = d.nand.flash
  trace : d'.nand.trace = d.nand.trace
  alloc : d'.alloc = d.alloc
  seq : d'.seqNumber = d.seqNumber
  sumTags : d'.sumTags = d.sumTags
  state : ∀ b, (d'.blockInfo b).blockState = (d.blockInfo b).blockState
  blockSeq : ∀ b, (d'.blockInfo b).seqNumber = (d.blockInfo b).seqNumber

namespace SameFill

theorem refl (d : BlockDev) : SameFill d d :=
  ⟨rfl, rfl, rfl, rfl, rfl, fun _ => rfl, fun _ => rfl⟩

theorem trans (h : SameFill d d') (h' : SameFill d' d'') : SameFill d d'' :=
  ⟨h'.flash.trans h.flash, h'.trace.trans h.trace, h'.alloc.trans h.alloc, h'.seq.trans h.seq,
    h'.sumTags.trans h.sumTags, fun b => (h'.state b).trans (h.state b),
    fun b => (h'.blockSeq b).trans (h.blockSeq b)⟩

/-- Nothing but one block's info changes of what the invariants go by, and in it neither the
state nor the number. -/
theorem info {bi : BlockInfo} (hinfo : d'.blockInfo = Function.update d.blockInfo b bi)
    (hs : bi.blockState = (d.blockInfo b).blockState) (hn : bi.seqNumber = (d.blockInfo b).seqNumber)
    (hflash : d'.nand.flash = d.nand.flash) (htrace : d'.nand.trace = d.nand.trace) (halloc : d'.alloc = d.alloc)
    (hseq : d'.seqNumber = d.seqNumber) (hsum : d'.sumTags = d.sumTags) : SameFill d d' := by
  refine ⟨hflash, htrace, halloc, hseq, hsum, fun b' => ?_, fun b' => ?_⟩ <;> by_cases hbb : b' = b
  · subst hbb
    simp [hinfo, hs]
  · simp [hinfo, hbb]
  · subst hbb
    simp [hinfo, hn]
  · simp [hinfo, hbb]

end SameFill

/-- The pages written in `d'` were there in `d`, a block that has become empty has none, and
the allocation goes on as before or has been given up. -/
structure Sheds (g : Geometry) (d d' : BlockDev) : Prop where
  kept : ∀ c t, d'.written g c = some t → d.written g c = some t ∧ d'.nand.flash c = d.nand.flash c
  empty : ∀ b, (d'.blockInfo b).blockState = .empty → (d.blockInfo b).blockState = .empty ∨
    ∀ c, c / g.chunksPerBlock = b → d'.written g c = none
  opn : AllocOpen d → ∀ b, d'.alloc.block = some b → SameAlloc b d d'

namespace Sheds

theorem refl (d : BlockDev) : Sheds g d d :=
  ⟨fun _ _ h => ⟨h, rfl⟩, fun _ h => Or.inl h, fun _ _ _ => ⟨rfl, rfl, rfl, rfl, rfl⟩⟩

/-- An unwritten page stays so. -/
theorem none (h : Sheds g d d') (hc : d.written g c = none) : d'.written g c = none := by
  cases h' : d'.written g c with
  | none => rfl
  | some t =>
    rw [(h.kept c t h').1] at hc
    exact absurd hc (by simp)

theorem allocOpen (h : Sheds g d d') (hd : AllocOpen d) : AllocOpen d' := fun b hb => by
  have hs := h.opn hd b hb
  rw [hs.state]
  exact hd b (hs.alloc ▸ hb)

theorem trans (h : Sheds g d d') (h' : Sheds g d' d'') : Sheds g d d'' where
  kept c t hc := by
    obtain ⟨h1, h2⟩ := h'.kept c t hc
    obtain ⟨h3, h4⟩ := h.kept c t h1
    exact ⟨h3, h2.trans h4⟩
  empty b hb := by
    rcases h'.empty b hb with hb' | hnone
    · exact (h.empty b hb').imp id fun hnone c hc => h'.none (hnone c hc)
    · exact Or.inr hnone
  opn hd b hb := by
    have hs := h'.opn (h.allocOpen hd) b hb
    exact (h.opn hd b (hs.alloc ▸ hb)).trans hs

/-- The flash stays as it is, no block becomes empty, and what the allocation goes by is
as before. -/
theorem same (hflash : d'.nand.flash = d.nand.flash) (htrace : d'.nand.trace = d.nand.trace)
    (hstate : ∀ b, (d'.blockInfo b).blockState = .empty → (d.blockInfo b).blockState = .empty)
    (hopen : AllocOpen d → ∀ b, d'.alloc.block = some b → SameAlloc b d d') : Sheds g d d' where
  kept c t hc := ⟨by simpa only [BlockDev.written, htrace] using hc, congrFun hflash c⟩
  empty b hb := Or.inl (hstate b hb)
  opn := hopen

/-- A block that is not being allocated from changes its state, but not to empty. -/
theorem setState {s : BlockState} (hs : s ≠ .empty) (hb : (d.blockInfo b).blockState ≠ .allocating) :
    Sheds g d (d.setState b s) := by
  refine same rfl rfl (fun b' hb' => ?_) fun hd b' hb' => ?_
  · by_cases hbb : b' = b
    · subst hbb
      exact absurd (by simpa [BlockDev.setState, BlockDev.modBlock] using hb') hs
    · simpa [BlockDev.setState, BlockDev.modBlock, hbb] using hb'
  · have hbb : b' ≠ b := fun heq => hb (heq ▸ hd b' hb')
    exact ⟨rfl, by simp [BlockDev.setState, BlockDev.modBlock, hbb],
      by simp [BlockDev.setState, BlockDev.modBlock, hbb], rfl, rfl⟩

/-- What the invariants go by is as before. -/
theorem ofSame (h : SameFill d d') : Sheds g d d' :=
  same h.flash h.trace (fun b hb => h.state b ▸ hb) fun _ b _ => ⟨h.alloc, h.state b, h.blockSeq b, h.seq, h.sumTags⟩

/-- A step of the driver after which the pages written were there before. -/
theorem driver {n : Nand} (hkept : ∀ c t, lastWrite g c n.trace = some t →
      d.written g c = some t ∧ n.flash c = d.nand.flash c) : Sheds g d { d with nand := n } where
  kept := hkept
  empty _ hb := Or.inl hb
  opn _ _ _ := ⟨rfl, rfl, rfl, rfl, rfl⟩

theorem driverMarkBad : Sheds g d (Yaffs.driverMarkBad e b d).1 :=
  driver fun _ _ hc => ⟨hc, rfl⟩

theorem eraseBlock : Sheds g d (Yaffs.eraseBlock g e b d).1 :=
  driver fun c t hc => by
    have hc : (if c / g.chunksPerBlock = b then Option.none else d.written g c) = some t := hc
    split at hc
    · simp at hc
    · exact ⟨hc, if_neg ‹_›⟩

/-- A page that `yaffs_wr_chunk_tags_nand` has not stamped. -/
theorem driverWrite {p : Page} (hp : p.tags.chunkUsed = false) : Sheds g d (Yaffs.driverWrite e c p d).1 :=
  driver fun c' t hc => by
    have hc : (Yaffs.driverWrite e c p d).1.written g c' = some t := hc
    rw [driverWrite_written] at hc
    by_cases hcc : c' = c
    · subst hcc
      simp [hp] at hc
    · rw [Function.update_of_ne hcc] at hc
      exact ⟨hc, Function.update_of_ne hcc _ _⟩

end Sheds

/-! ## What sheds pages -/

theorem checkptEraseBlock_sheds (b : ℕ) : Sheds g d (checkptEraseBlock g e d b) := by
  unfold checkptEraseBlock
  simp only
  split_ifs with hs hok
  · -- the block has been erased, so that it may become empty
    refine ⟨fun c t hc => ?_, fun b' hb' => ?_, fun hd b' hb' => ?_⟩
    · exact (Sheds.eraseBlock (e := e) (b := b) (d := d)).kept c t hc
    · by_cases hbb : b' = b
      · subst hbb
        exact Or.inr fun c hc => if_pos hc
      · refine Or.inl ?_
        simpa [BlockDev.setState, BlockDev.modBlock, eraseBlock, hbb] using hb'
    · have hbb : b' ≠ b := fun heq => by
        have := hd b' hb'
        rw [heq, hs] at this
        simp at this
      exact ⟨rfl, by simp [BlockDev.setState, BlockDev.modBlock, eraseBlock, hbb],
        by simp [BlockDev.setState, BlockDev.modBlock, eraseBlock, hbb], rfl, rfl⟩
  · have hne : (d.blockInfo b).blockState ≠ .allocating := by simp [hs]
    exact (Sheds.eraseBlock.trans Sheds.driverMarkBad).trans (Sheds.setState (by simp) hne)
  · exact Sheds.refl d

theorem foldl_sheds {α : Type} {f : BlockDev → α → BlockDev} (hf : ∀ d x, Sheds g d (f d x)) (l : List α) :
    ∀ d, Sheds g d (l.foldl f d) := by
  induction l with
  | nil => exact Sheds.refl
  | cons x l ih => exact fun d => (hf d x).trans (ih _)

theorem checkptErase_sheds : Sheds g d (checkptErase g e d) :=
  (foldl_sheds (fun _ b => checkptEraseBlock_sheds b) g.blocks d).trans
    (Sheds.same rfl rfl (fun _ h => h) fun _ _ _ => ⟨rfl, rfl, rfl, rfl, rfl⟩)

theorem checkptInvalidate_sheds : Sheds g d (checkptInvalidate g e d) := by
  unfold checkptInvalidate
  split_ifs
  · exact (Sheds.same rfl rfl (fun _ h => h) fun _ _ _ => ⟨rfl, rfl, rfl, rfl, rfl⟩ :
      Sheds g d { d with isCheckpointed := false }).trans checkptErase_sheds
  · exact Sheds.refl d

/-- No block changes its state. -/
theorem checkptInvalidate_state (hb : (d.blockInfo b).blockState ≠ .checkpoint) :
    ((checkptInvalidate g e d).blockInfo b) = d.blockInfo b := by
  have hstep : ∀ d : BlockDev, (d.blockInfo b).blockState ≠ .checkpoint → ∀ b',
      (checkptEraseBlock g e d b').blockInfo b = d.blockInfo b := fun d hd b' => by
    unfold checkptEraseBlock
    simp only
    split_ifs with hs hok
    all_goals first
      | rfl
      | (have hbb : b ≠ b' := fun heq => hd (heq ▸ hs)
         simp [BlockDev.setState, BlockDev.modBlock, eraseBlock, driverMarkBad, hbb])
  have hfold : ∀ (l : List ℕ) (d : BlockDev), (d.blockInfo b).blockState ≠ .checkpoint →
      (l.foldl (checkptEraseBlock g e) d).blockInfo b = d.blockInfo b := fun l => by
    induction l with
    | nil => exact fun _ _ => rfl
    | cons b' l ih => exact fun d hd => (ih _ (by rw [hstep d hd]; exact hd)).trans (hstep d hd b')
  unfold checkptInvalidate
  split_ifs
  · exact hfold g.blocks _ hb
  · rfl

theorem clearOldestDirtySeq_sheds : Sheds g d (clearOldestDirtySeq g b d) := by
  unfold clearOldestDirtySeq
  split_ifs
  · exact Sheds.same rfl rfl (fun _ h => h) fun _ _ _ => ⟨rfl, rfl, rfl, rfl, rfl⟩
  · exact Sheds.refl d

theorem markRetired_sheds : Sheds g d (markRetired g e b d) := by
  have hmark : Sheds g d (markBad g e b d).1 := by
    unfold markBad
    split_ifs
    · exact Sheds.refl d
    · exact Sheds.driverMarkBad
  unfold markRetired
  simp only
  split_ifs
  · exact hmark
  · exact (hmark.trans Sheds.eraseBlock).trans (Sheds.driverWrite rfl)
  · exact hmark.trans Sheds.eraseBlock

/-- A block out of service is retired. -/
theorem retireBlock_sheds (hb : (d.blockInfo b).blockState = .dirty) : Sheds g d (retireBlock g e b d) := by
  have hsame : ((markRetired g e b (clearOldestDirtySeq g b (checkptInvalidate g e d))).blockInfo b).blockState
      = .dirty := by
    obtain ⟨n, hn, -⟩ := markRetired_eq g e b (clearOldestDirtySeq g b (checkptInvalidate g e d))
    rw [hn]
    simp only
    rw [clearOldestDirtySeq_blockInfo, checkptInvalidate_state (by simp [hb]), hb]
  refine (((checkptInvalidate_sheds (e := e)).trans (clearOldestDirtySeq_sheds (b := b))).trans
    (markRetired_sheds (e := e) (b := b))).trans ?_
  unfold retireBlock
  refine Sheds.same rfl rfl (fun b' hb' => ?_) fun hd b' hb' => ?_
  · by_cases hbb : b' = b
    · subst hbb
      simp [BlockDev.modBlock] at hb'
    · simpa [BlockDev.modBlock, hbb] using hb'
  · have hbb : b' ≠ b := fun heq => by
      have := hd b' hb'
      rw [heq, hsame] at this
      simp at this
    exact ⟨rfl, by simp [BlockDev.modBlock, hbb], by simp [BlockDev.modBlock, hbb], rfl, rfl⟩

theorem becomeDirty_sheds (hb : (d.blockInfo b).blockState ≠ .allocating) : Sheds g d (becomeDirty g b d) := by
  have hstate : ((clearOldestDirtySeq g b d).blockInfo b).blockState ≠ .allocating := by
    rwa [clearOldestDirtySeq_blockInfo]
  exact (clearOldestDirtySeq_sheds.trans (Sheds.setState (by simp) hstate)).trans
    (Sheds.same rfl rfl (fun _ h => h) fun _ _ _ => ⟨rfl, rfl, rfl, rfl, rfl⟩)

/-- A block that is not being allocated from is erased, or retired. -/
theorem blockBecameDirty_sheds (hb : (d.blockInfo b).blockState ≠ .allocating) :
    Sheds g d (blockBecameDirty g e b d) := by
  have hdirty := becomeDirty_state (g := g) (b := b) (d := d)
  have hinv := checkptInvalidate_state (g := g) (e := e) (d := becomeDirty g b d) (b := b) (by simp [hdirty])
  have hcount : ∀ x : BlockDev, Sheds g x { x with nFreeChunks := x.nFreeChunks - g.chunksPerBlock } :=
    fun _ => Sheds.same rfl rfl (fun _ h => h) fun _ _ _ => ⟨rfl, rfl, rfl, rfl, rfl⟩
  refine (becomeDirty_sheds hb).trans ?_
  unfold blockBecameDirty eraseUnlessRetiring
  simp only
  split
  · exact (hcount _).trans (retireBlock_sheds hdirty)
  · split
    · -- the erased block becomes empty
      refine (checkptInvalidate_sheds (e := e)).trans ⟨fun c t hc => ?_, fun b' hb' => ?_, fun hd b' hb' => ?_⟩
      · exact (Sheds.eraseBlock (e := e) (b := b)).kept c t hc
      · by_cases hbb : b' = b
        · subst hbb
          exact Or.inr fun c hc => if_pos hc
        · refine Or.inl ?_
          simpa [cleanBlock, clearChunkBits, BlockDev.modBlock, eraseBlock, hbb] using hb'
      · have hbb : b' ≠ b := fun heq => by
          have := hd b' hb'
          rw [heq, hinv, hdirty] at this
          simp at this
        exact ⟨rfl, by simp [cleanBlock, clearChunkBits, BlockDev.modBlock, eraseBlock, hbb],
          by simp [cleanBlock, clearChunkBits, BlockDev.modBlock, eraseBlock, hbb], rfl, rfl⟩
    · refine checkptInvalidate_sheds.trans (Sheds.eraseBlock.trans ((hcount _).trans (retireBlock_sheds ?_)))
      simp only [eraseBlock]
      rw [hinv, hdirty]

theorem releaseChunk_same : SameFill d (releaseChunk b c d) :=
  SameFill.info rfl rfl rfl rfl rfl rfl rfl rfl

/-- On a yaffs2 device a chunk is deleted without a mark on its page. -/
theorem chunkDel_sheds (hy : g.isYaffs2 = true) (m : Bool) : Sheds g d (chunkDel g e c m d) := by
  unfold chunkDel
  simp only
  split
  · exact Sheds.refl d
  · have hmark : markIfNeeded g e c m (updateOldestDirtySeq g (c / g.chunksPerBlock) d) =
        updateOldestDirtySeq g (c / g.chunksPerBlock) d := by simp [markIfNeeded, hy]
    have hold : Sheds g d (updateOldestDirtySeq g (c / g.chunksPerBlock) d) := by
      unfold updateOldestDirtySeq
      split_ifs
      · exact Sheds.same rfl rfl (fun _ h => h) fun _ _ _ => ⟨rfl, rfl, rfl, rfl, rfl⟩
      · exact Sheds.refl d
    rw [hmark]
    have hrelease : ∀ x : BlockDev, Sheds g x (releaseChunk (c / g.chunksPerBlock) c x) :=
      fun x => Sheds.ofSame releaseChunk_same
    split
    · split
      · refine (hold.trans (hrelease _)).trans (blockBecameDirty_sheds ?_)
        rename_i hdirty
        simp only [BlockInfo.becameDirty, Bool.and_eq_true, bne_iff_ne] at hdirty
        exact hdirty.1.2
      · exact hold.trans (hrelease _)
    · exact hold

/-- gc starts on a block. -/
theorem gcBlockStart_sheds : Sheds g d (gcBlockStart g b d) := by
  have hgc : ∀ x : BlockDev, Sheds g x (summaryGc g b x) := fun x => by
    unfold summaryGc
    split_ifs
    · refine foldl_sheds (fun x page => ?_) _ _
      simp only
      split_ifs
      · exact Sheds.ofSame releaseChunk_same
      · exact Sheds.refl x
    · exact Sheds.refl x
  have hstate : Sheds g d (if (d.blockInfo b).blockState = .full then d.setState b .collecting else d) := by
    split_ifs with hs
    · exact Sheds.setState (by simp) (by simp [hs])
    · exact Sheds.refl d
  have hflag : ∀ x : BlockDev, Sheds g x { x.modBlock b fun bi => { bi with hasShrinkHdr := false } with
      gc := { x.gc with disable := true } } := fun x => Sheds.ofSame
    (SameFill.info rfl rfl rfl rfl rfl rfl rfl rfl)
  exact (hstate.trans (hflag _)).trans (hgc _)

/-- The allocation block is given up. -/
theorem skipRestOfBlock_sheds : Sheds g d (skipRestOfBlock d) := by
  unfold skipRestOfBlock
  split
  · split_ifs
    · refine Sheds.same rfl rfl (fun b' hb' => ?_) fun _ b' hb' => by simp [closeBlock] at hb'
      rename_i b0 _ _
      by_cases hbb : b' = b0
      · subst hbb
        simp [closeBlock, BlockDev.setState, BlockDev.modBlock] at hb'
      · simpa [closeBlock, BlockDev.setState, BlockDev.modBlock, hbb] using hb'
    · exact Sheds.refl d
  · exact Sheds.refl d

theorem handleChunkError_same : SameFill d (handleChunkError b d) := by
  unfold handleChunkError
  split_ifs
  · exact SameFill.refl d
  · exact SameFill.info rfl rfl rfl rfl rfl rfl rfl rfl

/-! ## The invariant -/

/-- The byte of a summary with which its page `i` starts. -/
def summaryOffset (g : Geometry) (i : ℕ) : ℕ :=
  (i - g.chunksPerSummary) * (g.dataBytesPerChunk - summaryHeaderSize)

/-- What page `i` of a block holds of the summary `sumTags`. -/
def summaryPage (g : Geometry) (hdr : SummaryHeader) (sumTags : ℕ → SummaryTags) (i : ℕ) : PageData :=
  .summary hdr ((List.range g.chunksPerSummary).map sumTags) (summaryOffset g i)
    (min (summaryTagsSize * g.chunksPerSummary - summaryOffset g i) (g.dataBytesPerChunk - summaryHeaderSize))

/-- `sumTags` has the packed tags of the pages of block `b`, or nothing, and these carry the
number `seq`. -/
def Tells (g : Geometry) (d : BlockDev) (b seq : ℕ) (sumTags : ℕ → SummaryTags) : Prop :=
  ∀ c t, c / g.chunksPerBlock = b → c % g.chunksPerBlock < g.chunksPerSummary → d.written g c = some t →
    t.seqNumber = seq ∧
      (sumTags (c % g.chunksPerBlock) = packTags2TagsOnly t ∨ sumTags (c % g.chunksPerBlock) = {})

/-- The pages behind those a summary covers hold a summary that tells of the block. -/
def Sealed (g : Geometry) (d : BlockDev) (b : ℕ) : Prop :=
  ∃ seq sum sumTags, Tells g d b seq sumTags ∧ ∀ c t, c / g.chunksPerBlock = b →
    g.chunksPerSummary ≤ c % g.chunksPerBlock → d.written g c = some t →
    d.nand.flash c = some ⟨t, summaryPage g ⟨1, b, seq, sum⟩ sumTags (c % g.chunksPerBlock)⟩

/-- What is on flash. -/
structure OnFlash (g : Geometry) (d : BlockDev) : Prop where
  flash : ∀ c t, d.written g c = some t → ∃ data, d.nand.flash c = some ⟨t, data⟩
  empty : ∀ b, (d.blockInfo b).blockState = .empty → ∀ c, c / g.chunksPerBlock = b → d.written g c = none
  sealed : ∀ b, Sealed g d b

/-- Block `b` is being allocated from, and written up to page `i`. -/
structure WrittenTo (g : Geometry) (d : BlockDev) (b i : ℕ) : Prop where
  block : d.alloc.block = some b
  mem : b ∈ g.blocks
  state : (d.blockInfo b).blockState = .allocating
  blockSeq : (d.blockInfo b).seqNumber = d.seqNumber
  unwritten : ∀ c, c / g.chunksPerBlock = b → i ≤ c % g.chunksPerBlock → d.written g c = none
  tells : Tells g d b d.seqNumber d.sumTags

/-- The invariant between two calls of the block management. -/
structure FillInv (g : Geometry) (d : BlockDev) : Prop extends OnFlash g d where
  alloc : ∀ b, d.alloc.block = some b → d.alloc.page < g.chunksPerSummary ∧ WrittenTo g d b d.alloc.page

/-- Chunk `c` has been allocated and is to be written. -/
structure Pending (g : Geometry) (c : ℕ) (d : BlockDev) : Prop extends OnFlash g d where
  page_lt : c % g.chunksPerBlock < g.chunksPerSummary
  page : d.alloc.page = c % g.chunksPerBlock + 1
  upTo : WrittenTo g d (c / g.chunksPerBlock) (c % g.chunksPerBlock)

theorem chunksPerSummary_pos : 0 < g.chunksPerSummary := by
  have h2 := g.two_le_chunksPerBlock
  have hD := g.objHdrSize_le
  simp only [objHdrSize] at hD
  unfold Param.chunksPerSummary summaryTagsSize summaryHeaderSize
  rw [Nat.sub_pos_iff_lt, Nat.div_lt_iff_lt_mul (by omega)]
  have hmul : 2 * (g.dataBytesPerChunk - 28) ≤ g.chunksPerBlock * (g.dataBytesPerChunk - 28) :=
    Nat.mul_le_mul_right _ h2
  have hsplit : g.chunksPerBlock * (g.dataBytesPerChunk - 16) =
      g.chunksPerBlock * 12 + g.chunksPerBlock * (g.dataBytesPerChunk - 28) := by
    rw [← Nat.mul_add]
    congr 1
    omega
  omega

theorem Tells.sheds {seq : ℕ} {sumTags : ℕ → SummaryTags} (h : Tells g d b seq sumTags) (hs : Sheds g d d') :
    Tells g d' b seq sumTags :=
  fun c t hb hc ht => h c t hb hc (hs.kept c t ht).1

theorem Sealed.sheds (h : Sealed g d b) (hs : Sheds g d d') : Sealed g d' b := by
  obtain ⟨seq, sum, sumTags, htells, hpages⟩ := h
  refine ⟨seq, sum, sumTags, htells.sheds hs, fun c t hb hc ht => ?_⟩
  obtain ⟨hw, hf⟩ := hs.kept c t ht
  exact hf.trans (hpages c t hb hc hw)

/-- A block none of whose last pages has been written. -/
theorem Tells.sealed {seq : ℕ} {sumTags : ℕ → SummaryTags} (h : Tells g d b seq sumTags)
    (hun : ∀ c, c / g.chunksPerBlock = b → g.chunksPerSummary ≤ c % g.chunksPerBlock → d.written g c = none) :
    Sealed g d b :=
  ⟨seq, 0, sumTags, h, fun c t hb hc ht => by
    rw [hun c hb hc] at ht
    exact absurd ht (by simp)⟩

theorem OnFlash.sheds (h : OnFlash g d) (hs : Sheds g d d') : OnFlash g d' where
  flash c t ht := by
    obtain ⟨hw, hf⟩ := hs.kept c t ht
    rw [hf]
    exact h.flash c t hw
  empty b hb c hc := by
    rcases hs.empty b hb with hb' | hnone
    · exact hs.none (h.empty b hb' c hc)
    · exact hnone c hc
  sealed b := (h.sealed b).sheds hs

theorem WrittenTo.sheds {i : ℕ} (h : WrittenTo g d b i) (hs : Sheds g d d') (hsame : SameAlloc b d d') :
    WrittenTo g d' b i where
  block := hsame.alloc ▸ h.block
  mem := h.mem
  state := hsame.state.trans h.state
  blockSeq := hsame.blockSeq.trans (h.blockSeq.trans hsame.seq.symm)
  unwritten c hb hc := hs.none (h.unwritten c hb hc)
  tells := by
    rw [hsame.seq, hsame.sumTags]
    exact h.tells.sheds hs

theorem WrittenTo.allocOpen {i : ℕ} (h : WrittenTo g d b i) : AllocOpen d := fun b' hb' => by
  obtain rfl : b = b' := Option.some.inj (h.block.symm.trans hb')
  exact h.state

namespace FillInv

theorem allocOpen (h : FillInv g d) : AllocOpen d := fun b hb => (h.alloc b hb).2.state

theorem sheds (h : FillInv g d) (hs : Sheds g d d') : FillInv g d' where
  toOnFlash := h.toOnFlash.sheds hs
  alloc b hb := by
    have hsame := hs.opn h.allocOpen b hb
    obtain ⟨hpage, hto⟩ := h.alloc b (hsame.alloc ▸ hb)
    rw [hsame.alloc]
    exact ⟨hpage, hto.sheds hs hsame⟩

theorem same (h : FillInv g d) (hs : SameFill d d') : FillInv g d' :=
  h.sheds (Sheds.ofSame hs)

/-- Without an allocation block nothing is to be said of it. -/
theorem closed (h : OnFlash g d) (hnone : d.alloc.block = none) : FillInv g d :=
  ⟨h, fun b hb => by simp [hnone] at hb⟩

end FillInv

namespace Pending

theorem same (h : Pending g c d) (hs : SameFill d d') : Pending g c d' where
  toOnFlash := h.toOnFlash.sheds (Sheds.ofSame hs)
  page_lt := h.page_lt
  page := hs.alloc ▸ h.page
  upTo := h.upTo.sheds (Sheds.ofSame hs) ⟨hs.alloc, hs.state _, hs.blockSeq _, hs.seq, hs.sumTags⟩

/-- The chunk is given up unwritten, and the rest of its block with it. -/
theorem discard (h : Pending g c d) (hs : Sheds g d d') : FillInv g (skipRestOfBlock d') := by
  refine FillInv.closed (h.toOnFlash.sheds (hs.trans skipRestOfBlock_sheds)) ?_
  unfold skipRestOfBlock
  cases hb : d'.alloc.block with
  | none => exact hb
  | some b =>
    have hstate := hs.allocOpen h.upTo.allocOpen b hb
    have hsame := hs.opn h.upTo.allocOpen b hb
    obtain rfl : c / g.chunksPerBlock = b := by
      rw [hsame.alloc, h.upTo.block] at hb
      exact Option.some.inj hb
    have hpos := pos_of_mem_blocks h.upTo.mem
    simp [hpos, hstate, closeBlock]

end Pending

/-! ## Allocation -/

/-- A fresh allocation block has no page written. -/
theorem ensureAllocBlock_fill (h : FillInv g d) : FillInv g (ensureAllocBlock g d) := by
  rcases ensureAllocBlock_cases (g := g) d with ⟨a, hblock, hsame, heq⟩ | ⟨b, a, -, hb, hs, hab, hpage, heq⟩
  · rw [heq]
    cases hd : d.alloc.block with
    | none => exact FillInv.closed { h.toOnFlash with } (hblock.trans hd)
    | some b =>
      rw [hsame (by simp [hd])]
      exact h
  · rw [heq]
    have hnone := h.empty b hs
    refine ⟨⟨h.flash, fun b' hb' => h.empty b' ?_, h.sealed⟩, fun b' hb' => ?_⟩
    · by_cases hbb : b' = b
      · exact hbb ▸ hs
      · simpa [takeBlock, BlockDev.modBlock, hbb] using hb'
    · obtain rfl : b = b' := Option.some.inj (hab.symm.trans hb')
      refine ⟨hpage ▸ chunksPerSummary_pos, hab, hb, by simp [takeBlock, BlockDev.modBlock],
        by simp [takeBlock, BlockDev.modBlock], fun c hc _ => hnone c hc, fun c t hc _ ht => ?_⟩
      have ht : d.written g c = some t := ht
      rw [hnone c hc] at ht
      exact absurd ht (by simp)

theorem takePage_pending (h : FillInv g d) (hb : d.alloc.block = some b) :
    Pending g (takePage g b d).2 (takePage g b d).1 := by
  obtain ⟨hpage, hto⟩ := h.alloc b hb
  have hlt := chunksPerSummary_lt (g := g)
  have hdiv : (b * g.chunksPerBlock + d.alloc.page) / g.chunksPerBlock = b := chunk_div (by omega)
  have hmod : (b * g.chunksPerBlock + d.alloc.page) % g.chunksPerBlock = d.alloc.page := chunk_mod (by omega)
  have huse : SameFill { d with alloc := { d.alloc with page := d.alloc.page + 1 } } (usePage g b d) :=
    SameFill.info rfl rfl rfl rfl rfl rfl rfl rfl
  have htake : takePage g b d = (usePage g b d, b * g.chunksPerBlock + d.alloc.page) := by
    unfold takePage
    simp only
    rw [if_neg]
    simp only [usePage]
    omega
  rw [htake]
  refine Pending.same (d := { d with alloc := { d.alloc with page := d.alloc.page + 1 } })
    ⟨{ h.toOnFlash with }, ?_, ?_, ?_⟩ huse
  · simpa only [hmod] using hpage
  · simp only [hmod]
  · simp only [hdiv, hmod]
    exact { hto with }

theorem allocChunk_fill (h : FillInv g d) (useReserver : Bool) :
    match allocChunk g useReserver d with
    | (d', some c) => Pending g c d'
    | (d', none) => FillInv g d' := by
  have hopen := ensureAllocBlock_fill h
  have hfail : FillInv g { ensureAllocBlock g d with
      allocFailures := (ensureAllocBlock g d).allocFailures + 1 } :=
    hopen.same ⟨rfl, rfl, rfl, rfl, rfl, fun _ => rfl, fun _ => rfl⟩
  unfold allocChunk
  simp only
  split_ifs
  · exact hfail
  · cases hb : (ensureAllocBlock g d).alloc.block with
    | none => exact hfail
    | some b => exact takePage_pending hopen hb

/-! ## Writing a summary -/

/-- The pages of block `b` from `i` on have been filled with a summary. -/
structure Seals (g : Geometry) (b : ℕ) (hdr : SummaryHeader) (sumTags : ℕ → SummaryTags) (i : ℕ)
    (d d' : BlockDev) : Prop where
  outside : ∀ c, ¬(c / g.chunksPerBlock = b ∧ i ≤ c % g.chunksPerBlock) →
    d'.written g c = d.written g c ∧ d'.nand.flash c = d.nand.flash c
  pages : ∀ c t, c / g.chunksPerBlock = b → i ≤ c % g.chunksPerBlock → d'.written g c = some t →
    d'.nand.flash c = some ⟨t, summaryPage g hdr sumTags (c % g.chunksPerBlock)⟩
  alloc : d'.alloc = d.alloc
  seq : d'.seqNumber = d.seqNumber
  sumTags : d'.sumTags = d.sumTags
  state : ∀ b, (d'.blockInfo b).blockState = (d.blockInfo b).blockState
  blockSeq : ∀ b, (d'.blockInfo b).seqNumber = (d.blockInfo b).seqNumber

theorem Seals.refl {hdr : SummaryHeader} {sumTags : ℕ → SummaryTags} {i : ℕ}
    (hun : ∀ c, c / g.chunksPerBlock = b → i ≤ c % g.chunksPerBlock → d.written g c = none) :
    Seals g b hdr sumTags i d d :=
  ⟨fun _ _ => ⟨rfl, rfl⟩, fun c t hc hi ht => by
    rw [hun c hc hi] at ht
    exact absurd ht (by simp), rfl, rfl, rfl, fun _ => rfl, fun _ => rfl⟩

/-- A page more at the front. -/
theorem Seals.cons {hdr : SummaryHeader} {sumTags : ℕ → SummaryTags} {i : ℕ} (hi : i < g.chunksPerBlock)
    (h : Seals g b hdr sumTags (i + 1) d' d'')
    (hother : ∀ c, c ≠ b * g.chunksPerBlock + i →
      d'.written g c = d.written g c ∧ d'.nand.flash c = d.nand.flash c)
    (hpage : ∀ t, d'.written g (b * g.chunksPerBlock + i) = some t →
      d'.nand.flash (b * g.chunksPerBlock + i) = some ⟨t, summaryPage g hdr sumTags i⟩)
    (hsame : d'.alloc = d.alloc ∧ d'.seqNumber = d.seqNumber ∧ d'.sumTags = d.sumTags)
    (hinfo : ∀ b, (d'.blockInfo b).blockState = (d.blockInfo b).blockState ∧
      (d'.blockInfo b).seqNumber = (d.blockInfo b).seqNumber) : Seals g b hdr sumTags i d d'' := by
  have hself : ∀ c, c / g.chunksPerBlock = b → c % g.chunksPerBlock = i → c = b * g.chunksPerBlock + i :=
    fun c hb hc => by rw [← hb, ← hc, Nat.mul_comm, Nat.div_add_mod]
  refine ⟨fun c hc => ?_, fun c t hb hic ht => ?_, h.alloc.trans hsame.1, h.seq.trans hsame.2.1,
    h.sumTags.trans hsame.2.2, fun b => (h.state b).trans (hinfo b).1, fun b => (h.blockSeq b).trans (hinfo b).2⟩
  · obtain ⟨h1, h2⟩ := h.outside c fun hcc => hc ⟨hcc.1, by omega⟩
    obtain ⟨h3, h4⟩ := hother c fun heq => hc (heq ▸ ⟨chunk_div hi, (chunk_mod hi).ge⟩)
    exact ⟨h1.trans h3, h2.trans h4⟩
  · rcases Nat.eq_or_lt_of_le hic with heq | hlt
    · obtain rfl := hself c hb heq.symm
      obtain ⟨h1, h2⟩ := h.outside (b * g.chunksPerBlock + i) fun hcc => by
        rw [chunk_mod hi] at hcc
        omega
      rw [h2, chunk_mod hi]
      exact hpage t (h1 ▸ ht)
    · exact h.pages c t hb hlt ht

/-- The loop of `yaffs_summary_write` fills the pages from `i` on. -/
theorem summaryWriteLoop_seals (hdr : SummaryHeader) (sumTags : ℕ → SummaryTags) (n : ℕ) :
    ∀ (i chunkId : ℕ) (d : BlockDev), g.chunksPerSummary ≤ i → i + n ≤ g.chunksPerBlock →
      (∀ c, c / g.chunksPerBlock = b → i ≤ c % g.chunksPerBlock → d.written g c = none) →
      Seals g b hdr sumTags i d (summaryWriteLoop g e b hdr ((List.range g.chunksPerSummary).map sumTags) n i
        chunkId (summaryOffset g i) (summaryTagsSize * g.chunksPerSummary - summaryOffset g i) d).1 := by
  induction n with
  | zero => exact fun i _ d _ _ hun => Seals.refl hun
  | succ n ih =>
    intro i chunkId d hi hn hun
    have hib : i < g.chunksPerBlock := by omega
    have hstep : ∀ c, c / g.chunksPerBlock = b → i + 1 ≤ c % g.chunksPerBlock → c ≠ b * g.chunksPerBlock + i :=
      fun c _ hc heq => by
        rw [heq, chunk_mod hib] at hc
        omega
    unfold summaryWriteLoop
    simp only
    generalize htags : stampTags d _ = tags
    have hused : tags.chunkUsed = true := by rw [← htags]; rfl
    generalize hpage : Page.mk tags _ = p
    have hptags : p.tags = tags := by rw [← hpage]
    have hpdata : p.data = summaryPage g hdr sumTags i := by rw [← hpage]; rfl
    have hw := driverWrite_written (g := g) (e := e) (c := b * g.chunksPerBlock + i) (d := d) p
    have hother : ∀ c, c ≠ b * g.chunksPerBlock + i →
        (driverWrite e (b * g.chunksPerBlock + i) p d).1.written g c = d.written g c ∧
        (driverWrite e (b * g.chunksPerBlock + i) p d).1.nand.flash c = d.nand.flash c := fun c hc => by
      rw [hw]
      exact ⟨Function.update_of_ne hc _ _, Function.update_of_ne hc _ _⟩
    have hself : ∀ t, (driverWrite e (b * g.chunksPerBlock + i) p d).1.written g (b * g.chunksPerBlock + i) = some t →
        (driverWrite e (b * g.chunksPerBlock + i) p d).1.nand.flash (b * g.chunksPerBlock + i) =
          some ⟨t, summaryPage g hdr sumTags i⟩ := fun t ht => by
      rw [hw, Function.update_self] at ht
      split at ht
      · rename_i hok
        simp only [Bool.and_eq_true] at hok
        have hok : e.writeOk d.nand.calls = true := hok.1
        rw [← Option.some.inj ht, ← hpdata]
        simp [driverWrite, hok]
      · simp at ht
    have hun' : ∀ c, c / g.chunksPerBlock = b → i + 1 ≤ c % g.chunksPerBlock →
        (driverWrite e (b * g.chunksPerBlock + i) p d).1.written g c = none := fun c hb hc =>
      (hother c (hstep c hb hc)).1.trans (hun c hb (by omega))
    have hcount : SameFill (driverWrite e (b * g.chunksPerBlock + i) p d).1
        (countSummaryChunk b (b * g.chunksPerBlock + i) (driverWrite e (b * g.chunksPerBlock + i) p d).1) :=
      SameFill.info rfl rfl rfl rfl rfl rfl rfl rfl
    have hinfo := fun b => And.intro (hcount.state b) (hcount.blockSeq b)
    split
    · split
      · exact Seals.cons hib (Seals.refl hun') hother hself ⟨rfl, rfl, rfl⟩ hinfo
      · -- there is more than this page of the summary left
        rename_i hmore
        have hnext : summaryOffset g (i + 1) = summaryOffset g i + (g.dataBytesPerChunk - summaryHeaderSize) := by
          unfold summaryOffset
          rw [show i + 1 - g.chunksPerSummary = i - g.chunksPerSummary + 1 by omega, Nat.add_mul, Nat.one_mul]
        have hmin : min (summaryTagsSize * g.chunksPerSummary - summaryOffset g i)
            (g.dataBytesPerChunk - summaryHeaderSize) = g.dataBytesPerChunk - summaryHeaderSize := by omega
        rw [hmin, ← hnext, Nat.sub_sub, ← hnext]
        exact Seals.cons hib (ih (i + 1) (chunkId + 1) _ (by omega) (by omega) hun') hother hself
          ⟨rfl, rfl, rfl⟩ hinfo
    · exact Seals.cons hib (Seals.refl hun') hother hself ⟨rfl, rfl, rfl⟩ fun _ => ⟨rfl, rfl⟩

/-- The summary of a block that has been written up to it, and the end of the block. -/
theorem summaryWrite_fill (h : OnFlash g d) (hto : WrittenTo g d b g.chunksPerSummary) :
    FillInv g (skipRestOfBlock (summaryClear (summaryWrite g e b d))) := by
  have hlt := chunksPerSummary_lt (g := g)
  have hloop := summaryWriteLoop_seals (e := e) ⟨1, b, (d.blockInfo b).seqNumber, summarySum g d⟩ d.sumTags
    (g.chunksPerBlock - g.chunksPerSummary) g.chunksPerSummary 1 d le_rfl (by omega) hto.unwritten
  have hzero : summaryOffset g g.chunksPerSummary = 0 := by simp [summaryOffset]
  rw [hzero, Nat.sub_zero] at hloop
  change Seals g b _ _ _ d (summaryWriteLoop g e b _ (summaryArray g d) _ _ _ _ _ d).1 at hloop
  generalize hr : summaryWriteLoop g e b _ (summaryArray g d) _ _ _ _ _ d = r at hloop
  have hflag : SameFill r.1 (summaryWrite g e b d) := by
    unfold summaryWrite
    simp only [hr]
    split
    · exact SameFill.info rfl rfl rfl rfl rfl rfl rfl rfl
    · exact SameFill.refl _
  have hflash : OnFlash g r.1 := by
    refine ⟨fun c t ht => ?_, fun b' hb' c hc => ?_, fun b' => ?_⟩
    · by_cases hin : c / g.chunksPerBlock = b ∧ g.chunksPerSummary ≤ c % g.chunksPerBlock
      · exact ⟨_, hloop.pages c t hin.1 hin.2 ht⟩
      · obtain ⟨h1, h2⟩ := hloop.outside c hin
        rw [h2]
        exact h.flash c t (h1 ▸ ht)
    · rw [hloop.state] at hb'
      have hne : b' ≠ b := fun heq => by
        rw [heq, hto.state] at hb'
        simp at hb'
      rw [(hloop.outside c fun hin => hne (hc.symm.trans hin.1)).1]
      exact h.empty b' hb' c hc
    · by_cases hbb : b' = b
      · subst hbb
        refine ⟨d.seqNumber, summarySum g d, d.sumTags, fun c t hb hc ht => ?_, fun c t hb hc ht => ?_⟩
        · rw [(hloop.outside c fun hin => absurd hin.2 (by omega)).1] at ht
          exact hto.tells c t hb hc ht
        · rw [← hto.blockSeq]
          exact hloop.pages c t hb hc ht
      · obtain ⟨seq, sum, sumTags, htells, hpages⟩ := h.sealed b'
        refine ⟨seq, sum, sumTags, fun c t hb hc ht => ?_, fun c t hb hc ht => ?_⟩ <;>
          obtain ⟨h1, h2⟩ := hloop.outside c fun hin => hbb (hb.symm.trans hin.1)
        · exact htells c t hb hc (h1 ▸ ht)
        · exact h2.trans (hpages c t hb hc (h1 ▸ ht))
  have hclear : OnFlash g (summaryClear (summaryWrite g e b d)) := by
    have := hflash.sheds (Sheds.ofSame hflag)
    exact { this with }
  refine FillInv.closed (hclear.sheds skipRestOfBlock_sheds) ?_
  have hblock : (summaryClear (summaryWrite g e b d)).alloc.block = some b :=
    (congrArg AllocCursor.block (hflag.alloc.trans hloop.alloc)).trans hto.block
  have hstate : ((summaryClear (summaryWrite g e b d)).blockInfo b).blockState = .allocating :=
    (hflag.state b).trans ((hloop.state b).trans hto.state)
  have hpos := pos_of_mem_blocks hto.mem
  unfold skipRestOfBlock
  simp [hblock, hpos, hstate, closeBlock]

/-! ## Writing a chunk -/

theorem erasedCheck_same : SameFill d (erasedCheck g e c d).1 := by
  have hflag : SameFill d (if g.alwaysCheckErased then
      d.modBlock (c / g.chunksPerBlock) fun bi => { bi with skipErasedCheck := false } else d) := by
    split
    · exact SameFill.info rfl rfl rfl rfl rfl rfl rfl rfl
    · exact SameFill.refl d
  have hread : ∀ x : BlockDev, SameFill d x → SameFill d
      (if (x.blockInfo (c / g.chunksPerBlock)).skipErasedCheck then (x, true) else checkChunkErased e c x).1 := by
    intro x hx
    split
    · exact hx
    · exact hx.trans ⟨rfl, rfl, rfl, rfl, rfl, fun _ => rfl, fun _ => rfl⟩
  exact hread _ hflag

/-- A chunk has been written, or not, and its packed tags stand among those of its block. -/
theorem Pending.write (h : Pending g c d) (data : PageData) (t : ExtTags) :
    let d' := { (driverWrite e c ⟨stampTags d t, data⟩ d).1 with
      sumTags := Function.update d.sumTags (c % g.chunksPerBlock) (packTags2TagsOnly (stampTags d t)) }
    OnFlash g d' ∧ WrittenTo g d' (c / g.chunksPerBlock) (c % g.chunksPerBlock + 1) := by
  intro d'
  have hw : d'.written g = Function.update (d.written g) c
      (if (driverWrite e c ⟨stampTags d t, data⟩ d).2 then some (stampTags d t) else none) := by
    refine (driverWrite_written (g := g) (e := e) (c := c) (d := d) ⟨stampTags d t, data⟩).trans ?_
    simp only [show (stampTags d t).chunkUsed = true from rfl, Bool.and_true]
  have hself : ∀ x, d'.written g c = some x →
      x = stampTags d t ∧ d'.nand.flash c = some ⟨x, data⟩ := fun x hx => by
    rw [hw, Function.update_self] at hx
    split at hx
    · rename_i hok
      have hok : e.writeOk d.nand.calls = true := hok
      obtain rfl := Option.some.inj hx
      exact ⟨rfl, by simp [d', driverWrite, hok]⟩
    · simp at hx
  have hother : ∀ c', c' ≠ c → d'.written g c' = d.written g c' ∧ d'.nand.flash c' = d.nand.flash c' :=
    fun c' hc => ⟨by rw [hw, Function.update_of_ne hc], Function.update_of_ne hc _ _⟩
  have hmod : ∀ c', c' / g.chunksPerBlock = c / g.chunksPerBlock → c' % g.chunksPerBlock = c % g.chunksPerBlock →
      c' = c := fun c' h1 h2 => by
    rw [← Nat.div_add_mod c' g.chunksPerBlock, h1, h2, Nat.div_add_mod]
  have hto : WrittenTo g d' (c / g.chunksPerBlock) (c % g.chunksPerBlock + 1) := by
    refine { h.upTo with unwritten := fun c' hb hc => ?_, tells := fun c' x hb hc hx => ?_ }
    · have hne : c' ≠ c := fun heq => by
        rw [heq] at hc
        omega
      rw [(hother c' hne).1]
      exact h.upTo.unwritten c' hb (by omega)
    · by_cases hcc : c' = c
      · subst hcc
        obtain ⟨rfl, -⟩ := hself x hx
        exact ⟨rfl, Or.inl (by simp [d'])⟩
      · rw [(hother c' hcc).1] at hx
        obtain ⟨h1, h2⟩ := h.upTo.tells c' x hb hc hx
        refine ⟨h1, ?_⟩
        simpa only [d', Function.update_of_ne fun heq => hcc (hmod c' hb heq)] using h2
  refine ⟨⟨fun c' x hx => ?_, fun b hb c' hc => ?_, fun b => ?_⟩, hto⟩
  · by_cases hcc : c' = c
    · subst hcc
      exact ⟨data, (hself x hx).2⟩
    · obtain ⟨h1, h2⟩ := hother c' hcc
      rw [h2]
      exact h.flash c' x (h1 ▸ hx)
  · have hb : (d.blockInfo b).blockState = .empty := hb
    have hcc : c' ≠ c := fun heq => by
      rw [← hc, heq, h.upTo.state] at hb
      simp at hb
    rw [(hother c' hcc).1]
    exact h.empty b hb c' hc
  · by_cases hb : b = c / g.chunksPerBlock
    · subst hb
      refine hto.tells.sealed fun c' hb hc => hto.unwritten c' hb ?_
      have := h.page_lt
      omega
    · obtain ⟨seq, sum, sumTags, htells, hpages⟩ := h.sealed b
      refine ⟨seq, sum, sumTags, fun c' x hbc hc hx => ?_, fun c' x hbc hc hx => ?_⟩ <;>
        obtain ⟨h1, h2⟩ := hother c' fun heq => hb (hbc.symm.trans (congrArg (· / g.chunksPerBlock) heq))
      · exact htells c' x hbc hc (h1 ▸ hx)
      · exact h2.trans (hpages c' x hbc hc (h1 ▸ hx))

section

variable (hsum : g.hasSummaries = true)
include hsum

/-- The chunk is written, and the summary behind the last one. -/
theorem wrChunkTagsNand_fill (h : Pending g c d) (data : PageData) (t : ExtTags) :
    FillInv g (wrChunkTagsNand g e c data t d).1 := by
  obtain ⟨hflash, hto⟩ := h.write (e := e) data t
  have hlt := h.page_lt
  unfold wrChunkTagsNand summaryAdd
  simp only [hsum, Bool.true_and, decide_eq_true hlt, if_true]
  split
  · rename_i hlast
    rw [hlast] at hto
    exact summaryWrite_fill hflash hto
  · refine ⟨hflash, fun b hb => ?_⟩
    obtain rfl : c / g.chunksPerBlock = b := Option.some.inj (hto.block.symm.trans hb)
    have hpage : ((driverWrite e c ⟨stampTags d t, data⟩ d).1).alloc.page = c % g.chunksPerBlock + 1 := h.page
    rw [hpage]
    exact ⟨by omega, hto⟩

theorem programChunk_fill (h : Pending g c d) (data : PageData) (t : ExtTags) :
    FillInv g (programChunk g e c data t d).1 := by
  have hwr := wrChunkTagsNand_fill (e := e) hsum h data t
  unfold programChunk
  simp only
  split
  · exact hwr
  · exact hwr.same ⟨rfl, rfl, rfl, rfl, rfl, fun _ => rfl, fun _ => rfl⟩

theorem writeAttempt_fill (h : FillInv g d) (data : PageData) (t : ExtTags) (useReserver : Bool) :
    FillInv g (writeAttempt g e data t useReserver d).1 := by
  have hy : g.isYaffs2 = true := by
    simp only [Param.hasSummaries, Bool.and_eq_true] at hsum
    exact hsum.1
  have halloc := allocChunk_fill h useReserver
  unfold writeAttempt
  cases hr : allocChunk g useReserver d with
  | mk d' r =>
    rw [hr] at halloc
    cases r with
    | none => exact halloc
    | some c =>
      have hpending : Pending g c (erasedCheck g e c d').1 := Pending.same halloc erasedCheck_same
      have hprogram := programChunk_fill (e := e) hsum hpending data t
      simp only
      split
      · split
        · exact hprogram.same (SameFill.info rfl rfl rfl rfl rfl rfl rfl rfl)
        · unfold handleChunkWrError
          simp only
          have herr := hprogram.same (handleChunkError_same (b := c / g.chunksPerBlock))
          refine FillInv.sheds ?_ ((chunkDel_sheds (e := e) (c := c) hy true).trans skipRestOfBlock_sheds)
          split
          · exact herr.same (SameFill.info rfl rfl rfl rfl rfl rfl rfl rfl)
          · exact herr
      · exact hpending.discard (chunkDel_sheds hy true)

theorem writeNewChunkLoop_fill (data : PageData) (t : ExtTags) (useReserver : Bool) (n : ℕ) :
    ∀ (attempts : ℕ) (d : BlockDev), FillInv g d →
      FillInv g (writeNewChunkLoop g e data t useReserver n attempts d).1 := by
  induction n with
  | zero => exact fun _ _ h => h
  | succ n ih =>
    intro attempts d h
    have hround := writeAttempt_fill (e := e) hsum h data t useReserver
    unfold writeNewChunkLoop
    cases hr : writeAttempt g e data t useReserver d with
    | mk d' r =>
      rw [hr] at hround
      cases r with
      | noSpace => exact hround
      | written c => exact hround
      | retry =>
        simp only
        split
        · exact ih _ _ hround
        · exact hround

/-- Whatever is written, and whatever the driver answers. -/
theorem writeNewChunk_fill (h : FillInv g d) (data : PageData) (t : ExtTags) (useReserver : Bool) :
    FillInv g (writeNewChunk g e data t useReserver d).1 :=
  writeNewChunkLoop_fill hsum data t useReserver _ 0 _ (h.sheds checkptInvalidate_sheds)

end

/-! ## Runs -/

/-- A flush goes to the block the cursor is in, or to an erased block it opens; without one it fails. -/
theorem checkptFlushBuffer_cases (p : Param) (e : Env) (d : BlockDev) :
    ∃ x, (d.checkpt.curBlock = none ∧ x = { checkptFindErasedBlock p d with
        checkpt := { (checkptFindErasedBlock p d).checkpt with curChunk := 0 } } ∨
      d.checkpt.curBlock ≠ none ∧ x = d) ∧
    (x.checkpt.curBlock = none ∧ checkptFlushBuffer p e d = (x, false) ∨
      ∃ b, x.checkpt.curBlock = some b ∧ checkptFlushBuffer p e d =
        (checkptInitChunkHdr p { (driverWrite e (b * p.chunksPerBlock + x.checkpt.curChunk)
          ⟨checkptTags p (e.unsetTags x.nand.calls) x.checkpt, .checkpt x.checkpt.bufferHdr x.checkpt.buffer⟩
          (checkptTakeBlock b x)).1 with checkpt := x.checkpt.advance p }, true)) := by
  obtain ⟨x, hx⟩ : ∃ x, x = if d.checkpt.curBlock = none then { checkptFindErasedBlock p d with
      checkpt := { (checkptFindErasedBlock p d).checkpt with curChunk := 0 } } else d := ⟨_, rfl⟩
  refine ⟨x, ?_, ?_⟩
  · by_cases hcur : d.checkpt.curBlock = none
    · exact Or.inl ⟨hcur, hx.trans (if_pos hcur)⟩
    · exact Or.inr ⟨hcur, hx.trans (if_neg hcur)⟩
  · unfold checkptFlushBuffer
    dsimp only
    rw [← hx]
    split
    · exact Or.inl ⟨‹_›, rfl⟩
    · exact Or.inr ⟨_, ‹_›, rfl⟩

/-- A page of the checkpoint goes to an empty block, or to one the checkpoint has. -/
theorem checkptFlushBuffer_sheds (hown : ∀ b, d.checkpt.curBlock = some b →
    (d.blockInfo b).blockState = .checkpoint) : Sheds g d (checkptFlushBuffer g e d).1 := by
  have hpage : ∀ (x : BlockDev) (b : ℕ), (x.blockInfo b).blockState ≠ .allocating → ∀ c t data cp,
      Sheds g x (checkptInitChunkHdr g { (driverWrite e c ⟨checkptTags g t x.checkpt, data⟩
        (checkptTakeBlock b x)).1 with checkpt := cp }) := by
    intro x b hb c t data cp
    have htake : Sheds g x (checkptTakeBlock b x) := by
      unfold checkptTakeBlock
      split
      · exact (Sheds.setState (by simp) hb).trans
          (Sheds.ofSame ⟨rfl, rfl, rfl, rfl, rfl, fun _ => rfl, fun _ => rfl⟩)
      · exact Sheds.refl x
    exact (htake.trans (Sheds.driverWrite rfl)).trans
      (Sheds.ofSame ⟨rfl, rfl, rfl, rfl, rfl, fun _ => rfl, fun _ => rfl⟩)
  obtain ⟨x, hx, hflush⟩ := checkptFlushBuffer_cases g e d
  have hsheds : Sheds g d x ∧ ∀ b, x.checkpt.curBlock = some b → (x.blockInfo b).blockState ≠ .allocating := by
    rcases hx with ⟨-, rfl⟩ | ⟨-, rfl⟩
    · refine ⟨Sheds.ofSame ⟨rfl, rfl, rfl, rfl, rfl, fun _ => rfl, fun _ => rfl⟩, fun b hb => ?_⟩
      have hempty : (d.blockInfo b).blockState = .empty := by
        simp only [checkptFindErasedBlock] at hb
        split at hb
        · split at hb
          · simpa using List.find?_some hb
          · simp at hb
        · simp at hb
      change (d.blockInfo b).blockState ≠ .allocating
      simp [hempty]
    · exact ⟨Sheds.refl _, fun b hb => by simp [hown b hb]⟩
  rcases hflush with ⟨-, hfl⟩ | ⟨b, hb, hfl⟩
  · rw [hfl]
    exact hsheds.1
  · rw [hfl]
    exact hsheds.1.trans (hpage x b (hsheds.2 b hb) _ _ _ _)

/-- A mount from a checkpoint goes on where the device was left, with `dev->sum_tags` cleared. -/
structure RestoredFrom (d d' : BlockDev) : Prop where
  flash : d'.nand.flash = d.nand.flash
  trace : d'.nand.trace = d.nand.trace
  block : d'.alloc.block = d.alloc.block
  page : d'.alloc.page = d.alloc.page
  seq : d'.seqNumber = d.seqNumber
  state : ∀ b, (d'.blockInfo b).blockState = (d.blockInfo b).blockState
  blockSeq : ∀ b, (d'.blockInfo b).seqNumber = (d.blockInfo b).seqNumber
  sumTags : ∀ i, d'.sumTags i = {}

/-- A mount by a scan leaves no allocation block, and takes for empty what holds no page. -/
structure ScannedFrom (g : Geometry) (d d' : BlockDev) : Prop where
  flash : d'.nand.flash = d.nand.flash
  trace : d'.nand.trace = d.nand.trace
  block : d'.alloc.block = none
  empty : ∀ b, (d'.blockInfo b).blockState = .empty →
    ∀ c, c / g.chunksPerBlock = b → d.nand.flash c = none

/-- What happens to the block management : chunks are written (data, headers and copies gc makes)
and deleted, gc collects blocks and frees them, the checkpoint comes and goes, the device is
mounted again. gc never frees the block being allocated from, and the checkpoint writer keeps to
its own blocks. -/
inductive FillStep (g : Geometry) (e : Env) : BlockDev → BlockDev → Prop
  | write (d : BlockDev) (data : PageData) (t : ExtTags) (useReserver : Bool) :
    FillStep g e d (writeNewChunk g e data t useReserver d).1
  | delete (d : BlockDev) (c : ℕ) (markFlash : Bool) : FillStep g e d (chunkDel g e c markFlash d)
  | collect (d : BlockDev) (b : ℕ) : FillStep g e d (gcBlockStart g b d)
  | settle (d : BlockDev) (b : ℕ) (hs : (d.blockInfo b).blockState = .collecting) :
    FillStep g e d (d.setState b .full)
  | free (d : BlockDev) (b : ℕ) (hs : (d.blockInfo b).blockState ≠ .allocating) :
    FillStep g e d (blockBecameDirty g e b d)
  | invalidate (d : BlockDev) : FillStep g e d (checkptInvalidate g e d)
  | openCheckpt (d : BlockDev) : FillStep g e d (checkptOpen g e d).1
  | save (d : BlockDev) (hs : ∀ b, d.checkpt.curBlock = some b → (d.blockInfo b).blockState = .checkpoint) :
    FillStep g e d (checkptFlushBuffer g e d).1
  | other (d d' : BlockDev) (h : SameFill d d') : FillStep g e d d'
  | restore (d d' : BlockDev) (h : RestoredFrom d d') : FillStep g e d d'
  | scan (d d' : BlockDev) (h : ScannedFrom g d d') : FillStep g e d d'

/-- The states of the block management of a device that has been formatted with the bad
blocks `bad`. -/
def Life (g : Geometry) (e : Env) (bad : ℕ → Bool) (d : BlockDev) : Prop :=
  Relation.ReflTransGen (FillStep g e) (blankBlocks g bad) d

theorem FillInv.restored (h : FillInv g d) (hr : RestoredFrom d d') : FillInv g d' := by
  have hw : d'.written g = d.written g := by
    funext c
    simp only [BlockDev.written, hr.trace]
  have htells : ∀ {b seq : ℕ} {sumTags : ℕ → SummaryTags}, Tells g d b seq sumTags → Tells g d' b seq sumTags :=
    fun ht c t hb hc hct => ht c t hb hc (hw ▸ hct)
  refine ⟨⟨fun c t ht => ?_, fun b hb c hc => ?_, fun b => ?_⟩, fun b hb => ?_⟩
  · rw [hr.flash]
    exact h.flash c t (hw ▸ ht)
  · rw [hw]
    exact h.empty b (hr.state b ▸ hb) c hc
  · obtain ⟨seq, sum, sumTags, ht, hpages⟩ := h.sealed b
    refine ⟨seq, sum, sumTags, htells ht, fun c t hb hc hct => ?_⟩
    rw [hr.flash]
    exact hpages c t hb hc (hw ▸ hct)
  · rw [hr.block] at hb
    obtain ⟨hpage, hto⟩ := h.alloc b hb
    rw [hr.page]
    refine ⟨hpage, hr.block.trans hto.block, hto.mem, (hr.state b).trans hto.state, ?_, fun c hc hi => ?_,
      fun c t hc hi hct => ⟨?_, Or.inr (hr.sumTags _)⟩⟩
    · rw [hr.blockSeq, hr.seq, hto.blockSeq]
    · rw [hw]
      exact hto.unwritten c hc hi
    · rw [hr.seq]
      exact (hto.tells c t hc hi (hw ▸ hct)).1

theorem FillInv.scanned (h : FillInv g d) (hr : ScannedFrom g d d') : FillInv g d' := by
  have hw : d'.written g = d.written g := by
    funext c
    simp only [BlockDev.written, hr.trace]
  refine FillInv.closed ⟨fun c t ht => ?_, fun b hb c hc => ?_, fun b => ?_⟩ hr.block
  · rw [hr.flash]
    exact h.flash c t (hw ▸ ht)
  · rw [hw]
    cases hcw : d.written g c with
    | none => rfl
    | some t =>
      obtain ⟨data, hf⟩ := h.flash c t hcw
      rw [hr.empty b hb c hc] at hf
      exact absurd hf (by simp)
  · obtain ⟨seq, sum, sumTags, ht, hpages⟩ := h.sealed b
    refine ⟨seq, sum, sumTags, fun c t hb hc hct => ht c t hb hc (hw ▸ hct), fun c t hb hc hct => ?_⟩
    rw [hr.flash]
    exact hpages c t hb hc (hw ▸ hct)

theorem FillStep.inv (hsum : g.hasSummaries = true) (h : FillInv g d) (hs : FillStep g e d d') : FillInv g d' := by
  have hy : g.isYaffs2 = true := by
    simp only [Param.hasSummaries, Bool.and_eq_true] at hsum
    exact hsum.1
  cases hs with
  | write data t useReserver => exact writeNewChunk_fill hsum h data t useReserver
  | delete c markFlash => exact h.sheds (chunkDel_sheds hy markFlash)
  | collect b => exact h.sheds gcBlockStart_sheds
  | settle b hs => exact h.sheds (Sheds.setState (by simp) (by simp [hs]))
  | free b hs => exact h.sheds (blockBecameDirty_sheds hs)
  | invalidate => exact h.sheds checkptInvalidate_sheds
  | openCheckpt =>
    have hinit : ∀ cp, Sheds g d (checkptInitChunkHdr g { d with checkpt := cp }) :=
      fun _ => Sheds.ofSame ⟨rfl, rfl, rfl, rfl, rfl, fun _ => rfl, fun _ => rfl⟩
    unfold checkptOpen
    simp only
    split
    · exact h.sheds ((hinit _).trans checkptErase_sheds)
    · exact h.same ⟨rfl, rfl, rfl, rfl, rfl, fun _ => rfl, fun _ => rfl⟩
  | save hs => exact h.sheds (checkptFlushBuffer_sheds hs)
  | other _ hs => exact h.same hs
  | restore _ hs => exact h.restored hs
  | scan _ hs => exact h.scanned hs

theorem blankBlocks_fill (bad : ℕ → Bool) : FillInv g (blankBlocks g bad) :=
  FillInv.closed ⟨fun c t ht => by simp [BlockDev.written, blankBlocks, lastWrite] at ht, fun _ _ _ _ => rfl,
    fun b => ⟨0, 0, fun _ => {}, fun c t _ _ ht => by simp [BlockDev.written, blankBlocks, lastWrite] at ht,
      fun c t _ _ ht => by simp [BlockDev.written, blankBlocks, lastWrite] at ht⟩⟩ rfl

/-- In every state of a device's life. -/
theorem Life.inv {bad : ℕ → Bool} (hsum : g.hasSummaries = true) (h : Life g e bad d) : FillInv g d := by
  induction h with
  | refl => exact blankBlocks_fill bad
  | tail _ hstep ih => exact hstep.inv hsum ih

end Yaffs
