import Yaffs.Counters
import Yaffs.Sparing

/-!
# The oldest dirty sequence number

`oldest_dirty_seq` is computed when a search for a block needs it, lowered by deletions and dropped when
its block is erased. It is the least sequence number of the blocks that discard pages as long as no block
comes to discard pages behind its back.
-/

namespace Yaffs

variable {g : Geometry} {e : Env} {T : ℕ → BlockState → Prop} {soft : ℕ → Bool} {k : ℤ} {d d' : BlockDev} {b c : ℕ}

/-! ## The cache -/

/-- The block is full or being collected, and has discarded pages. -/
def Discards (g : Geometry) (d : BlockDev) (b : ℕ) : Prop :=
  b ∈ g.blocks ∧ (d.blockInfo b).blockState.collectable = true ∧
    (d.blockInfo b).pagesInUse - (d.blockInfo b).softDelPages < g.chunksPerBlock

/-- `oldest_dirty_seq`, unless it is zero, is the least sequence number of the blocks with discarded pages,
and `oldest_dirty_block` has it. -/
def OldestDirty (g : Geometry) (d : BlockDev) : Prop :=
  d.oldestDirtySeq ≠ 0 → Discards g d d.oldestDirtyBlock ∧
    (d.blockInfo d.oldestDirtyBlock).seqNumber = d.oldestDirtySeq ∧
    ∀ b, Discards g d b → d.oldestDirtySeq ≤ (d.blockInfo b).seqNumber

/-- `yaffs_block_ok_for_gc` accepts no block with a shrink header while an older one has discarded pages. -/
def ShrinkSafe (g : Geometry) (d : BlockDev) : Prop :=
  g.isYaffs2 = true → ∀ b, (d.blockInfo b).hasShrinkHdr = true → (blockOkForGc g b d).2 = true →
    ∀ b', Discards g d b' → (d.blockInfo b).seqNumber ≤ (d.blockInfo b').seqNumber

namespace OldestDirty

theorem zero (h : d.oldestDirtySeq = 0) : OldestDirty g d :=
  fun hne => absurd h hne

theorem congr (h : OldestDirty g d) (hinfo : d'.blockInfo = d.blockInfo) (hseq : d'.oldestDirtySeq = d.oldestDirtySeq)
    (hblock : d'.oldestDirtyBlock = d.oldestDirtyBlock) : OldestDirty g d' := by
  unfold OldestDirty Discards
  rw [hinfo, hseq, hblock]
  exact h

/-- A block changes that is not the oldest one, and is not to become older. -/
theorem modOther (h : OldestDirty g d) {f : BlockInfo → BlockInfo}
    (hne : d.oldestDirtySeq ≠ 0 → d.oldestDirtyBlock ≠ b)
    (hnew : d.oldestDirtySeq ≠ 0 → Discards g (d.modBlock b f) b → d.oldestDirtySeq ≤ (f (d.blockInfo b)).seqNumber) :
    OldestDirty g (d.modBlock b f) := by
  intro h0
  obtain ⟨hdis, hseq, hle⟩ := h h0
  have hinfo : ∀ b', b' ≠ b → (d.modBlock b f).blockInfo b' = d.blockInfo b' := fun b' hb => by
    simp [BlockDev.modBlock, hb]
  have hother : ∀ b', b' ≠ b → (Discards g (d.modBlock b f) b' ↔ Discards g d b') := fun b' hb => by
    simp only [Discards, hinfo b' hb]
  refine ⟨(hother _ (hne h0)).mpr hdis, (congrArg BlockInfo.seqNumber (hinfo _ (hne h0))).trans hseq,
    fun b' hb => ?_⟩
  by_cases hbb : b' = b
  · subst hbb
    have := hnew h0 hb
    simpa [BlockDev.modBlock] using this
  · rw [hinfo b' hbb]
    exact hle b' ((hother b' hbb).mp hb)

/-- A block leaves service, or stays out of it. -/
theorem drop (h : OldestDirty g d) {f : BlockInfo → BlockInfo} (hne : d.oldestDirtySeq ≠ 0 → d.oldestDirtyBlock ≠ b)
    (hf : (f (d.blockInfo b)).blockState.collectable = false) : OldestDirty g (d.modBlock b f) :=
  h.modOther hne fun _ hdis => by
    have hcol := hdis.2.1
    simp [BlockDev.modBlock, hf] at hcol

theorem hidden (h : OldestDirty g d) {f : BlockInfo → BlockInfo} (hb : (d.blockInfo b).blockState.collectable = false)
    (hf : (f (d.blockInfo b)).blockState.collectable = false) : OldestDirty g (d.modBlock b f) := by
  refine h.drop (fun h0 heq => ?_) hf
  have hcol := (h h0).1.2.1
  rw [heq, hb] at hcol
  exact Bool.noConfusion hcol

/-- The marks of a block change. -/
theorem flags (h : OldestDirty g d) {f : BlockInfo → BlockInfo}
    (hs : (f (d.blockInfo b)).blockState.collectable = (d.blockInfo b).blockState.collectable)
    (hp : (f (d.blockInfo b)).pagesInUse = (d.blockInfo b).pagesInUse)
    (hd : (f (d.blockInfo b)).softDelPages = (d.blockInfo b).softDelPages)
    (hn : (f (d.blockInfo b)).seqNumber = (d.blockInfo b).seqNumber) : OldestDirty g (d.modBlock b f) := by
  have hinfo : ∀ b', ((d.modBlock b f).blockInfo b').blockState.collectable = (d.blockInfo b').blockState.collectable ∧
      ((d.modBlock b f).blockInfo b').pagesInUse = (d.blockInfo b').pagesInUse ∧
      ((d.modBlock b f).blockInfo b').softDelPages = (d.blockInfo b').softDelPages ∧
      ((d.modBlock b f).blockInfo b').seqNumber = (d.blockInfo b').seqNumber := fun b' => by
    by_cases hb : b' = b
    · subst hb
      simpa [BlockDev.modBlock] using ⟨hs, hp, hd, hn⟩
    · simp [BlockDev.modBlock, hb]
  intro h0
  obtain ⟨hdis, hseq, hle⟩ := h h0
  have hiff : ∀ b', Discards g (d.modBlock b f) b' ↔ Discards g d b' := fun b' => by
    obtain ⟨h1, h2, h3, -⟩ := hinfo b'
    simp only [Discards, h1, h2, h3]
  refine ⟨(hiff _).mpr hdis, (hinfo _).2.2.2.trans hseq, fun b' hb => ?_⟩
  rw [(hinfo b').2.2.2]
  exact hle b' ((hiff b').mp hb)

end OldestDirty

/-! ## Erasure -/

theorem OldestDirty.setNand (h : OldestDirty g d) (n : Nand) : OldestDirty g { d with nand := n } :=
  h.congr rfl rfl rfl

theorem clearOldestDirtySeq_oldest (h : OldestDirty g d) : OldestDirty g (clearOldestDirtySeq g b d) := by
  unfold clearOldestDirtySeq
  split_ifs
  · exact OldestDirty.zero rfl
  · exact h

theorem checkptEraseBlock_oldest (h : OldestDirty g d) (b : ℕ) :
    OldestDirty g (checkptEraseBlock g.toParam e d b) := by
  unfold checkptEraseBlock
  split_ifs with hs
  · have hb : (d.blockInfo b).blockState.collectable = false := by rw [hs]; rfl
    simp only
    split_ifs
    · have hset := (h.setNand (eraseBlock g.toParam e b d).1.nand).hidden (b := b)
        (f := fun bi => { bi with blockState := .empty }) hb rfl
      exact hset.congr rfl rfl rfl
    · have hset := (h.setNand (driverMarkBad e b (eraseBlock g.toParam e b d).1).1.nand).hidden (b := b)
        (f := fun bi => { bi with blockState := .dead }) hb rfl
      exact hset.congr rfl rfl rfl
  · exact h

theorem checkptInvalidate_oldest (h : OldestDirty g d) : OldestDirty g (checkptInvalidate g e d) := by
  have hfold : ∀ (l : List ℕ) (x : BlockDev), OldestDirty g x →
      OldestDirty g (l.foldl (checkptEraseBlock g.toParam e) x) := by
    intro l
    induction l with
    | nil => exact fun x hx => hx
    | cons b l ih => exact fun x hx => ih _ (checkptEraseBlock_oldest hx b)
  unfold checkptInvalidate checkptErase
  split_ifs
  · have hstart : OldestDirty g { d with isCheckpointed := false } := h.congr rfl rfl rfl
    exact (hfold g.blocks _ hstart).congr rfl rfl rfl
  · exact h

/-- The oldest dirty block that is erased is no longer the oldest one. -/
theorem becomeDirty_oldest (h : OldestDirty g d) (hy : d.oldestDirtySeq ≠ 0 → g.isYaffs2 = true) (b : ℕ) :
    OldestDirty g (becomeDirty g b d) := by
  have hdrop : OldestDirty g ((clearOldestDirtySeq g b d).setState b .dirty) := by
    refine (clearOldestDirtySeq_oldest h).drop (fun h0 heq => ?_) rfl
    unfold clearOldestDirtySeq at h0 heq
    split_ifs at h0 heq with hclear
    · exact h0 rfl
    · have hseq := (h h0).2.1
      rw [heq] at hseq
      exact hclear ⟨hy h0, hseq⟩
  exact hdrop.congr rfl rfl rfl

theorem eraseUnlessRetiring_oldest (h : OldestDirty g d) (b : ℕ) :
    OldestDirty g (eraseUnlessRetiring g e b d).1 := by
  unfold eraseUnlessRetiring
  split_ifs
  · exact h
  · exact (checkptInvalidate_oldest (e := e) h).setNand _

/-- A block out of service is wiped. -/
theorem cleanBlock_oldest (h : OldestDirty g d) (hs : (d.blockInfo b).blockState.collectable = false) :
    OldestDirty g (cleanBlock g b d) := by
  have hset := h.hidden (b := b) (f := fun bi =>
    { bi with
      blockState := .empty, seqNumber := 0, pagesInUse := 0, softDelPages := 0
      hasShrinkHdr := false, skipErasedCheck := true, gcPrioritise := false
      hasSummary := false }) hs rfl
  exact hset.congr rfl rfl rfl

theorem retireBlock_oldest (hblk : BlkInv g T d) (h : OldestDirty g d) (hs : (d.blockInfo b).blockState = .dirty) :
    OldestDirty g (retireBlock g e b d) := by
  obtain ⟨n, hn, -⟩ := markRetired_eq g e b (clearOldestDirtySeq g b (checkptInvalidate g e d))
  have hclear := (clearOldestDirtySeq_oldest (b := b) (checkptInvalidate_oldest (e := e) h)).setNand n
  unfold retireBlock
  rw [hn]
  refine hclear.hidden ?_ rfl
  change ((clearOldestDirtySeq g b (checkptInvalidate g e d)).blockInfo b).blockState.collectable = false
  rw [clearOldestDirtySeq_blockInfo, (checkptInvalidate_quiet hblk).info b (by simp [isCheckpt, hs]), hs]
  rfl

theorem blockBecameDirty_oldest (hblk : BlkInv g T d) (h : OldestDirty g d) (hb : b ∈ g.blocks)
    (hs : (d.blockInfo b).blockState.collectable = true) (hno : NoBits g b d.chunkBits) :
    OldestDirty g (blockBecameDirty g e b d) := by
  have hy : d.oldestDirtySeq ≠ 0 → g.isYaffs2 = true := fun h0 =>
    (hblk.oldest_seq (pos_of_mem_blocks (h h0).1.1).ne').1
  have hdirty := becomeDirty_blk hblk hb hs hno
  have hstate := becomeDirty_state (g := g) (b := b) (d := d)
  have herase := eraseUnlessRetiring_blk (e := e) hdirty hstate
  have hstate := eraseUnlessRetiring_state (e := e) hdirty hstate
  have hold := eraseUnlessRetiring_oldest (e := e) (becomeDirty_oldest h hy b) b
  unfold blockBecameDirty
  generalize eraseUnlessRetiring g e b (becomeDirty g b d) = r at herase hstate hold
  dsimp only
  split_ifs
  · exact cleanBlock_oldest hold (by rw [hstate]; rfl)
  · exact retireBlock_oldest (T := orDirty T b) { herase with } (hold.congr rfl rfl rfl) hstate

/-! ## Deletion -/

/-- The block `b` comes to discard a page, or goes on to. -/
theorem discards_modBlock (hb : b ∈ g.blocks) {f : BlockInfo → BlockInfo}
    (hs : (f (d.blockInfo b)).blockState = (d.blockInfo b).blockState)
    (hcol : (d.blockInfo b).blockState.collectable = true)
    (hp : (f (d.blockInfo b)).pagesInUse - (f (d.blockInfo b)).softDelPages < g.chunksPerBlock) :
    Discards g (d.modBlock b f) b ∧ ∀ b', b' ≠ b → (Discards g (d.modBlock b f) b' ↔ Discards g d b') := by
  refine ⟨⟨hb, ?_, ?_⟩, fun b' hne => ?_⟩
  · simp only [BlockDev.modBlock, Function.update_self, hs, hcol]
  · simpa only [BlockDev.modBlock, Function.update_self] using hp
  · simp only [Discards, BlockDev.modBlock, Function.update_of_ne hne]

theorem OldestDirty.modDirty (h : OldestDirty g d) (hb : b ∈ g.blocks)
    (hcol : (d.blockInfo b).blockState.collectable = true)
    (hle : d.oldestDirtySeq ≠ 0 → d.oldestDirtySeq ≤ (d.blockInfo b).seqNumber) {f : BlockInfo → BlockInfo}
    (hs : (f (d.blockInfo b)).blockState = (d.blockInfo b).blockState)
    (hn : (f (d.blockInfo b)).seqNumber = (d.blockInfo b).seqNumber)
    (hp : (f (d.blockInfo b)).pagesInUse - (f (d.blockInfo b)).softDelPages < g.chunksPerBlock) :
    OldestDirty g (d.modBlock b f) := by
  obtain ⟨hself, hother⟩ := discards_modBlock (d := d) hb hs hcol hp
  have hseq : ∀ b', ((d.modBlock b f).blockInfo b').seqNumber = (d.blockInfo b').seqNumber := fun b' => by
    by_cases hne : b' = b
    · subst hne
      simpa [BlockDev.modBlock] using hn
    · simp [BlockDev.modBlock, hne]
  intro h0
  obtain ⟨hdis, hold, hmin⟩ := h h0
  refine ⟨?_, (hseq _).trans hold, fun b' hdis' => ?_⟩
  · by_cases hne : d.oldestDirtyBlock = b
    · exact (congrArg (Discards g (d.modBlock b f)) hne).mpr hself
    · exact (hother _ hne).mpr hdis
  · rw [hseq]
    by_cases hne : b' = b
    · exact hne ▸ hle h0
    · exact hmin b' ((hother b' hne).mp hdis')

/-- A block that comes to discard a page is compared with the oldest one before. -/
theorem updateOldestDirtySeq_oldest (hblk : BlkInv g T d) (h : OldestDirty g d) (hb : b ∈ g.blocks)
    (hin : (d.blockInfo b).blockState.inService = true) {f : BlockInfo → BlockInfo}
    (hs : (f (d.blockInfo b)).blockState = (d.blockInfo b).blockState)
    (hn : (f (d.blockInfo b)).seqNumber = (d.blockInfo b).seqNumber)
    (hp : (f (d.blockInfo b)).pagesInUse - (f (d.blockInfo b)).softDelPages < g.chunksPerBlock) :
    OldestDirty g ((updateOldestDirtySeq g b d).modBlock b f) := by
  cases hcol : (d.blockInfo b).blockState.collectable with
  | false =>
    -- the allocation block is not older than the oldest one
    have halloc : (d.blockInfo b).blockState = .allocating := by
      revert hin hcol
      cases (d.blockInfo b).blockState <;> simp [BlockState.inService, BlockState.collectable]
    have hseq := (hblk.alloc_block b (hblk.alloc_state b hb halloc)).2.2
    have hle := hblk.oldest_le
    have hsame : updateOldestDirtySeq g b d = d := by
      unfold updateOldestDirtySeq
      exact if_neg fun hlt => by omega
    rw [hsame]
    exact h.hidden hcol (hs ▸ hcol)
  | true =>
    by_cases hlower : g.isYaffs2 = true ∧ d.oldestDirtySeq ≠ 0 ∧ (d.blockInfo b).seqNumber < d.oldestDirtySeq
    · have heq : (updateOldestDirtySeq g b d).modBlock b f =
          { d.modBlock b f with oldestDirtySeq := (d.blockInfo b).seqNumber, oldestDirtyBlock := b } := by
        unfold updateOldestDirtySeq
        rw [if_pos hlower]
        rfl
      obtain ⟨hself, hother⟩ := discards_modBlock (d := d) hb hs hcol hp
      obtain ⟨-, -, hle⟩ := h hlower.2.1
      rw [heq]
      refine fun _ => ⟨hself, by simp [BlockDev.modBlock, hn], fun b' hdis => ?_⟩
      by_cases hne : b' = b
      · simp [hne, BlockDev.modBlock, hn]
      · have := hle b' ((hother b' hne).mp hdis)
        simpa [BlockDev.modBlock, hne] using hlower.2.2.le.trans this
    · have heq : updateOldestDirtySeq g b d = d := if_neg hlower
      rw [heq]
      refine h.modDirty hb hcol (fun h0 => not_lt.mp fun hlt => hlower ⟨?_, h0, hlt⟩) hs hn hp
      exact (hblk.oldest_seq (pos_of_mem_blocks (h h0).1.1).ne').1

theorem releasedChunk_oldest (hblk : BlkInv g T d) (hfree : FreeInv g soft k d) (h : OldestDirty g d)
    (hc : d.chunkBits c = true) (m : Bool) : OldestDirty g (releasedChunk g e c m d) := by
  have hmem := hblk.bit_mem c hc
  have hpages := hblk.pages _ hmem
  have hsoft := hfree.soft_pages _ hmem
  have hle := countChunkBits_le (g := g) (c / g.chunksPerBlock) d.chunkBits
  have hpos := countChunkBits_nonneg (g := g) (c / g.chunksPerBlock) soft
  have hlower := updateOldestDirtySeq_oldest hblk h hmem (hblk.bit_state c hc)
    (f := fun bi => { bi with pagesInUse := bi.pagesInUse - 1 }) rfl rfl (by dsimp only; omega)
  obtain ⟨n, hn, -⟩ := markIfNeeded_eq g e c m (updateOldestDirtySeq g (c / g.chunksPerBlock) d)
  unfold releasedChunk
  rw [hn]
  exact hlower.congr rfl rfl rfl

theorem chunkDel_oldest_of_released (hblk : BlkInv g T d) (hc : d.chunkBits c = true) {m : Bool}
    (hold : OldestDirty g (releasedChunk g e c m d)) : OldestDirty g (chunkDel g e c m d) := by
  obtain ⟨hspec, hblock⟩ := markAndRelease_spec (e := e) hblk hc m
  have hin := hblk.bit_state c hc
  rw [chunkDel_eq hblk hc]
  unfold releasedChunk at *
  generalize releaseChunk (c / g.chunksPerBlock) c
    (markIfNeeded g e c m (updateOldestDirtySeq g (c / g.chunksPerBlock) d)) = x at hspec hblock hold ⊢
  split_ifs with hdirty
  · have hs : (x.blockInfo (c / g.chunksPerBlock)).blockState.collectable = true ∧
        (x.blockInfo (c / g.chunksPerBlock)).pagesInUse = 0 := by
      revert hdirty hin
      simp only [BlockInfo.becameDirty, hblock]
      cases (d.blockInfo (c / g.chunksPerBlock)).blockState <;>
        simp_all [BlockState.inService, BlockState.collectable]
    refine blockBecameDirty_oldest hspec.blk hold (hblk.bit_mem c hc) hs.1 ?_
    rw [← countChunkBits_eq_zero, ← hspec.blk.pages _ (hblk.bit_mem c hc), hs.2]
  · exact hold

theorem chunkDel_oldest (hblk : BlkInv g T d) (hfree : FreeInv g soft k d) (h : OldestDirty g d)
    (hc : d.chunkBits c = true) (m : Bool) : OldestDirty g (chunkDel g e c m d) :=
  chunkDel_oldest_of_released hblk hc (releasedChunk_oldest hblk hfree h hc m)

/-- What `yaffs_gc_process_chunk` does to the block management when it drops a soft-deleted chunk. -/
def dropSoftChunk (g : Geometry) (e : Env) (c : ℕ) (d : BlockDev) : BlockDev :=
  chunkDel g e c false
    { d.modBlock (c / g.chunksPerBlock) fun bi => { bi with softDelPages := bi.softDelPages - 1 } with
      nFreeChunks := d.nFreeChunks - 1 }

/-- The count of soft-deleted pages is right again when the block is compared. -/
theorem dropSoftChunk_oldest (hblk : BlkInv g T d) (hfree : FreeInv g soft k d) (h : OldestDirty g d)
    (hs : soft c = true) : OldestDirty g (dropSoftChunk g e c d) := by
  have hc := hfree.soft_bit c hs
  have hmem := hblk.bit_mem c hc
  have hpages := hblk.pages _ hmem
  have hsoft := hfree.soft_pages _ hmem
  have hle := countChunkBits_le (g := g) (c / g.chunksPerBlock) d.chunkBits
  have hpos := countChunkBits_nonneg (g := g) (c / g.chunksPerBlock) (Function.update soft c false)
  rw [countChunkBits_clear hs, if_pos rfl] at hpos
  have hlower := updateOldestDirtySeq_oldest hblk h hmem (hblk.bit_state c hc)
    (f := fun bi => { bi with pagesInUse := bi.pagesInUse - 1, softDelPages := bi.softDelPages - 1 }) rfl rfl
    (by dsimp only; omega)
  have hunsoft : BlkInv g T
      { d.modBlock (c / g.chunksPerBlock) fun bi => { bi with softDelPages := bi.softDelPages - 1 } with
        nFreeChunks := d.nFreeChunks - 1 } :=
    { hblk.flags (b := c / g.chunksPerBlock) (f := fun bi => { bi with softDelPages := bi.softDelPages - 1 })
        (fun _ => rfl) (fun _ => rfl) (fun _ => rfl) (fun _ => rfl) with }
  refine chunkDel_oldest_of_released hunsoft hc ?_
  obtain ⟨n, hn, -⟩ := markIfNeeded_eq g e c false (updateOldestDirtySeq g (c / g.chunksPerBlock)
    { d.modBlock (c / g.chunksPerBlock) fun bi => { bi with softDelPages := bi.softDelPages - 1 } with
      nFreeChunks := d.nFreeChunks - 1 })
  unfold releasedChunk
  rw [hn]
  refine hlower.congr ?_ ?_ ?_
  · simp [releaseChunk, BlockDev.modBlock, BlockDev.clearChunkBit, updateOldestDirtySeq_blockInfo]
  all_goals
    simp only [releaseChunk, BlockDev.modBlock, BlockDev.clearChunkBit]
    unfold updateOldestDirtySeq
    simp only [Function.update_self]
    split_ifs <;> rfl

theorem softDelChunk_oldest (hblk : BlkInv g T d) (hfree : FreeInv g soft k d) (h : OldestDirty g d)
    (hc : d.chunkBits c = true) : OldestDirty g (softDelChunk g c d) := by
  have hmem := hblk.bit_mem c hc
  have hpages := hblk.pages _ hmem
  have hsoft := hfree.soft_pages _ hmem
  have hle := countChunkBits_le (g := g) (c / g.chunksPerBlock) d.chunkBits
  have hpos := countChunkBits_nonneg (g := g) (c / g.chunksPerBlock) soft
  have hlower := updateOldestDirtySeq_oldest hblk h hmem (hblk.bit_state c hc)
    (f := fun bi => { bi with softDelPages := bi.softDelPages + 1 }) rfl rfl (by dsimp only; omega)
  have hinfo : (softDelChunk g c d).blockInfo = ((updateOldestDirtySeq g (c / g.chunksPerBlock) d).modBlock
      (c / g.chunksPerBlock) fun bi => { bi with softDelPages := bi.softDelPages + 1 }).blockInfo := by
    unfold softDelChunk
    simp only [updateOldestDirtySeq_blockInfo, BlockDev.modBlock]
  refine hlower.congr hinfo ?_ ?_ <;>
    (unfold softDelChunk updateOldestDirtySeq; simp only [BlockDev.modBlock, Function.update_self]; split_ifs <;> rfl)

/-! ## Writing -/

/-- The allocation block is none of gc's. -/
theorem BlkInv.alloc_hidden (hblk : BlkInv g T d) (hb : d.alloc.block = some b) :
    (d.blockInfo b).blockState.collectable = false := by
  rw [(hblk.alloc_block b hb).2.1]
  rfl

theorem ensureAllocBlock_oldest (h : OldestDirty g d) : OldestDirty g (ensureAllocBlock g d) := by
  rcases ensureAllocBlock_cases (g := g) d with ⟨a, -, -, heq⟩ | ⟨b, a, -, -, hs, -, -, heq⟩ <;> rw [heq]
  · exact h.congr rfl rfl rfl
  · have hopen := h.hidden (b := b) (f := fun bi =>
      { bi with blockState := .allocating, seqNumber := d.seqNumber + 1 }) (by rw [hs]; rfl) rfl
    exact hopen.congr rfl rfl rfl

/-- A block that is closed is not older than the oldest one. -/
theorem OldestDirty.close (h : OldestDirty g d) (hb : (d.blockInfo b).blockState.collectable = false)
    (hseq : d.oldestDirtySeq ≤ (d.blockInfo b).seqNumber) : OldestDirty g (closeBlock b d) := by
  have hclosed : OldestDirty g (d.setState b .full) := by
    refine h.modOther (fun h0 heq => ?_) fun _ _ => hseq
    have hcol := (h h0).1.2.1
    rw [heq, hb] at hcol
    exact Bool.noConfusion hcol
  exact hclosed.congr rfl rfl rfl

theorem takePage_oldest (hblk : BlkInv g T d) (h : OldestDirty g d) (hb : d.alloc.block = some b) :
    OldestDirty g (takePage g b d).1 := by
  have hhid := hblk.alloc_hidden hb
  have hmod := h.hidden (b := b) (f := fun bi => { bi with pagesInUse := bi.pagesInUse + 1 }) hhid hhid
  have huse : OldestDirty g (usePage g b d) := hmod.congr rfl rfl rfl
  have hinfo : (usePage g b d).blockInfo b =
      { d.blockInfo b with pagesInUse := (d.blockInfo b).pagesInUse + 1 } := by
    simp [usePage, BlockDev.modBlock, BlockDev.setChunkBit]
  unfold takePage
  dsimp only
  split_ifs
  · refine huse.close (by rw [hinfo]; exact hhid) ?_
    rw [hinfo]
    exact hblk.oldest_le.trans_eq (hblk.alloc_block b hb).2.2.symm
  · exact huse

theorem allocChunk_oldest (hready : Ready g T anyBlock d) (h : OldestDirty g d) (useReserver : Bool) :
    OldestDirty g (allocChunk g useReserver d).1 := by
  have hblk := (ensureAllocBlock_spec hready).1.blk
  have hensure := ensureAllocBlock_oldest h
  unfold allocChunk
  dsimp only
  split_ifs
  · exact hensure.congr rfl rfl rfl
  · split
    · next b hb => exact takePage_oldest hblk hensure hb
    · exact hensure.congr rfl rfl rfl

theorem skipRestOfBlock_oldest (hblk : BlkInv g T d) (h : OldestDirty g d) : OldestDirty g (skipRestOfBlock d) := by
  rw [skipRestOfBlock_eq hblk]
  split
  · next b hb =>
    exact h.close (hblk.alloc_hidden hb) (hblk.oldest_le.trans_eq (hblk.alloc_block b hb).2.2.symm)
  · exact h

theorem summaryWriteLoop_oldest (hdr : SummaryHeader) (st : List SummaryTags) (n : ℕ) :
    ∀ (i chunkId offset nBytes : ℕ) (d : BlockDev), OldestDirty g d →
      (d.blockInfo b).blockState.collectable = false →
      OldestDirty g (summaryWriteLoop g e b hdr st n i chunkId offset nBytes d).1 ∧
        ((summaryWriteLoop g e b hdr st n i chunkId offset nBytes d).1.blockInfo b).blockState.collectable =
          false := by
  induction n with
  | zero => exact fun _ _ _ _ d h hb => ⟨h, hb⟩
  | succ n ih =>
    intro i chunkId offset nBytes d h hb
    have hcount : ∀ (c : ℕ) (p : Page), OldestDirty g (countSummaryChunk b c (driverWrite e c p d).1) ∧
        ((countSummaryChunk b c (driverWrite e c p d).1).blockInfo b).blockState.collectable = false := by
      intro c p
      have hmod := (h.setNand (driverWrite e c p d).1.nand).hidden (b := b)
        (f := fun bi => { bi with pagesInUse := bi.pagesInUse + 1 }) hb hb
      refine ⟨hmod.congr rfl rfl rfl, ?_⟩
      simpa [countSummaryChunk, driverWrite, BlockDev.modBlock, BlockDev.setChunkBit] using hb
    unfold summaryWriteLoop
    dsimp only
    split_ifs
    · exact hcount _ _
    · obtain ⟨hold, hhid⟩ := hcount _ _
      exact ih _ _ _ _ _ hold hhid
    · exact ⟨h.setNand _, hb⟩

theorem summaryWrite_oldest (h : OldestDirty g d) (hb : (d.blockInfo b).blockState.collectable = false) :
    OldestDirty g (summaryWrite g e b d) := by
  have hloop := summaryWriteLoop_oldest (e := e) ⟨1, b, (d.blockInfo b).seqNumber, summarySum g d⟩ (summaryArray g d)
    (g.chunksPerBlock - g.chunksPerSummary) g.chunksPerSummary 1 0 (summaryTagsSize * g.chunksPerSummary) d h hb
  unfold summaryWrite
  dsimp only
  split_ifs
  · exact hloop.1.flags rfl rfl rfl rfl
  · exact hloop.1

theorem summaryAdd_oldest (hready : Ready g T anyBlock d) (h : OldestDirty g d) (t : ExtTags)
    (hat : AtSummary g c d) : OldestDirty g (summaryAdd g e t c d) := by
  have hsum : ∀ f : ℕ → SummaryTags, OldestDirty g { d with sumTags := f } := fun f => h.congr rfl rfl rfl
  unfold summaryAdd
  dsimp only
  split_ifs with hcond hlast
  · obtain ⟨hb, hp⟩ := hat hlast
    have hy : g.isYaffs2 = true := by
      simp only [Param.hasSummaries, Bool.and_eq_true] at hcond
      exact hcond.1.1
    have htags : Ready g T anyBlock
        { d with sumTags := Function.update d.sumTags (c % g.chunksPerBlock) (packTags2TagsOnly t) } :=
      ⟨{ hready.blk with }, { hready.opn with }, fun _ _ => trivial⟩
    have hwritten := (summaryWrite_spec (e := e) htags hb hp hy).keeps.blk
    have hold := summaryWrite_oldest (e := e)
      (hsum (Function.update d.sumTags (c % g.chunksPerBlock) (packTags2TagsOnly t))) (hready.blk.alloc_hidden hb)
    generalize summaryWrite g e (c / g.chunksPerBlock) _ = x at hwritten hold ⊢
    exact skipRestOfBlock_oldest (T := T) { hwritten with } (hold.congr rfl rfl rfl)
  · exact hsum _
  · exact h

theorem erasedCheck_oldest (h : OldestDirty g d) (c : ℕ) : OldestDirty g (erasedCheck g e c d).1 := by
  have hflag := h.flags (b := c / g.chunksPerBlock) (f := fun bi => { bi with skipErasedCheck := false })
    rfl rfl rfl rfl
  unfold erasedCheck checkChunkErased
  dsimp only
  split_ifs
  · exact hflag
  · exact hflag.setNand _
  · exact h
  · exact h.setNand _

theorem handleChunkError_oldest (h : OldestDirty g d) (b : ℕ) : OldestDirty g (handleChunkError b d) := by
  unfold handleChunkError
  split_ifs
  · exact h
  · have hflag := h.flags (b := b) (f := fun bi =>
      let strikes := (bi.chunkErrorStrikes + 1) % 8
      { bi with
        gcPrioritise := true
        chunkErrorStrikes := strikes
        needsRetiring := bi.needsRetiring || decide (3 < strikes) }) rfl rfl rfl rfl
    exact hflag.congr rfl rfl rfl

theorem wrChunkTagsNand_oldest (hd : Ready g T anyBlock d) (hh : Holds g T anyBlock c d d') (hp : Placed g c d')
    (h : OldestDirty g d') (data : PageData) (t : ExtTags) :
    OldestDirty g (wrChunkTagsNand g e c data t d').1 := by
  have hwrite := hh.driverWrite (e := e) ⟨stampTags d' t, data⟩ hp.noSummary
  have hready : Ready g T anyBlock (driverWrite e c ⟨stampTags d' t, data⟩ d').1 :=
    ⟨hwrite.keeps.blk, hwrite.opn, hwrite.keeps.frame.covers hd.covers⟩
  exact summaryAdd_oldest hready (h.setNand _) _ hp.atSummary

theorem programChunk_oldest (hd : Ready g T anyBlock d) (hh : Holds g T anyBlock c d d') (hp : Placed g c d')
    (h : OldestDirty g d') (data : PageData) (t : ExtTags) : OldestDirty g (programChunk g e c data t d').1 := by
  have hwr := wrChunkTagsNand_oldest (e := e) hd hh hp h data t
  unfold programChunk verifyChunkWritten
  dsimp only
  split_ifs
  · exact hwr
  · exact hwr.setNand _

/-- A chunk that could not be written is given up, with the rest of its block. -/
theorem Holds.discard_oldest (hh : Holds g T anyBlock c d d') (hfree : FreeInv g soft k d) (h : OldestDirty g d')
    (m : Bool) : OldestDirty g (skipRestOfBlock (chunkDel g e c m d')) :=
  skipRestOfBlock_oldest (chunkDel_spec hh.keeps.blk hh.bit m).blk
    (chunkDel_oldest hh.keeps.blk (hh.keeps.free soft k hfree) h hh.bit m)

theorem handleChunkWrError_oldest (hh : Holds g T anyBlock c d d') (hfree : FreeInv g soft k d)
    (h : OldestDirty g d') (erasedOk : Bool) : OldestDirty g (handleChunkWrError g e c erasedOk d') := by
  have hflag := handleChunkError_flagged (S := anyBlock) hh.keeps.blk hh.touch
  have hopn := hflag.opn hh.opn
  have hold := handleChunkError_oldest h (c / g.chunksPerBlock)
  unfold handleChunkWrError
  dsimp only
  generalize handleChunkError (c / g.chunksPerBlock) d' = x at hflag hopn hold
  split_ifs
  · have hretire := Flagged.modBlock (f := fun bi => { bi with needsRetiring := true }) hflag.keeps.blk hh.touch
      fun _ => rfl
    exact ((hh.extend hflag.extends hopn).extend hretire.extends (hretire.opn hopn)).discard_oldest hfree
      (hold.flags rfl rfl rfl rfl) true
  · exact (hh.extend hflag.extends hopn).discard_oldest hfree hold true

theorem writeAttempt_oldest (hd : Ready g T anyBlock d) (hfree : FreeInv g soft k d) (h : OldestDirty g d)
    (data : PageData) {t : ExtTags} (ht : t.isDeleted = false) (useReserver : Bool) :
    OldestDirty g (writeAttempt g e data t useReserver d).1 := by
  have halloc := allocChunk_spec hd useReserver
  have hold := allocChunk_oldest hd h useReserver
  unfold writeAttempt
  split
  · next d1 heq =>
    rw [heq] at hold
    exact hold
  · next d1 c heq =>
    rw [heq] at halloc hold
    have hcheck := erasedCheck_flagged (e := e) (S := anyBlock) halloc.keeps.blk halloc.touch
    have hholds := halloc.holds.extend hcheck.extends (hcheck.opn halloc.opn)
    have hplaced := hcheck.placed halloc.placed
    have hchecked := erasedCheck_oldest (e := e) hold c
    have hprogram := programChunk_oldest (e := e) hd hholds hplaced hchecked data t
    dsimp only
    split_ifs
    · exact hprogram.flags rfl rfl rfl rfl
    · exact handleChunkWrError_oldest (programChunk_spec (e := e) hd hholds hplaced data ht).1 hfree hprogram _
    · exact hholds.discard_oldest hfree hchecked true

theorem writeNewChunkLoop_oldest (data : PageData) {t : ExtTags} (ht : t.isDeleted = false)
    (hid : t.objId ≠ objectIdSummary) (useReserver : Bool) (n : ℕ) :
    ∀ (attempts : ℕ) (d : BlockDev), Ready g T anyBlock d → FreeInv g soft k d → OldestDirty g d →
      OldestDirty g (writeNewChunkLoop g e data t useReserver n attempts d).1 := by
  induction n with
  | zero => exact fun _ d _ _ h => h
  | succ n ih =>
    intro attempts d hd hfree h
    have hround := writeAttempt_spec (e := e) hd data ht hid useReserver
    have hold := writeAttempt_oldest (e := e) hd hfree h data ht useReserver
    unfold writeNewChunkLoop
    split
    · next d' heq =>
      rw [heq] at hold
      exact hold
    · next d' c heq =>
      rw [heq] at hold
      exact hold
    · next d' heq =>
      rw [heq] at hround hold
      have hw : Wrote g T anyBlock d d' d.kept := hround
      split_ifs
      · exact ih (attempts + 1) d' (hw.ready hd) (hw.keeps.free soft k hfree) hold
      · exact hold

theorem writeNewChunk_oldest (hd : Ready g T anyBlock d) (hfree : FreeInv g soft k d) (h : OldestDirty g d)
    (data : PageData) {t : ExtTags} (ht : t.isDeleted = false) (hid : t.objId ≠ objectIdSummary)
    (useReserver : Bool) : OldestDirty g (writeNewChunk g e data t useReserver d).1 :=
  writeNewChunkLoop_oldest data ht hid useReserver _ 0 _ ((checkptInvalidate_wrote (e := e) hd).ready hd)
    (checkptInvalidate_free hd.blk hfree) (checkptInvalidate_oldest h)

/-! ## Searching -/

/-- In the block table `t` no block is being collected, and the pages used are compared as the counts are. -/
structure Comparable (g : Geometry) (t : ℕ → BlockInfo) : Prop where
  full : ∀ b ∈ g.blocks, (t b).blockState.collectable = true → (t b).blockState = .full
  pagesUsed : ∀ b ∈ g.blocks,
    (t b).pagesUsed < g.chunksPerBlock ↔ (t b).pagesInUse - (t b).softDelPages < g.chunksPerBlock

/-- A full block of which not all pages are used, as `yaffs_calc_oldest_dirty_seq` looks for. -/
def dirtyFull (g : Geometry) (d : BlockDev) (b : ℕ) : Prop :=
  (d.blockInfo b).blockState = .full ∧ (d.blockInfo b).pagesUsed < g.chunksPerBlock

theorem Comparable.discards (h : Comparable g d.blockInfo) (hb : b ∈ g.blocks) :
    Discards g d b ↔ dirtyFull g d b := by
  unfold Discards dirtyFull
  rw [h.pagesUsed b hb]
  constructor
  · exact fun hd => ⟨h.full b hb hd.2.1, hd.2.2⟩
  · exact fun hd => ⟨hb, by rw [hd.1]; rfl, hd.2⟩

/-- What the loop of `yaffs_calc_oldest_dirty_seq` ends with. -/
theorem oldestDirtyFold_least (l : List ℕ) : ∀ acc : ℕ × ℕ,
    let r := l.foldl (oldestDirtyStep g d) acc
    r.1 ≤ acc.1 ∧ (∀ b ∈ l, dirtyFull g d b → r.1 ≤ (d.blockInfo b).seqNumber) ∧
      (r = acc ∨ ∃ b ∈ l, dirtyFull g d b ∧ r = ((d.blockInfo b).seqNumber, b)) := by
  induction l with
  | nil => exact fun acc => ⟨le_rfl, by simp, Or.inl rfl⟩
  | cons b l ih =>
    intro acc
    rw [List.foldl_cons]
    by_cases hc : (d.blockInfo b).blockState = .full ∧ (d.blockInfo b).pagesUsed < g.chunksPerBlock ∧
        (d.blockInfo b).seqNumber < acc.1
    · have hstep : oldestDirtyStep g d acc b = ((d.blockInfo b).seqNumber, b) := if_pos hc
      obtain ⟨hle, hall, hend⟩ := ih ((d.blockInfo b).seqNumber, b)
      rw [hstep]
      refine ⟨hle.trans hc.2.2.le, fun b' hb' hdirty => ?_, Or.inr ?_⟩
      · rcases List.mem_cons.mp hb' with rfl | hmem
        · exact hle
        · exact hall b' hmem hdirty
      · rcases hend with heq | ⟨b', hmem, hdirty, heq⟩
        · exact ⟨b, List.mem_cons_self .., ⟨hc.1, hc.2.1⟩, heq⟩
        · exact ⟨b', List.mem_cons_of_mem _ hmem, hdirty, heq⟩
    · have hstep : oldestDirtyStep g d acc b = acc := if_neg hc
      obtain ⟨hle, hall, hend⟩ := ih acc
      rw [hstep]
      refine ⟨hle, fun b' hb' hdirty => ?_, hend.imp id fun ⟨b', hmem, hr⟩ => ⟨b', List.mem_cons_of_mem _ hmem, hr⟩⟩
      rcases List.mem_cons.mp hb' with rfl | hmem
      · exact hle.trans (not_lt.mp fun hlt => hc ⟨hdirty.1, hdirty.2, hlt⟩)
      · exact hall b' hmem hdirty

theorem calcOldestDirtySeq_oldest (ht : Comparable g d.blockInfo) (h : d.oldestDirtySeq = 0) :
    OldestDirty g (calcOldestDirtySeq g d) := by
  obtain ⟨-, hall, hend⟩ := oldestDirtyFold_least (g := g) (d := d) g.blocks (d.seqNumber + 1, 0)
  unfold calcOldestDirtySeq
  generalize g.blocks.foldl (oldestDirtyStep g d) (d.seqNumber + 1, 0) = r at hall hend
  split_ifs with hy
  · dsimp only
    split_ifs with hne
    · rcases hend with heq | ⟨b, hb, hdirty, heq⟩
      · exact absurd (congrArg Prod.snd heq) hne
      · rw [heq] at hall ⊢
        refine fun _ => ⟨(ht.discards hb).mpr hdirty, rfl, fun b' hdis => ?_⟩
        exact hall b' hdis.1 ((ht.discards hdis.1).mp hdis)
    · exact OldestDirty.zero h
  · exact OldestDirty.zero h

/-- A search for a block, which changes no block info and at most finds the oldest dirty block. -/
structure Looks (g : Geometry) (d d' : BlockDev) : Prop where
  info : d'.blockInfo = d.blockInfo
  oldest : Comparable g d.blockInfo → OldestDirty g d → OldestDirty g d'

namespace Looks

variable {d'' : BlockDev}

theorem refl (d : BlockDev) : Looks g d d :=
  ⟨rfl, fun _ h => h⟩

theorem trans (h : Looks g d d') (h' : Looks g d' d'') : Looks g d d'' :=
  ⟨h'.info.trans h.info, fun ht hold => h'.oldest (h.info ▸ ht) (h.oldest ht hold)⟩

theorem setGc (d : BlockDev) (gc : GcCursor) : Looks g d { d with gc := gc } :=
  ⟨rfl, fun _ h => h.congr rfl rfl rfl⟩

end Looks

theorem findOldestDirtySeq_looks (d : BlockDev) : Looks g d (findOldestDirtySeq g d) := by
  unfold findOldestDirtySeq
  split_ifs with hc
  · refine ⟨?_, fun ht _ => calcOldestDirtySeq_oldest ht hc.2⟩
    unfold calcOldestDirtySeq
    dsimp only
    split_ifs <;> rfl
  · exact Looks.refl d

theorem blockOkForGc_looks (b : ℕ) (d : BlockDev) : Looks g d (blockOkForGc g b d).1 := by
  unfold blockOkForGc
  split_ifs
  · exact findOldestDirtySeq_looks d
  · exact Looks.refl d

theorem prioritisedFold_looks (l : List ℕ) : ∀ r : BlockDev × ℕ × Bool, Looks g r.1 (l.foldl (prioritisedStep g) r).1 := by
  induction l with
  | nil => exact fun r => Looks.refl r.1
  | cons b l ih =>
    intro r
    rw [List.foldl_cons]
    refine Looks.trans ?_ (ih _)
    unfold prioritisedStep
    split_ifs
    · exact Looks.refl r.1
    · exact blockOkForGc_looks b r.1
    · exact Looks.refl r.1
    · exact Looks.refl r.1

theorem findPrioritised_looks (d : BlockDev) : Looks g d (findPrioritised g d).1 := by
  have hfold := (Looks.setGc (g := g) d { d.gc with dirtiest := 0 }).trans
    (prioritisedFold_looks g.blocks ({ d with gc := { d.gc with dirtiest := 0 } }, 0, false))
  unfold findPrioritised
  dsimp only at hfold ⊢
  split_ifs
  · exact hfold
  · exact hfold
  · exact hfold.trans (Looks.setGc _ _)

theorem findDirtiestLoop_looks (n : ℕ) : ∀ d : BlockDev, Looks g d (findDirtiestLoop g n d) := by
  induction n with
  | zero => exact fun d => Looks.refl d
  | succ n ih =>
    intro d
    have hfinder := Looks.setGc (g := g) d { d.gc with blockFinder := g.nextBlock d.gc.blockFinder }
    rw [findDirtiestLoop]
    dsimp only
    split_ifs
    · exact hfinder.trans ((blockOkForGc_looks _ _).trans ((Looks.setGc _ _).trans (ih _)))
    · exact hfinder.trans ((blockOkForGc_looks _ _).trans (ih _))
    · exact hfinder.trans (ih _)
    · exact Looks.refl d

theorem findOldest_looks (background : Bool) (d : BlockDev) : Looks g d (findOldest g background d).1 := by
  have hfind := findOldestDirtySeq_looks (g := g) d
  unfold findOldest
  generalize (if background then 10 else 20) = patience
  dsimp only
  split_ifs
  · exact hfind.trans (Looks.setGc _ _)
  · exact hfind.trans (Looks.setGc _ _)
  · exact Looks.refl d

theorem gcSelected_looks {r : BlockDev × ℕ} (h : Looks g d r.1) : Looks g d (gcSelected r).1 := by
  unfold gcSelected
  dsimp only
  split_ifs <;> exact h.trans (Looks.setGc _ _)

theorem findGcBlock_looks (aggressive background : Bool) (d : BlockDev) :
    Looks g d (findGcBlock g aggressive background d).1 := by
  have helse : ∀ (r : BlockDev × ℕ) (f : BlockDev → BlockDev × ℕ), Looks g d r.1 → (∀ x, Looks g x (f x).1) →
      Looks g d (if r.2 = 0 then f r.1 else r).1 := by
    intro r f hr hf
    split_ifs
    · exact hr.trans (hf r.1)
    · exact hr
  have hfirst : Looks g d (if d.gc.hasPendingPrioritised && !aggressive then findPrioritised g d else (d, 0)).1 := by
    split_ifs
    · exact findPrioritised_looks d
    · exact Looks.refl d
  exact gcSelected_looks (helse _ _ (helse _ _ hfirst fun x =>
    (findDirtiestLoop_looks (gcIterations g aggressive) x)) fun x => findOldest_looks background x)

theorem findRefreshBlock_looks (d : BlockDev) : Looks g d (findRefreshBlock g d).1 := by
  unfold findRefreshBlock
  dsimp only
  split_ifs
  · exact Looks.refl d
  · exact Looks.setGc d _
  · exact Looks.setGc d _

/-- A block with a shrink header is accepted only when its sequence number is at most that of the oldest
dirty block. -/
theorem OldestDirty.shrinkSafe (h : OldestDirty g d) (ht : Comparable g d.blockInfo) : ShrinkSafe g d := by
  intro hy b hshrink hok b' hdis
  have hlook := findOldestDirtySeq_looks (g := g) d
  have hold := hlook.oldest ht h
  have hle : (d.blockInfo b).seqNumber ≤ (findOldestDirtySeq g d).oldestDirtySeq := by
    unfold blockOkForGc at hok
    rw [if_pos ⟨hy, hshrink⟩] at hok
    have hseq := of_decide_eq_true hok
    rwa [hlook.info] at hseq
  by_cases h0 : (findOldestDirtySeq g d).oldestDirtySeq = 0
  · omega
  · have hmin := (hold h0).2.2 b'
    unfold Discards at hmin hdis
    rw [hlook.info] at hmin
    exact hle.trans (hmin hdis)

/-! ## Collecting -/

/-- A page of the summary of the block is in use. -/
def SummaryInUse (g : Geometry) (b : ℕ) (d : BlockDev) : Prop :=
  (d.blockInfo b).hasSummary = true ∧ ∃ i, g.chunksPerSummary ≤ i ∧ i < g.chunksPerBlock ∧
    d.chunkBits (b * g.chunksPerBlock + i) = true

/-- The body of the loop of `yaffs_summary_gc`. -/
def releasePage (g : Geometry) (b : ℕ) (d : BlockDev) (i : ℕ) : BlockDev :=
  if d.chunkBits (b * g.chunksPerBlock + i) then releaseChunk b (b * g.chunksPerBlock + i) d else d

/-- The block as pages of it are released one after the other. -/
structure ReleasedPages (g : Geometry) (b : ℕ) (l : List ℕ) (d d' : BlockDev) : Prop where
  oldestSeq : d'.oldestDirtySeq = d.oldestDirtySeq
  state : (d'.blockInfo b).blockState = (d.blockInfo b).blockState
  seq : (d'.blockInfo b).seqNumber = (d.blockInfo b).seqNumber
  soft : (d'.blockInfo b).softDelPages = (d.blockInfo b).softDelPages
  fewer : (d'.blockInfo b).pagesInUse ≤ (d.blockInfo b).pagesInUse
  released : (∃ i ∈ l, d.chunkBits (b * g.chunksPerBlock + i) = true) →
    (d'.blockInfo b).pagesInUse < (d.blockInfo b).pagesInUse

theorem releaseChunk_block (c : ℕ) (d : BlockDev) : (releaseChunk b c d).blockInfo b =
    { d.blockInfo b with pagesInUse := (d.blockInfo b).pagesInUse - 1 } := by
  simp [releaseChunk, BlockDev.modBlock, BlockDev.clearChunkBit]

theorem releasePages (l : List ℕ) : ∀ d : BlockDev, ReleasedPages g b l d (l.foldl (releasePage g b) d) := by
  induction l with
  | nil => exact fun d => ⟨rfl, rfl, rfl, rfl, le_rfl, by simp⟩
  | cons i l ih =>
    intro d
    rw [List.foldl_cons]
    have hrest := ih (releasePage g b d i)
    unfold releasePage at hrest ⊢
    split_ifs at hrest ⊢ with hbit
    · have hblock := releaseChunk_block (b := b) (b * g.chunksPerBlock + i) d
      have hfewer := hrest.fewer
      rw [hblock] at hfewer
      refine ⟨hrest.oldestSeq, by rw [hrest.state, hblock], by rw [hrest.seq, hblock], by rw [hrest.soft, hblock],
        ?_, fun _ => ?_⟩ <;> dsimp only at hfewer <;> omega
    · refine ⟨hrest.oldestSeq, hrest.state, hrest.seq, hrest.soft, hrest.fewer, fun ⟨j, hj, hbj⟩ => ?_⟩
      rcases List.mem_cons.mp hj with rfl | hmem
      · exact absurd hbj hbit
      · exact hrest.released ⟨j, hmem, hbj⟩

theorem summaryGc_eq (b : ℕ) (d : BlockDev) : summaryGc g b d = if (d.blockInfo b).hasSummary then
    (List.range' g.chunksPerSummary (g.chunksPerBlock - g.chunksPerSummary)).foldl (releasePage g b) d else d :=
  rfl

theorem mem_summaryPages {i : ℕ} : i ∈ List.range' g.chunksPerSummary (g.chunksPerBlock - g.chunksPerSummary) ↔
    g.chunksPerSummary ≤ i ∧ i < g.chunksPerBlock := by
  have := chunksPerSummary_lt (g := g)
  rw [List.mem_range'_1]
  omega

/-- Without a call of `yaffs2_update_oldest_dirty_seq` the block has to be no older than the oldest one. -/
theorem releasePages_oldest (hb : b ∈ g.blocks) (l : List ℕ) : ∀ d : BlockDev, OldestDirty g d →
    (d.blockInfo b).blockState.collectable = true →
    (d.blockInfo b).pagesInUse - (d.blockInfo b).softDelPages ≤ g.chunksPerBlock →
    ((∃ i ∈ l, d.chunkBits (b * g.chunksPerBlock + i) = true) → d.oldestDirtySeq ≠ 0 →
      d.oldestDirtySeq ≤ (d.blockInfo b).seqNumber) → OldestDirty g (l.foldl (releasePage g b) d) := by
  induction l with
  | nil => exact fun d h _ _ _ => h
  | cons i l ih =>
    intro d h hcol hp hok
    rw [List.foldl_cons]
    by_cases hbit : d.chunkBits (b * g.chunksPerBlock + i) = true
    · have hle := hok ⟨i, List.mem_cons_self .., hbit⟩
      have hmod := h.modDirty hb hcol hle (f := fun bi => { bi with pagesInUse := bi.pagesInUse - 1 }) rfl rfl
        (by dsimp only; omega)
      have hblock := releaseChunk_block (b := b) (b * g.chunksPerBlock + i) d
      have hstep : releasePage g b d i = releaseChunk b (b * g.chunksPerBlock + i) d := if_pos hbit
      rw [hstep]
      refine ih _ (hmod.congr rfl rfl rfl) ?_ ?_ fun _ h0 => ?_ <;> rw [hblock]
      · exact hcol
      · dsimp only
        omega
      · exact hle h0
    · have hstep : releasePage g b d i = d := if_neg hbit
      rw [hstep]
      exact ih d h hcol hp fun ⟨j, hj, hbj⟩ => hok ⟨j, List.mem_cons_of_mem _ hj, hbj⟩

/-- The summary of block `b` can go without a look at the oldest dirty block. -/
def SummaryYoung (g : Geometry) (b : ℕ) (d : BlockDev) : Prop :=
  SummaryInUse g b d → d.oldestDirtySeq ≠ 0 → d.oldestDirtySeq ≤ (d.blockInfo b).seqNumber

theorem summaryGc_oldest_iff (h : OldestDirty g d) (hb : b ∈ g.blocks)
    (hcol : (d.blockInfo b).blockState.collectable = true)
    (hp : (d.blockInfo b).pagesInUse - (d.blockInfo b).softDelPages ≤ g.chunksPerBlock) :
    OldestDirty g (summaryGc g b d) ↔ SummaryYoung g b d := by
  rw [summaryGc_eq]
  split_ifs with hsum
  · have hused : SummaryInUse g b d ↔ ∃ i ∈ List.range' g.chunksPerSummary (g.chunksPerBlock - g.chunksPerSummary),
        d.chunkBits (b * g.chunksPerBlock + i) = true := by
      simp only [SummaryInUse, hsum, true_and, mem_summaryPages, and_assoc]
    have hpages := releasePages (g := g) (b := b)
      (List.range' g.chunksPerSummary (g.chunksPerBlock - g.chunksPerSummary)) d
    refine ⟨fun hold hin h0 => ?_, fun hyoung => releasePages_oldest hb _ d h hcol hp (hused.mpr · |> hyoung)⟩
    -- the block now discards the pages of its summary
    have hrel := hpages.released (hused.mp hin)
    have hsoft := hpages.soft
    have hdis : Discards g ((List.range' g.chunksPerSummary (g.chunksPerBlock - g.chunksPerSummary)).foldl
        (releasePage g b) d) b := ⟨hb, by rw [hpages.state]; exact hcol, by omega⟩
    have hmin := (hold (by rw [hpages.oldestSeq]; exact h0)).2.2 b hdis
    rwa [hpages.oldestSeq, hpages.seq] at hmin
  · exact ⟨fun _ hin => absurd hin.1 hsum, fun _ => h⟩

/-- The start of gc on a block keeps the oldest dirty block exactly if the summary can go. -/
theorem gcBlockStart_oldest_iff (h : OldestDirty g d) (hb : b ∈ g.blocks)
    (hcol : (d.blockInfo b).blockState.collectable = true)
    (hp : (d.blockInfo b).pagesInUse - (d.blockInfo b).softDelPages ≤ g.chunksPerBlock) :
    OldestDirty g (gcBlockStart g b d) ↔ SummaryYoung g b d := by
  have htaken : ∃ s : BlockState, s.collectable = true ∧ gcBlockStart g b d = summaryGc g b
      { (d.modBlock b fun bi => { bi with blockState := s, hasShrinkHdr := false }) with
        gc := { d.gc with disable := true } } := by
    unfold gcBlockStart
    split_ifs
    · exact ⟨.collecting, rfl, by simp [BlockDev.setState, BlockDev.modBlock]⟩
    · exact ⟨(d.blockInfo b).blockState, hcol, by simp [BlockDev.modBlock]⟩
  obtain ⟨s, hs, heq⟩ := htaken
  have hmod := h.flags (b := b) (f := fun bi => { bi with blockState := s, hasShrinkHdr := false })
    (hs.trans hcol.symm) rfl rfl rfl
  have hyoung : SummaryYoung g b { (d.modBlock b fun bi => { bi with blockState := s, hasShrinkHdr := false }) with
      gc := { d.gc with disable := true } } ↔ SummaryYoung g b d := by
    simp [SummaryYoung, SummaryInUse, BlockDev.modBlock]
  rw [heq, ← hyoung]
  refine summaryGc_oldest_iff (hmod.congr rfl rfl rfl) hb ?_ ?_
  · simpa [BlockDev.modBlock] using hs
  · simpa [BlockDev.modBlock] using hp

end Yaffs
