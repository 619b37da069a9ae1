import Yaffs.Block
import Yaffs.Tally
import Mathlib.Tactic.Linarith

/-!
# Block accounting

What the block table, the chunk bitmap and the counters of a device have to agree
on. `BlkInv` holds between any two steps of the block management; its parameter
names the blocks that are in transit, being collected or erased. `FreeInv` is the
part about free chunks, which also counts the soft-deleted ones.
-/

namespace Yaffs

open Tally

variable {g : Geometry} {e : Env} {d : BlockDev}

/-! ## Indices -/

theorem mem_blocks {b : ℕ} : b ∈ g.blocks ↔ g.startBlock ≤ b ∧ b ≤ g.endBlock := by
  have := g.endBlock_gt
  simp only [Param.blocks, List.mem_range'_1]
  omega

theorem nodup_blocks : g.blocks.Nodup := by
  simp [Param.blocks, List.nodup_range']

theorem pos_of_mem_blocks {b : ℕ} (hb : b ∈ g.blocks) : 0 < b := by
  have := g.startBlock_pos
  have := (mem_blocks.mp hb).1
  omega

theorem chunksPerBlock_pos : 0 < g.chunksPerBlock := by
  have := g.two_le_chunksPerBlock
  omega

/-- The chunks of block `b`. -/
def Param.chunksOf (p : Param) (b : ℕ) : List ℕ :=
  List.range' (b * p.chunksPerBlock) p.chunksPerBlock

theorem mem_chunksOf {b c : ℕ} : c ∈ g.chunksOf b ↔ c / g.chunksPerBlock = b := by
  have hp := chunksPerBlock_pos (g := g)
  simp only [Param.chunksOf, List.mem_range'_1, Nat.div_eq_iff hp]
  omega

theorem nodup_chunksOf {b : ℕ} : (g.chunksOf b).Nodup := by
  simp [Param.chunksOf, List.nodup_range']

/-! ## Counts -/

/-- A set bit counts one. -/
def bitWeight (used : Bool) : ℤ :=
  if used then 1 else 0

/-- `yaffs_count_chunk_bits`. -/
def countChunkBits (g : Geometry) (b : ℕ) (bits : ℕ → Bool) : ℤ :=
  tally (g.chunksOf b) bitWeight bits

/-- A block in state `s` counts one. -/
def stateWeight (s : BlockState) (bi : BlockInfo) : ℤ :=
  if bi.blockState = s then 1 else 0

/-- Number of the blocks in state `s`. -/
def countState (g : Geometry) (s : BlockState) (t : ℕ → BlockInfo) : ℤ :=
  tally g.blocks (stateWeight s) t

/-- The free chunks of one block, as `yaffs_count_free_chunks` counts them. -/
def freeWeight (g : Geometry) (bi : BlockInfo) : ℤ :=
  match bi.blockState with
  | .empty | .allocating | .collecting | .full =>
    g.chunksPerBlock - bi.pagesInUse + bi.softDelPages
  | _ => 0

/-- `yaffs_count_free_chunks`. -/
def countFreeChunks (g : Geometry) (t : ℕ → BlockInfo) : ℤ :=
  tally g.blocks (freeWeight g) t

theorem countState_update {t : ℕ → BlockInfo} {b : ℕ} (hb : b ∈ g.blocks) (s : BlockState)
    (bi : BlockInfo) : countState g s (Function.update t b bi) =
      countState g s t - stateWeight s (t b) + stateWeight s bi :=
  tally_update nodup_blocks hb _ _ _

theorem countFreeChunks_update {t : ℕ → BlockInfo} {b : ℕ} (hb : b ∈ g.blocks)
    (bi : BlockInfo) : countFreeChunks g (Function.update t b bi) =
      countFreeChunks g t - freeWeight g (t b) + freeWeight g bi :=
  tally_update nodup_blocks hb _ _ _

/-- No page of the block is in use. -/
def NoBits (g : Geometry) (b : ℕ) (bits : ℕ → Bool) : Prop :=
  ∀ c, c / g.chunksPerBlock = b → bits c = false

theorem bitWeight_nonneg (x : Bool) : 0 ≤ bitWeight x := by
  unfold bitWeight
  split <;> omega

theorem countChunkBits_nonneg (b : ℕ) (bits : ℕ → Bool) : 0 ≤ countChunkBits g b bits :=
  tally_nonneg fun c _ => bitWeight_nonneg (bits c)

theorem countChunkBits_eq_zero {b : ℕ} {bits : ℕ → Bool} :
    countChunkBits g b bits = 0 ↔ NoBits g b bits := by
  constructor
  · intro h c hc
    have := tally_eq_zero (fun c _ => bitWeight_nonneg (bits c)) h c (mem_chunksOf.mpr hc)
    simpa [bitWeight] using this
  · intro h
    exact tally_zero fun c hc => by simp [bitWeight, h c (mem_chunksOf.mp hc)]

theorem countChunkBits_set {b c : ℕ} {bits : ℕ → Bool} (h : bits c = false) :
    countChunkBits g b (Function.update bits c true) =
      countChunkBits g b bits + if c / g.chunksPerBlock = b then 1 else 0 := by
  unfold countChunkBits
  split_ifs with hc
  · rw [tally_update nodup_chunksOf (mem_chunksOf.mpr hc), h]
    simp [bitWeight]
  · rw [tally_update_of_not_mem (fun h => hc (mem_chunksOf.mp h))]
    simp

theorem countChunkBits_clear {b c : ℕ} {bits : ℕ → Bool} (h : bits c = true) :
    countChunkBits g b (Function.update bits c false) =
      countChunkBits g b bits - if c / g.chunksPerBlock = b then 1 else 0 := by
  unfold countChunkBits
  split_ifs with hc
  · rw [tally_update nodup_chunksOf (mem_chunksOf.mpr hc), h]
    simp [bitWeight]
  · rw [tally_update_of_not_mem (fun h => hc (mem_chunksOf.mp h))]
    simp

/-! ## The invariant -/

/-- The states a block is in between operations. -/
def BlockState.settled : BlockState → Bool
  | .empty | .allocating | .full | .checkpoint | .dead => true
  | _ => false

/-- The states of a block with chunks in use. -/
def BlockState.inService : BlockState → Bool
  | .allocating | .full | .collecting => true
  | _ => false

/-- The states of a block gc may have chosen. -/
def BlockState.collectable : BlockState → Bool
  | .full | .collecting => true
  | _ => false

/-- The block management is consistent, except for the states `T` of blocks in transit. -/
structure BlkInv (g : Geometry) (T : ℕ → BlockState → Prop) (d : BlockDev) : Prop where
  bit_mem : ∀ c, d.chunkBits c = true → c / g.chunksPerBlock ∈ g.blocks
  bit_state : ∀ c, d.chunkBits c = true →
    (d.blockInfo (c / g.chunksPerBlock)).blockState.inService = true
  pages : ∀ b ∈ g.blocks, (d.blockInfo b).pagesInUse = countChunkBits g b d.chunkBits
  states : ∀ b ∈ g.blocks,
    (d.blockInfo b).blockState.settled = true ∨ T b (d.blockInfo b).blockState
  alloc_state : ∀ b ∈ g.blocks, (d.blockInfo b).blockState = .allocating → d.alloc.block = some b
  alloc_block : ∀ b, d.alloc.block = some b → b ∈ g.blocks ∧
    (d.blockInfo b).blockState = .allocating ∧ (d.blockInfo b).seqNumber = d.seqNumber
  erased : d.nErasedBlocks = countState g .empty d.blockInfo
  fresh : ∀ b ∈ g.blocks, (d.blockInfo b).hasSummary = true → g.isYaffs2 = true ∧
    (d.blockInfo b).blockState ≠ .empty ∧ (d.blockInfo b).blockState ≠ .checkpoint
  summary : ∀ c, d.chunkBits c = true → (d.blockInfo (c / g.chunksPerBlock)).hasSummary = true →
    g.chunksPerSummary ≤ c % g.chunksPerBlock →
    ∃ p, d.nand.flash c = some p ∧ p.tags.objId = objectIdSummary
  cands : ∀ b, b ≠ 0 → b = d.gc.block ∨ b = d.gc.dirtiest ∨ b = d.oldestDirtyBlock →
    b ∈ g.blocks ∧ (d.blockInfo b).blockState.collectable = true
  oldest_seq : d.oldestDirtyBlock ≠ 0 → g.isYaffs2 = true ∧
    (d.blockInfo d.oldestDirtyBlock).seqNumber = d.oldestDirtySeq
  oldest_le : d.oldestDirtySeq ≤ d.seqNumber

/-- The allocation block has no summary yet, and its pages still to be allocated are
not in use. -/
structure OpenInv (g : Geometry) (d : BlockDev) : Prop where
  page_lt : ∀ b, d.alloc.block = some b → d.alloc.page < g.chunksPerBlock
  clear : ∀ b, d.alloc.block = some b → ∀ c, c / g.chunksPerBlock = b →
    d.alloc.page ≤ c % g.chunksPerBlock → d.chunkBits c = false
  noSummary : ∀ b, d.alloc.block = some b → (d.blockInfo b).hasSummary = false

/-- Free chunks : `soft` are the soft-deleted chunks and `n_free_chunks` is `k` ahead. -/
structure FreeInv (g : Geometry) (soft : ℕ → Bool) (k : ℤ) (d : BlockDev) : Prop where
  soft_bit : ∀ c, soft c = true → d.chunkBits c = true
  soft_pages : ∀ b ∈ g.blocks, (d.blockInfo b).softDelPages = countChunkBits g b soft
  free : d.nFreeChunks = countFreeChunks g d.blockInfo + k

/-- `blocks_in_checkpt` counts the checkpoint blocks. -/
def CheckptInv (g : Geometry) (d : BlockDev) : Prop :=
  (d.blocksInCheckpt : ℤ) = countState g .checkpoint d.blockInfo

/-! ## Single steps -/

variable {T : ℕ → BlockState → Prop} {b c : ℕ} {soft : ℕ → Bool} {k : ℤ}

namespace BlkInv

theorem mono {R : ℕ → BlockState → Prop} (hT : ∀ b s, T b s → R b s) (h : BlkInv g T d) :
    BlkInv g R d :=
  { h with states := fun b hb => (h.states b hb).imp_right (hT b _) }

theorem noBits (h : BlkInv g T d) (hb : (d.blockInfo b).blockState.inService = false) :
    NoBits g b d.chunkBits := by
  intro c hc
  by_contra hbit
  have := h.bit_state c (by simpa using hbit)
  simp [hc, hb] at this

/-- The driver may change any page that is not in use. -/
theorem nand (h : BlkInv g T d) (n : Nand)
    (hn : ∀ c, d.chunkBits c = true → n.flash c = d.nand.flash c) :
    BlkInv g T { d with nand := n } :=
  { h with
    summary := fun c hc hs hp => by
      have := h.summary c hc hs hp
      rwa [← hn c hc] at this }

theorem eraseUnused (h : BlkInv g T d) (hno : NoBits g b d.chunkBits) :
    BlkInv g T (eraseBlock g e b d).1 := by
  refine h.nand _ fun c hc => ?_
  have hcb : c / g.chunksPerBlock ≠ b := fun hb => by simp [hno c hb] at hc
  simp [hcb]

/-- A page may be programmed when it is not in use, or its block has no summary. -/
theorem driverWrite (h : BlkInv g T d) (p : Page)
    (hc : d.chunkBits c = true → (d.blockInfo (c / g.chunksPerBlock)).hasSummary = false) :
    BlkInv g T (driverWrite e c p d).1 :=
  { h with
    summary := fun c' hc' hs hp => by
      have hne : c' ≠ c := by
        rintro rfl
        exact Bool.false_ne_true ((hc hc').symm.trans hs)
      simpa [Yaffs.driverWrite, hne] using h.summary c' hc' hs hp }

/-- Replace the block info of `b` by one with the same pages, sequence number and summary. -/
theorem flags (h : BlkInv g T d) {f : BlockInfo → BlockInfo}
    (hstate : ∀ bi, (f bi).blockState = bi.blockState) (hpages : ∀ bi, (f bi).pagesInUse = bi.pagesInUse)
    (hsum : ∀ bi, (f bi).hasSummary = bi.hasSummary) (hseq : ∀ bi, (f bi).seqNumber = bi.seqNumber) :
    BlkInv g T (d.modBlock b f) := by
  have hs : ∀ b', ((d.modBlock b f).blockInfo b').blockState = (d.blockInfo b').blockState := by
    intro b'
    by_cases hb : b' = b <;> simp [BlockDev.modBlock, hb, hstate]
  have hcnt : countState g .empty (d.modBlock b f).blockInfo = countState g .empty d.blockInfo :=
    tally_congr fun b' _ => by simp only [stateWeight, hs]
  constructor <;> simp only [BlockDev.modBlock, Function.update_apply] at *
  · exact h.bit_mem
  · grind [h.bit_state]
  · grind [h.pages]
  · grind [h.states]
  · grind [h.alloc_state]
  · grind [h.alloc_block]
  · rw [hcnt]; exact h.erased
  · grind [h.fresh]
  · grind [h.summary]
  · grind [h.cands]
  · grind [h.oldest_seq]
  · grind [h.oldest_le]

theorem setEmpty (h : BlkInv g T d) (hb : b ∈ g.blocks)
    (hs : (d.blockInfo b).blockState = .checkpoint) (k : ℤ) : BlkInv g T
      { d.setState b .empty with nErasedBlocks := d.nErasedBlocks + 1, nFreeChunks := k } := by
  constructor <;> simp only [BlockDev.setState, BlockDev.modBlock, Function.update_apply]
  · exact h.bit_mem
  · intro c hc
    have := h.bit_state c hc
    grind [BlockState.inService]
  · grind [h.pages]
  · grind [h.states, BlockState.settled]
  · grind [h.alloc_state]
  · grind [h.alloc_block]
  · rw [countState_update hb, h.erased]
    simp [stateWeight, hs]
  · grind [h.fresh]
  · grind [h.summary]
  · grind [h.cands, BlockState.collectable]
  · grind [h.oldest_seq, h.cands, BlockState.collectable]
  · grind [h.oldest_le]

/-- A checkpoint block or one in transit is given up. -/
theorem setDead (h : BlkInv g T d) (hb : b ∈ g.blocks)
    (hs : (d.blockInfo b).blockState = .checkpoint ∨ (d.blockInfo b).blockState = .dirty)
    {f : BlockInfo → BlockInfo} (hf : ∀ bi, (f bi).blockState = .dead ∧
      (f bi).pagesInUse = bi.pagesInUse ∧ (f bi).hasSummary = bi.hasSummary) :
    BlkInv g T (d.modBlock b f) := by
  have hf' := hf (d.blockInfo b)
  have hcand : ∀ b', b' = b → (d.blockInfo b').blockState.collectable = false := by
    rintro _ rfl
    rcases hs with hs | hs <;> simp [hs, BlockState.collectable]
  constructor <;> simp only [BlockDev.modBlock, Function.update_apply]
  · exact h.bit_mem
  · intro c hc
    have := h.bit_state c hc
    grind [BlockState.inService]
  · grind [h.pages]
  · grind [h.states, BlockState.settled]
  · grind [h.alloc_state]
  · grind [h.alloc_block]
  · rw [countState_update hb, h.erased]
    rcases hs with hs | hs <;> simp [stateWeight, hs, hf']
  · grind [h.fresh]
  · grind [h.summary]
  · grind [h.cands]
  · grind [h.oldest_seq, h.cands]
  · grind [h.oldest_le]

theorem clearOldestDirtySeq (h : BlkInv g T d) : BlkInv g T (clearOldestDirtySeq g b d) := by
  unfold Yaffs.clearOldestDirtySeq
  split_ifs
  · exact { h with
      cands := fun b' hb' hc => h.cands b' hb' (by grind)
      oldest_seq := fun h0 => absurd rfl h0
      oldest_le := Nat.zero_le _ }
  · exact h

/-- With the sequence number gone the block is no longer the oldest dirty one. -/
theorem oldestDirtyBlock_clear (h : BlkInv g T d) (hb : b ≠ 0) :
    (Yaffs.clearOldestDirtySeq g b d).oldestDirtyBlock ≠ b := by
  intro heq
  unfold Yaffs.clearOldestDirtySeq at heq
  split_ifs at heq with hc
  · exact hb heq.symm
  · have := h.oldest_seq (by omega)
    rw [heq] at this
    exact hc this

theorem dropGc (h : BlkInv g T d) : BlkInv g T { d with gc := d.gc.drop b } :=
  { h with
    cands := fun b' hb' hc => h.cands b' hb' (by
      simp only [GcCursor.drop] at hc
      grind) }

/-- A block without chunks in use leaves service once gc does not refer to it. -/
theorem setDirty (h : BlkInv g T d) (hb : b ∈ g.blocks)
    (hs : (d.blockInfo b).blockState.collectable = true) (hno : NoBits g b d.chunkBits)
    (hT : T b .dirty) (hblock : d.gc.block ≠ b) (hdirtiest : d.gc.dirtiest ≠ b)
    (hold : d.oldestDirtyBlock ≠ b) : BlkInv g T (d.setState b .dirty) := by
  have hne : (d.blockInfo b).blockState ≠ .empty ∧ (d.blockInfo b).blockState ≠ .allocating := by
    constructor <;> intro h0 <;> simp [h0, BlockState.collectable] at hs
  constructor <;> simp only [BlockDev.setState, BlockDev.modBlock, Function.update_apply]
  · exact h.bit_mem
  · intro c hc
    have := h.bit_state c hc
    grind [NoBits]
  · grind [h.pages]
  · grind [h.states]
  · grind [h.alloc_state]
  · grind [h.alloc_block]
  · rw [countState_update hb, h.erased]
    simp [stateWeight, hne.1]
  · grind [h.fresh]
  · grind [h.summary]
  · grind [h.cands]
  · grind [h.oldest_seq]
  · exact h.oldest_le

/-- The erased block is clean. -/
theorem cleanBlock (h : BlkInv g T d) (hb : b ∈ g.blocks)
    (hs : (d.blockInfo b).blockState = .dirty) : BlkInv g T (cleanBlock g b d) := by
  have hno := h.noBits (b := b) (by simp [hs, BlockState.inService])
  have hbits : (fun c => if c / g.chunksPerBlock = b then false else d.chunkBits c) = d.chunkBits := by
    funext c
    split_ifs with hc
    · exact (hno c hc).symm
    · rfl
  have hzero := countChunkBits_eq_zero.mpr hno
  unfold Yaffs.cleanBlock Yaffs.clearChunkBits
  simp only [BlockDev.modBlock, hbits]
  constructor <;> simp only [Function.update_apply]
  · exact h.bit_mem
  · intro c hc
    have := h.bit_state c hc
    grind [NoBits]
  · grind [h.pages]
  · grind [h.states, BlockState.settled]
  · grind [h.alloc_state]
  · grind [h.alloc_block]
  · rw [countState_update hb, h.erased]
    simp [stateWeight, hs]
  · grind [h.fresh]
  · grind [h.summary]
  · grind [h.cands, BlockState.collectable]
  · grind [h.oldest_seq, h.cands, BlockState.collectable]
  · exact h.oldest_le

/-- A page in use leaves the management area. -/
theorem releaseChunk (h : BlkInv g T d) (hb : c / g.chunksPerBlock = b) (hc : d.chunkBits c = true) :
    BlkInv g T (releaseChunk b c d) := by
  have hmem := hb ▸ h.bit_mem c hc
  constructor <;>
    simp only [Yaffs.releaseChunk, BlockDev.clearChunkBit, BlockDev.modBlock, Function.update_apply]
  · grind [h.bit_mem]
  · grind [h.bit_state]
  · intro b' hb'
    have := h.pages b' hb'
    rw [countChunkBits_clear hc]
    grind
  · grind [h.states]
  · grind [h.alloc_state]
  · grind [h.alloc_block]
  · rw [countState_update hmem, h.erased]
    simp [stateWeight]
  · grind [h.fresh]
  · grind [h.summary]
  · grind [h.cands]
  · grind [h.oldest_seq]
  · exact h.oldest_le

/-- An empty block becomes the allocation block. -/
theorem openBlock (h : BlkInv g T d) (hb : b ∈ g.blocks)
    (hs : (d.blockInfo b).blockState = .empty) (hnone : d.alloc.block = none) (a : AllocCursor)
    (ha : a.block = some b) : BlkInv g T { takeBlock b d with alloc := a } := by
  have hno := h.noBits (b := b) (by simp [hs, BlockState.inService])
  constructor <;> simp only [takeBlock, BlockDev.modBlock, Function.update_apply, ha]
  · exact h.bit_mem
  · intro c hc
    have := h.bit_state c hc
    grind [NoBits]
  · grind [h.pages]
  · grind [h.states, BlockState.settled]
  · grind [h.alloc_state]
  · grind [h.alloc_block]
  · rw [countState_update hb, h.erased]
    simp [stateWeight, hs]
  · grind [h.fresh]
  · grind [h.summary]
  · grind [h.cands, BlockState.collectable]
  · grind [h.oldest_seq, h.cands, BlockState.collectable]
  · exact Nat.le_succ_of_le h.oldest_le

/-- The allocation block is closed. -/
theorem closeBlock (h : BlkInv g T d) (hb : d.alloc.block = some b) : BlkInv g T (closeBlock b d) := by
  obtain ⟨hmem, hs, hseq⟩ := h.alloc_block b hb
  constructor <;> simp only [Yaffs.closeBlock, BlockDev.setState, BlockDev.modBlock, Function.update_apply]
  · exact h.bit_mem
  · intro c hc
    have := h.bit_state c hc
    grind [BlockState.inService]
  · grind [h.pages]
  · grind [h.states, BlockState.settled]
  · intro b' hb' hs'
    have := h.alloc_state b' hb'
    grind
  · grind
  · rw [countState_update hmem, h.erased]
    simp [stateWeight, hs]
  · grind [h.fresh]
  · grind [h.summary]
  · grind [h.cands, BlockState.collectable]
  · grind [h.oldest_seq]
  · exact h.oldest_le

/-- A page of a block in service comes into use. -/
theorem useChunk (h : BlkInv g T d) (hb : c / g.chunksPerBlock = b) (hmem : b ∈ g.blocks)
    (hs : (d.blockInfo b).blockState.inService = true) (hc : d.chunkBits c = false)
    (hsum : (d.blockInfo b).hasSummary = false) :
    BlkInv g T ((d.setChunkBit c).modBlock b fun bi => { bi with pagesInUse := bi.pagesInUse + 1 }) := by
  constructor <;> simp only [BlockDev.setChunkBit, BlockDev.modBlock, Function.update_apply]
  · grind [h.bit_mem]
  · grind [h.bit_state]
  · intro b' hb'
    have := h.pages b' hb'
    rw [countChunkBits_set hc]
    grind
  · grind [h.states]
  · grind [h.alloc_state]
  · grind [h.alloc_block]
  · rw [countState_update hmem, h.erased]
    simp [stateWeight]
  · grind [h.fresh]
  · grind [h.summary]
  · grind [h.cands]
  · grind [h.oldest_seq]
  · exact h.oldest_le

/-- The summary of the block is complete. -/
theorem setSummary (h : BlkInv g T d) (hs : (d.blockInfo b).blockState = .allocating)
    (hy : g.isYaffs2 = true)
    (hsum : ∀ c, c / g.chunksPerBlock = b → d.chunkBits c = true →
      g.chunksPerSummary ≤ c % g.chunksPerBlock →
      ∃ p, d.nand.flash c = some p ∧ p.tags.objId = objectIdSummary) :
    BlkInv g T (d.modBlock b fun bi => { bi with hasSummary := true }) := by
  have hcnt : countState g .empty (d.modBlock b fun bi => { bi with hasSummary := true }).blockInfo =
      countState g .empty d.blockInfo := by
    refine tally_congr fun b' _ => ?_
    by_cases hb : b' = b <;> simp [BlockDev.modBlock, hb, stateWeight]
  constructor <;> simp only [BlockDev.modBlock, Function.update_apply] at *
  · exact h.bit_mem
  · grind [h.bit_state]
  · grind [h.pages]
  · grind [h.states]
  · grind [h.alloc_state]
  · grind [h.alloc_block]
  · rw [hcnt]; exact h.erased
  · grind [h.fresh]
  · grind [h.summary]
  · grind [h.cands]
  · grind [h.oldest_seq]
  · exact h.oldest_le

/-- gc takes up a full block. -/
theorem setCollecting (h : BlkInv g T d) (hb : b ∈ g.blocks)
    (hs : (d.blockInfo b).blockState = .full) (hT : T b .collecting) :
    BlkInv g T (d.setState b .collecting) := by
  constructor <;> simp only [BlockDev.setState, BlockDev.modBlock, Function.update_apply]
  · exact h.bit_mem
  · intro c hc
    have := h.bit_state c hc
    grind [BlockState.inService]
  · grind [h.pages]
  · grind [h.states, BlockState.settled]
  · grind [h.alloc_state]
  · grind [h.alloc_block]
  · rw [countState_update hb, h.erased]
    simp [stateWeight, hs]
  · grind [h.fresh]
  · grind [h.summary]
  · grind [h.cands, BlockState.collectable]
  · grind [h.oldest_seq]
  · exact h.oldest_le

/-- gc leaves a block it did not finish. -/
theorem setFull (h : BlkInv g T d) (hb : b ∈ g.blocks)
    (hs : (d.blockInfo b).blockState = .collecting) {T' : ℕ → BlockState → Prop}
    (hT : ∀ b' s, b' ≠ b → T b' s → T' b' s) : BlkInv g T' (d.setState b .full) := by
  constructor <;> simp only [BlockDev.setState, BlockDev.modBlock, Function.update_apply]
  · exact h.bit_mem
  · intro c hc
    have := h.bit_state c hc
    grind [BlockState.inService]
  · grind [h.pages]
  · grind [h.states, BlockState.settled]
  · grind [h.alloc_state]
  · grind [h.alloc_block]
  · rw [countState_update hb, h.erased]
    simp [stateWeight, hs]
  · grind [h.fresh]
  · grind [h.summary]
  · grind [h.cands, BlockState.collectable]
  · grind [h.oldest_seq]
  · exact h.oldest_le

/-- The block is dirtied, so it may become the oldest dirty one. -/
theorem updateOldestDirtySeq (h : BlkInv g T d) (hb : g.isYaffs2 = true → b ∈ g.blocks)
    (hs : g.isYaffs2 = true → (d.blockInfo b).blockState.inService = true) :
    BlkInv g T (updateOldestDirtySeq g b d) := by
  unfold Yaffs.updateOldestDirtySeq
  split_ifs with hc
  · obtain ⟨hy, -, hlt⟩ := hc
    have hle := h.oldest_le
    have hcol : (d.blockInfo b).blockState.collectable = true := by
      have hs := hs hy
      have hna : (d.blockInfo b).blockState ≠ .allocating := by
        intro h0
        have := (h.alloc_block b (h.alloc_state b (hb hy) h0)).2.2
        omega
      revert hs hna
      cases (d.blockInfo b).blockState <;> simp [BlockState.inService, BlockState.collectable]
    exact { h with
      cands := fun b' hb' hc => by
        rcases hc with hc | hc | rfl
        · exact h.cands b' hb' (Or.inl hc)
        · exact h.cands b' hb' (Or.inr (Or.inl hc))
        · exact ⟨hb hy, hcol⟩
      oldest_seq := fun _ => ⟨hy, rfl⟩
      oldest_le := by simp only; omega }
  · exact h

end BlkInv

namespace FreeInv

theorem cast {k' : ℤ} (h : FreeInv g soft k d) (hk : k = k') : FreeInv g soft k' d :=
  hk ▸ h

/-- A block info changes, and with it the free chunks of the block. -/
theorem modBlock (h : FreeInv g soft k d) (hb : b ∈ g.blocks) {f : BlockInfo → BlockInfo}
    (hsoft : (f (d.blockInfo b)).softDelPages = (d.blockInfo b).softDelPages) :
    FreeInv g soft (k - (freeWeight g (f (d.blockInfo b)) - freeWeight g (d.blockInfo b)))
      (d.modBlock b f) where
  soft_bit := h.soft_bit
  soft_pages := by
    intro b' hb'
    have := h.soft_pages b' hb'
    simp only [BlockDev.modBlock, Function.update_apply]
    grind
  free := by
    simp only [BlockDev.modBlock, countFreeChunks_update hb, h.free]
    omega

/-- `n` chunks are counted as freed. -/
theorem count (h : FreeInv g soft k d) {d' : BlockDev} (n : ℤ)
    (hinfo : d'.blockInfo = d.blockInfo) (hbits : d'.chunkBits = d.chunkBits)
    (hfree : d'.nFreeChunks = d.nFreeChunks + n) : FreeInv g soft (k + n) d' where
  soft_bit := by rw [hbits]; exact h.soft_bit
  soft_pages := by rw [hinfo]; exact h.soft_pages
  free := by rw [hinfo, hfree, h.free]; omega

/-- No free chunk is gained or lost. -/
theorem flags (h : FreeInv g soft k d) {f : BlockInfo → BlockInfo}
    (hsoft : ∀ bi, (f bi).softDelPages = bi.softDelPages)
    (hw : ∀ bi, freeWeight g (f bi) = freeWeight g bi) : FreeInv g soft k (d.modBlock b f) where
  soft_bit := h.soft_bit
  soft_pages := by
    intro b' hb'
    have := h.soft_pages b' hb'
    simp only [BlockDev.modBlock, Function.update_apply]
    grind
  free := by
    have : countFreeChunks g (d.modBlock b f).blockInfo = countFreeChunks g d.blockInfo := by
      refine tally_congr fun b' _ => ?_
      by_cases hb : b' = b <;> simp [BlockDev.modBlock, hb, hw]
    rw [this]
    exact h.free

theorem softDelPages_eq_zero (h : FreeInv g soft k d) (hb : b ∈ g.blocks)
    (hno : NoBits g b d.chunkBits) : (d.blockInfo b).softDelPages = 0 := by
  rw [h.soft_pages b hb, countChunkBits_eq_zero]
  intro c hc
  by_contra hs
  simpa [hno c hc] using h.soft_bit c (by simpa using hs)

/-- A page leaves or enters the management area. -/
theorem setBit (h : FreeInv g soft k d) (x : Bool) (hc : soft c = true → x = true) :
    FreeInv g soft k { d with chunkBits := Function.update d.chunkBits c x } :=
  { h with
    soft_bit := fun c' hc' => by
      simp only [Function.update_apply]
      split_ifs with heq
      · exact hc (heq ▸ hc')
      · exact h.soft_bit c' hc' }

end FreeInv

end Yaffs
