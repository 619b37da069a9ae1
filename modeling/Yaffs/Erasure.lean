import Yaffs.Accounting

/-!
# Erasure keeps the accounts

Checkpoint invalidation, retirement and erasure of blocks, and chunk deletion, keep
`BlkInv` and `FreeInv`. `Quiet S d d'` is the frame of these functions : only blocks
in `S` change, and no chunk leaves or enters use.
-/

namespace Yaffs

open Tally

variable {g : Geometry} {e : Env} {d : BlockDev} {T : ℕ → BlockState → Prop} {b c : ℕ}
  {soft : ℕ → Bool} {k : ℤ}

/-! ## Frames -/

/-- `d'` differs from `d` at most in the blocks `S`, the counters, the flash of `S` and
the choice of blocks for gc. -/
structure Quiet (g : Geometry) (S : ℕ → Prop) (d d' : BlockDev) : Prop where
  bits : d'.chunkBits = d.chunkBits
  alloc : d'.alloc = d.alloc
  seqNumber : d'.seqNumber = d.seqNumber
  allocFailures : d'.allocFailures = d.allocFailures
  checkpt : d'.checkpt = d.checkpt
  nObj : d'.nObj = d.nObj
  nTnodes : d'.nTnodes = d.nTnodes
  sumTags : d'.sumTags = d.sumTags
  gcChunk : d'.gc.chunk = d.gc.chunk
  gcDisable : d'.gc.disable = d.gc.disable
  info : ∀ b, ¬S b → d'.blockInfo b = d.blockInfo b
  flash : ∀ c, ¬S (c / g.chunksPerBlock) → d'.nand.flash c = d.nand.flash c

namespace Quiet

variable {S S' : ℕ → Prop} {d' d'' : BlockDev}

theorem refl (S : ℕ → Prop) (d : BlockDev) : Quiet g S d d :=
  ⟨rfl, rfl, rfl, rfl, rfl, rfl, rfl, rfl, rfl, rfl, fun _ _ => rfl, fun _ _ => rfl⟩

theorem trans (h : Quiet g S d d') (h' : Quiet g S d' d'') : Quiet g S d d'' where
  bits := h'.bits.trans h.bits
  alloc := h'.alloc.trans h.alloc
  seqNumber := h'.seqNumber.trans h.seqNumber
  allocFailures := h'.allocFailures.trans h.allocFailures
  checkpt := h'.checkpt.trans h.checkpt
  nObj := h'.nObj.trans h.nObj
  nTnodes := h'.nTnodes.trans h.nTnodes
  sumTags := h'.sumTags.trans h.sumTags
  gcChunk := h'.gcChunk.trans h.gcChunk
  gcDisable := h'.gcDisable.trans h.gcDisable
  info := fun b hb => (h'.info b hb).trans (h.info b hb)
  flash := fun c hc => (h'.flash c hc).trans (h.flash c hc)

theorem mono {R : ℕ → Prop} (h : Quiet g S d d') (hS : ∀ b, S b → R b) : Quiet g R d d' :=
  { h with
    info := fun b hb => h.info b fun hs => hb (hS b hs)
    flash := fun c hc => h.flash c fun hs => hc (hS _ hs) }

/-- Chunks in use outside `S` keep their pages. -/
theorem live (h : Quiet g S d d') (hS : ∀ c, S (c / g.chunksPerBlock) → d.chunkBits c = false) :
    d'.live = d.live := by
  funext c
  unfold BlockDev.live
  rw [h.bits]
  by_cases hc : S (c / g.chunksPerBlock)
  · simp [hS c hc]
  · rw [h.flash c hc]

end Quiet

/-- The blocks the checkpoint occupies. -/
def isCheckpt (d : BlockDev) (b : ℕ) : Prop :=
  (d.blockInfo b).blockState = .checkpoint

/-- No checkpoint is on flash. -/
structure NoCheckpt (g : Geometry) (d : BlockDev) : Prop where
  count : d.blocksInCheckpt = 0
  state : ∀ b ∈ g.blocks, (d.blockInfo b).blockState ≠ .checkpoint

theorem NoCheckpt.checkptInv (h : NoCheckpt g d) : CheckptInv g d := by
  unfold CheckptInv
  rw [h.count, Nat.cast_zero, eq_comm]
  exact tally_zero fun b hb => by simp [stateWeight, h.state b hb]

theorem CheckptInv.noCheckpt (h : CheckptInv g d) (h0 : d.blocksInCheckpt = 0) : NoCheckpt g d := by
  refine ⟨h0, fun b hb hs => ?_⟩
  have hz := tally_eq_zero (l := g.blocks) (w := stateWeight .checkpoint) (t := d.blockInfo)
    (fun b _ => by unfold stateWeight; split <;> omega)
    (by rw [← Nat.cast_zero (R := ℤ), ← h0]; exact h.symm) b hb
  simp [stateWeight, hs] at hz

/-! ## Checkpoint invalidation -/

theorem checkptEraseBlock_quiet (b : ℕ) :
    Quiet g (isCheckpt d) d (checkptEraseBlock g e d b) := by
  by_cases hs : (d.blockInfo b).blockState = .checkpoint
  · constructor <;> simp only [checkptEraseBlock, hs, if_true] <;> split_ifs <;>
      simp only [eraseBlock, driverMarkBad, BlockDev.setState, BlockDev.modBlock]
    all_goals
      intro x hx
      have hxb : x ≠ b ∧ x / g.chunksPerBlock ≠ b ∨ x ≠ b ∨ x / g.chunksPerBlock ≠ b := by
        grind [isCheckpt]
      grind [isCheckpt]
  · simp only [checkptEraseBlock, hs, if_false]
    exact Quiet.refl _ _

theorem checkptEraseBlock_blk (h : BlkInv g T d) (hb : b ∈ g.blocks) :
    BlkInv g T (checkptEraseBlock g e d b) := by
  by_cases hs : (d.blockInfo b).blockState = .checkpoint
  · have hno := h.noBits (b := b) (by simp [hs, BlockState.inService])
    have h1 := h.eraseUnused (e := e) hno
    simp only [checkptEraseBlock, hs, if_true]
    split_ifs
    · exact h1.setEmpty hb hs _
    · have h2 : BlkInv g T (driverMarkBad e b (eraseBlock g e b d).1).1 := { h1 with }
      exact h2.setDead hb (Or.inl hs) fun bi => ⟨rfl, rfl, rfl⟩
  · simpa only [checkptEraseBlock, hs, if_false] using h

theorem checkptEraseBlock_free (h : BlkInv g T d) (hf : FreeInv g soft k d) (hb : b ∈ g.blocks) :
    FreeInv g soft k (checkptEraseBlock g e d b) := by
  by_cases hs : (d.blockInfo b).blockState = .checkpoint
  · have hno := h.noBits (b := b) (by simp [hs, BlockState.inService])
    have hpages : (d.blockInfo b).pagesInUse = 0 := by
      rw [h.pages b hb, countChunkBits_eq_zero.mpr hno]
    have hsoft := hf.softDelPages_eq_zero hb hno
    simp only [checkptEraseBlock, hs, if_true]
    split_ifs
    · have h1 : FreeInv g soft k (eraseBlock g e b d).1 := { hf with }
      have h2 := h1.modBlock hb (f := fun bi => { bi with blockState := .empty }) rfl
      refine FreeInv.cast (h2.count g.chunksPerBlock rfl rfl rfl) ?_
      simp [freeWeight, eraseBlock, hs, hpages, hsoft]
    · have h1 : FreeInv g soft k (driverMarkBad e b (eraseBlock g e b d).1).1 := { hf with }
      refine (h1.modBlock hb (f := fun bi => { bi with blockState := .dead }) rfl).cast ?_
      simp [freeWeight, eraseBlock, driverMarkBad, hs]
  · simpa only [checkptEraseBlock, hs, if_false] using hf

theorem checkptEraseBlock_state (b b' : ℕ)
    (h : ((checkptEraseBlock g e d b).blockInfo b').blockState = .checkpoint) :
    (d.blockInfo b').blockState = .checkpoint ∧ b' ≠ b := by
  by_cases hs : (d.blockInfo b).blockState = .checkpoint
  · simp only [checkptEraseBlock, hs, if_true] at h
    split_ifs at h <;>
      simp only [eraseBlock, driverMarkBad, BlockDev.setState, BlockDev.modBlock,
        Function.update_apply] at h <;> grind
  · simp only [checkptEraseBlock, hs, if_false] at h
    exact ⟨h, fun hb => hs (hb ▸ h)⟩

/-- What the loop of `yaffs_checkpt_erase` keeps, over the blocks still to be visited. -/
theorem foldl_checkptEraseBlock {l : List ℕ} (hl : ∀ b ∈ l, b ∈ g.blocks) (h : BlkInv g T d) :
    BlkInv g T (l.foldl (checkptEraseBlock g e) d) ∧
    (∀ soft k, FreeInv g soft k d → FreeInv g soft k (l.foldl (checkptEraseBlock g e) d)) ∧
    Quiet g (isCheckpt d) d (l.foldl (checkptEraseBlock g e) d) ∧
    ∀ b, ((l.foldl (checkptEraseBlock g e) d).blockInfo b).blockState = .checkpoint →
      (d.blockInfo b).blockState = .checkpoint ∧ b ∉ l := by
  induction l generalizing d with
  | nil => exact ⟨h, fun _ _ hf => hf, Quiet.refl _ _, fun b hb => ⟨hb, by simp⟩⟩
  | cons a l ih =>
    have ha := hl a (by simp)
    obtain ⟨hblk, hfree, hquiet, hstate⟩ :=
      ih (d := checkptEraseBlock g e d a) (fun b hb => hl b (by simp [hb])) (checkptEraseBlock_blk h ha)
    refine ⟨hblk, fun soft k hf => hfree soft k (checkptEraseBlock_free h hf ha), ?_, ?_⟩
    · refine (checkptEraseBlock_quiet a).trans (hquiet.mono fun b hb => ?_)
      exact (checkptEraseBlock_state a b hb).1
    · intro b hb
      obtain ⟨hb1, hb2⟩ := hstate b hb
      obtain ⟨hb3, hb4⟩ := checkptEraseBlock_state a b hb1
      exact ⟨hb3, by simp [hb4, hb2]⟩

theorem checkptErase_blk (h : BlkInv g T d) : BlkInv g T (checkptErase g e d) :=
  { (foldl_checkptEraseBlock (e := e) (fun _ hb => hb) h).1 with }

theorem checkptErase_free (h : BlkInv g T d) (hf : FreeInv g soft k d) :
    FreeInv g soft k (checkptErase g e d) :=
  { (foldl_checkptEraseBlock (e := e) (fun _ hb => hb) h).2.1 soft k hf with }

theorem checkptErase_quiet (h : BlkInv g T d) : Quiet g (isCheckpt d) d (checkptErase g e d) :=
  { (foldl_checkptEraseBlock (e := e) (fun _ hb => hb) h).2.2.1 with }

theorem checkptErase_noCheckpt (h : BlkInv g T d) : NoCheckpt g (checkptErase g e d) where
  count := rfl
  state := fun b hb hs => ((foldl_checkptEraseBlock (e := e) (fun _ hb => hb) h).2.2.2 b hs).2 hb

theorem checkptInvalidate_blk (h : BlkInv g T d) : BlkInv g T (checkptInvalidate g e d) := by
  unfold checkptInvalidate
  split_ifs
  · exact checkptErase_blk { h with }
  · exact h

theorem checkptInvalidate_free (h : BlkInv g T d) (hf : FreeInv g soft k d) :
    FreeInv g soft k (checkptInvalidate g e d) := by
  unfold checkptInvalidate
  split_ifs
  · exact checkptErase_free (T := T) { h with } { hf with }
  · exact hf

theorem checkptInvalidate_quiet (h : BlkInv g T d) :
    Quiet g (isCheckpt d) d (checkptInvalidate g e d) := by
  unfold checkptInvalidate
  split_ifs
  · have := checkptErase_quiet (e := e) (d := { d with isCheckpointed := false }) (T := T) { h with }
    exact { this with }
  · exact Quiet.refl _ _

theorem checkptInvalidate_noCheckpt (h : BlkInv g T d) (hc : CheckptInv g d) :
    NoCheckpt g (checkptInvalidate g e d) := by
  unfold checkptInvalidate
  split_ifs with h0
  · exact checkptErase_noCheckpt (T := T) { h with }
  · exact hc.noCheckpt (by omega)

/-- The blocks that erasing `b` may change : the checkpoint goes first. -/
def checkptOr (d : BlockDev) (b b' : ℕ) : Prop :=
  isCheckpt d b' ∨ b' = b

/-- No block becomes a checkpoint block. -/
theorem Quiet.checkptOr {d' : BlockDev} {b' : ℕ} (h : Quiet g (checkptOr d b) d d')
    (hb : checkptOr d' b b') : checkptOr d b b' := by
  rcases hb with hc | rfl
  · by_contra hn
    refine hn (Or.inl ?_)
    unfold isCheckpt at hc ⊢
    rwa [h.info b' hn] at hc
  · exact Or.inr rfl

/-! ## Retirement -/

/-- Marking a block only changes the flash of that block. -/
theorem markRetired_eq (g : Geometry) (e : Env) (b : ℕ) (d : BlockDev) :
    ∃ n : Nand, markRetired g e b d = { d with nand := n } ∧
      ∀ c, c / g.chunksPerBlock ≠ b → n.flash c = d.nand.flash c := by
  have hb : b * g.chunksPerBlock / g.chunksPerBlock = b := Nat.mul_div_cancel _ chunksPerBlock_pos
  simp only [markRetired, markBad]
  split_ifs <;> refine ⟨_, rfl, fun c hc => ?_⟩ <;>
    simp only [eraseBlock, driverMarkBad, Function.update_apply, if_neg hc]
  all_goals
    have : c ≠ b * g.chunksPerBlock := by
      rintro rfl
      exact hc hb
    simp [this]

theorem clearOldestDirtySeq_quiet (S : ℕ → Prop) : Quiet g S d (clearOldestDirtySeq g b d) := by
  unfold clearOldestDirtySeq
  split_ifs
  · exact { Quiet.refl S d with }
  · exact Quiet.refl S d

theorem clearOldestDirtySeq_free (hf : FreeInv g soft k d) :
    FreeInv g soft k (clearOldestDirtySeq g b d) := by
  unfold clearOldestDirtySeq
  split_ifs
  · exact { hf with }
  · exact hf

theorem clearOldestDirtySeq_blockInfo : (clearOldestDirtySeq g b d).blockInfo = d.blockInfo := by
  unfold clearOldestDirtySeq
  split_ifs <;> rfl

section Retire

variable (h : BlkInv g T d) (hb : b ∈ g.blocks) (hs : (d.blockInfo b).blockState = .dirty)
include h hb hs

theorem retireBlock_blk : BlkInv g T (retireBlock g e b d) := by
  obtain ⟨n, hn, hflash⟩ :=
    markRetired_eq g e b (clearOldestDirtySeq g b (checkptInvalidate g e d))
  have h1 := (checkptInvalidate_blk (e := e) h).clearOldestDirtySeq (b := b)
  have hs1 : ((clearOldestDirtySeq g b (checkptInvalidate g e d)).blockInfo b).blockState = .dirty := by
    rw [clearOldestDirtySeq_blockInfo, (checkptInvalidate_quiet h).info b (by simp [isCheckpt, hs]), hs]
  have hno := h1.noBits (b := b) (by simp [hs1, BlockState.inService])
  unfold retireBlock
  rw [hn]
  refine (h1.nand n fun c hc => hflash c fun hcb => ?_).setDead hb (Or.inr hs1) fun bi => ⟨rfl, rfl, rfl⟩
  simp [hno c hcb] at hc

theorem retireBlock_free (hf : FreeInv g soft k d) : FreeInv g soft k (retireBlock g e b d) := by
  obtain ⟨n, hn, -⟩ := markRetired_eq g e b (clearOldestDirtySeq g b (checkptInvalidate g e d))
  have hf1 := clearOldestDirtySeq_free (b := b) (checkptInvalidate_free (e := e) h hf)
  have hf2 : FreeInv g soft k
      { clearOldestDirtySeq g b (checkptInvalidate g e d) with nand := n } := { hf1 with }
  have hs1 : ((clearOldestDirtySeq g b (checkptInvalidate g e d)).blockInfo b).blockState = .dirty := by
    rw [clearOldestDirtySeq_blockInfo, (checkptInvalidate_quiet h).info b (by simp [isCheckpt, hs]), hs]
  unfold retireBlock
  rw [hn]
  refine FreeInv.cast (hf2.modBlock hb rfl) ?_
  simp [freeWeight, hs1]

omit hb hs in
theorem retireBlock_quiet : Quiet g (checkptOr d b) d (retireBlock g e b d) := by
  obtain ⟨n, hn, hflash⟩ :=
    markRetired_eq g e b (clearOldestDirtySeq g b (checkptInvalidate g e d))
  have h1 := (checkptInvalidate_quiet (e := e) h).mono (R := checkptOr d b) fun _ => Or.inl
  have h2 := h1.trans (clearOldestDirtySeq_quiet (b := b) _)
  unfold retireBlock
  rw [hn]
  exact { h2 with
    info := fun b' hb' => by
      have hne : b' ≠ b := fun h0 => hb' (Or.inr h0)
      simpa [BlockDev.modBlock, hne] using h2.info b' hb'
    flash := fun c hc => by
      have hne : c / g.chunksPerBlock ≠ b := fun h0 => hc (Or.inr h0)
      exact (hflash c hne).trans (h2.flash c hc) }

omit hb hs in
theorem retireBlock_noCheckpt (hc : CheckptInv g d) : NoCheckpt g (retireBlock g e b d) := by
  obtain ⟨n, hn, -⟩ := markRetired_eq g e b (clearOldestDirtySeq g b (checkptInvalidate g e d))
  have h1 := checkptInvalidate_noCheckpt (e := e) h hc
  unfold retireBlock
  rw [hn]
  constructor
  · have : (clearOldestDirtySeq g b (checkptInvalidate g e d)).blocksInCheckpt =
        (checkptInvalidate g e d).blocksInCheckpt := by
      unfold clearOldestDirtySeq
      split_ifs <;> rfl
    exact this.trans h1.count
  · intro b' hb'
    by_cases hne : b' = b
    · simp [BlockDev.modBlock, hne]
    · simpa [BlockDev.modBlock, hne, clearOldestDirtySeq_blockInfo] using h1.state b' hb'

omit hb hs h in
theorem retireBlock_state : ((retireBlock g e b d).blockInfo b).blockState = .dead := by
  simp [retireBlock, BlockDev.modBlock]

end Retire

/-! ## Erasure of a dirty block -/

/-- The transit states while `b` is dirty. -/
def orDirty (T : ℕ → BlockState → Prop) (b b' : ℕ) (s : BlockState) : Prop :=
  T b' s ∨ b' = b ∧ s = .dirty

/-- A block whose state needs no leave of `T` is settled. -/
theorem BlkInv.settle {T' : ℕ → BlockState → Prop} (h : BlkInv g T' d)
    (hT : ∀ b ∈ g.blocks, T' b (d.blockInfo b).blockState →
      (d.blockInfo b).blockState.settled = true ∨ T b (d.blockInfo b).blockState) :
    BlkInv g T d :=
  { h with states := fun b hb => (h.states b hb).elim Or.inl (hT b hb) }

theorem GcCursor.drop_ne (gc : GcCursor) (hb : b ≠ 0) :
    (gc.drop b).block ≠ b ∧ (gc.drop b).dirtiest ≠ b := by
  simp only [GcCursor.drop]
  grind

theorem GcCursor.drop_fixed (b : ℕ) (gc : GcCursor) :
    (gc.drop b).chunk = gc.chunk ∧ (gc.drop b).disable = gc.disable := by
  simp only [GcCursor.drop]
  split_ifs <;> simp

theorem becomeDirty_quiet : Quiet g (checkptOr d b) d (becomeDirty g b d) := by
  have h1 := clearOldestDirtySeq_quiet (g := g) (d := d) (b := b) (checkptOr d b)
  have hgc := GcCursor.drop_fixed b (clearOldestDirtySeq g b d).gc
  exact { h1 with
    gcChunk := hgc.1.trans h1.gcChunk
    gcDisable := hgc.2.trans h1.gcDisable
    info := fun b' hb' => by
      have hne : b' ≠ b := fun h0 => hb' (Or.inr h0)
      simpa [becomeDirty, BlockDev.setState, BlockDev.modBlock, hne] using h1.info b' hb' }

theorem becomeDirty_state : ((becomeDirty g b d).blockInfo b).blockState = .dirty := by
  simp [becomeDirty, BlockDev.setState, BlockDev.modBlock]

theorem becomeDirty_blk (h : BlkInv g T d) (hb : b ∈ g.blocks)
    (hs : (d.blockInfo b).blockState.collectable = true) (hno : NoBits g b d.chunkBits) :
    BlkInv g (orDirty T b) (becomeDirty g b d) := by
  have hpos := (pos_of_mem_blocks hb).ne'
  have h1 := (h.clearOldestDirtySeq (b := b)).mono (R := orDirty T b) fun _ _ => Or.inl
  have hbits := (clearOldestDirtySeq_quiet (g := g) (d := d) (b := b) fun _ => False).bits
  have hne := GcCursor.drop_ne (clearOldestDirtySeq g b d).gc hpos
  refine (h1.dropGc (b := b)).setDirty hb ?_ (hbits ▸ hno) (Or.inr ⟨rfl, rfl⟩) hne.1 hne.2
    (h.oldestDirtyBlock_clear hpos)
  simpa [clearOldestDirtySeq_blockInfo] using hs

/-- The chunks of a dirty block are not counted as free. -/
theorem becomeDirty_free (h : BlkInv g T d) (hf : FreeInv g soft k d) (hb : b ∈ g.blocks)
    (hs : (d.blockInfo b).blockState.collectable = true) (hno : NoBits g b d.chunkBits) :
    FreeInv g soft (k + g.chunksPerBlock) (becomeDirty g b d) := by
  have hpages : (d.blockInfo b).pagesInUse = 0 := by
    rw [h.pages b hb, countChunkBits_eq_zero.mpr hno]
  have hsoft := hf.softDelPages_eq_zero hb hno
  have hw : freeWeight g (d.blockInfo b) = g.chunksPerBlock := by
    revert hs
    unfold freeWeight
    cases (d.blockInfo b).blockState <;> simp [BlockState.collectable, hpages, hsoft]
  have h1 := clearOldestDirtySeq_free (b := b) hf
  have h2 := h1.modBlock hb (f := fun bi => { bi with blockState := .dirty }) rfl
  refine FreeInv.cast (k := _) { h2 with } ?_
  rw [clearOldestDirtySeq_blockInfo, hw]
  simp [freeWeight]

theorem becomeDirty_checkpt (hc : CheckptInv g d) (hb : b ∈ g.blocks)
    (hs : (d.blockInfo b).blockState.collectable = true) : CheckptInv g (becomeDirty g b d) := by
  have hcount : (clearOldestDirtySeq g b d).blocksInCheckpt = d.blocksInCheckpt := by
    unfold clearOldestDirtySeq
    split_ifs <;> rfl
  have hw : stateWeight .checkpoint (d.blockInfo b) = 0 := by
    revert hs
    unfold stateWeight
    cases (d.blockInfo b).blockState <;> simp [BlockState.collectable]
  unfold CheckptInv
  simp only [becomeDirty, BlockDev.setState, BlockDev.modBlock, clearOldestDirtySeq_blockInfo, hcount]
  rw [countState_update hb, hw, ← hc]
  simp [stateWeight]

section Dirty

variable (h : BlkInv g T d) (hs : (d.blockInfo b).blockState = .dirty)
include h hs

theorem eraseUnlessRetiring_blk : BlkInv g T (eraseUnlessRetiring g e b d).1 := by
  unfold eraseUnlessRetiring
  split_ifs
  · exact h
  · have h1 := checkptInvalidate_blk (e := e) h
    refine h1.eraseUnused ?_
    rw [(checkptInvalidate_quiet h).bits]
    exact h.noBits (by simp [hs, BlockState.inService])

omit hs in
theorem eraseUnlessRetiring_free (hf : FreeInv g soft k d) :
    FreeInv g soft k (eraseUnlessRetiring g e b d).1 := by
  unfold eraseUnlessRetiring
  split_ifs
  · exact hf
  · exact { checkptInvalidate_free (e := e) h hf with }

omit hs in
theorem eraseUnlessRetiring_quiet :
    Quiet g (checkptOr d b) d (eraseUnlessRetiring g e b d).1 := by
  unfold eraseUnlessRetiring
  split_ifs
  · exact Quiet.refl _ _
  · have h1 := (checkptInvalidate_quiet (e := e) h).mono (R := checkptOr d b) fun _ => Or.inl
    exact { h1 with
      flash := fun c hc => by
        have hne : c / g.chunksPerBlock ≠ b := fun h0 => hc (Or.inr h0)
        simpa [eraseBlock, hne] using h1.flash c hc }

theorem eraseUnlessRetiring_state :
    ((eraseUnlessRetiring g e b d).1.blockInfo b).blockState = .dirty := by
  unfold eraseUnlessRetiring
  split_ifs
  · exact hs
  · have := (checkptInvalidate_quiet (e := e) h).info b (by simp [isCheckpt, hs])
    exact (congrArg BlockInfo.blockState this).trans hs

omit hs in
/-- Unless the block is to be retired, the checkpoint is gone. -/
theorem eraseUnlessRetiring_checkpt (hc : CheckptInv g d) :
    CheckptInv g (eraseUnlessRetiring g e b d).1 ∧
      ((eraseUnlessRetiring g e b d).2 = true → NoCheckpt g (eraseUnlessRetiring g e b d).1) := by
  unfold eraseUnlessRetiring
  split_ifs
  · exact ⟨hc, by simp⟩
  · have := checkptInvalidate_noCheckpt (e := e) h hc
    have h1 : NoCheckpt g (eraseBlock g e b (checkptInvalidate g e d)).1 := { this with }
    exact ⟨h1.checkptInv, fun _ => h1⟩

end Dirty

theorem cleanBlock_free (h : BlkInv g T d) (hf : FreeInv g soft k d) (hb : b ∈ g.blocks)
    (hs : (d.blockInfo b).blockState = .dirty) :
    FreeInv g soft (k - g.chunksPerBlock) (cleanBlock g b d) := by
  have hno := h.noBits (b := b) (by simp [hs, BlockState.inService])
  have hsoft := hf.softDelPages_eq_zero hb hno
  have h1 := hf.modBlock hb (f := fun bi => { bi with
      blockState := .empty, seqNumber := 0, pagesInUse := 0, softDelPages := 0
      hasShrinkHdr := false, skipErasedCheck := true, gcPrioritise := false
      hasSummary := false }) (by simp [hsoft])
  refine FreeInv.cast (k := _) { h1 with soft_bit := fun c hc => ?_ } ?_
  · have hbit := h1.soft_bit c hc
    have hne : c / g.chunksPerBlock ≠ b := fun h0 => by simp [BlockDev.modBlock, hno c h0] at hbit
    simpa [cleanBlock, clearChunkBits, hne] using hbit
  · simp [freeWeight, hs]

theorem cleanBlock_quiet (hno : NoBits g b d.chunkBits) :
    Quiet g (· = b) d (cleanBlock g b d) := by
  have hbits : (cleanBlock g b d).chunkBits = d.chunkBits := by
    funext c
    by_cases hc : c / g.chunksPerBlock = b <;>
      simp [cleanBlock, clearChunkBits, BlockDev.modBlock, hc, hno c]
  exact { Quiet.refl (g := g) (· = b) d with
    bits := hbits
    info := fun b' hb' => by simp [cleanBlock, clearChunkBits, BlockDev.modBlock, hb'] }

/-- What `yaffs_block_became_dirty` does : the block ends empty or dead, and the accounts
are kept. -/
structure ErasedBlock (g : Geometry) (T : ℕ → BlockState → Prop) (b : ℕ) (d d' : BlockDev) :
    Prop where
  blk : BlkInv g T d'
  free : ∀ soft k, FreeInv g soft k d → FreeInv g soft k d'
  noCheckpt : CheckptInv g d → NoCheckpt g d'
  quiet : Quiet g (checkptOr d b) d d'
  state : (d'.blockInfo b).blockState = .empty ∨ (d'.blockInfo b).blockState = .dead

theorem blockBecameDirty_spec (h : BlkInv g T d) (hb : b ∈ g.blocks)
    (hs : (d.blockInfo b).blockState.collectable = true) (hno : NoBits g b d.chunkBits) :
    ErasedBlock g T b d (blockBecameDirty g e b d) := by
  have h1 := becomeDirty_blk h hb hs hno
  have hs1 := becomeDirty_state (g := g) (b := b) (d := d)
  have hq1 := becomeDirty_quiet (g := g) (b := b) (d := d)
  have h2 := eraseUnlessRetiring_blk (e := e) h1 hs1
  have hs2 := eraseUnlessRetiring_state (e := e) h1 hs1
  have hq2 := hq1.trans ((eraseUnlessRetiring_quiet (e := e) (b := b) h1).mono fun _ => hq1.checkptOr)
  have hno2 : NoBits g b (eraseUnlessRetiring g e b (becomeDirty g b d)).1.chunkBits := by
    rw [hq2.bits]
    exact hno
  have hf2 : ∀ soft k, FreeInv g soft k d →
      FreeInv g soft (k + g.chunksPerBlock) (eraseUnlessRetiring g e b (becomeDirty g b d)).1 :=
    fun soft k hf => eraseUnlessRetiring_free h1 (becomeDirty_free h hf hb hs hno)
  have hc2 : CheckptInv g d → _ := fun hc =>
    eraseUnlessRetiring_checkpt (e := e) (b := b) h1 (becomeDirty_checkpt hc hb hs)
  -- the block is dirty no longer, so `T` is all the leave that is left
  have settle : ∀ {d'}, BlkInv g (orDirty T b) d' → (d'.blockInfo b).blockState ≠ .dirty →
      BlkInv g T d' := fun hd hne => hd.settle fun b' _ hT => by
    rcases hT with hT | ⟨rfl, hT⟩
    · exact Or.inr hT
    · exact absurd hT hne
  unfold blockBecameDirty
  simp only
  split_ifs with hr
  · have hstate : ((cleanBlock g b (eraseUnlessRetiring g e b (becomeDirty g b d)).1).blockInfo
        b).blockState = .empty := by
      simp [cleanBlock, clearChunkBits, BlockDev.modBlock]
    exact {
      blk := settle (h2.cleanBlock hb hs2) (by simp [hstate])
      free := fun soft k hf => (cleanBlock_free h2 (hf2 soft k hf) hb hs2).cast (by omega)
      noCheckpt := fun hc => by
        have := (hc2 hc).2 hr
        refine ⟨this.count, fun b' hb' => ?_⟩
        by_cases hne : b' = b
        · simp [cleanBlock, clearChunkBits, BlockDev.modBlock, hne]
        · simpa [cleanBlock, clearChunkBits, BlockDev.modBlock, hne] using this.state b' hb'
      quiet := hq2.trans ((cleanBlock_quiet hno2).mono fun _ => Or.inr)
      state := Or.inl hstate }
  · generalize (eraseUnlessRetiring g e b (becomeDirty g b d)).1 = d2 at *
    have h3 : BlkInv g (orDirty T b) { d2 with nFreeChunks := d2.nFreeChunks - g.chunksPerBlock } :=
      { h2 with }
    have hq3 : Quiet g (checkptOr d b) d
        { d2 with nFreeChunks := d2.nFreeChunks - g.chunksPerBlock } := { hq2 with }
    have hstate := retireBlock_state (g := g) (e := e) (b := b)
      (d := { d2 with nFreeChunks := d2.nFreeChunks - g.chunksPerBlock })
    exact {
      blk := settle (retireBlock_blk h3 hb hs2) (by simp [hstate])
      free := fun soft k hf => retireBlock_free h3 hb hs2
        (FreeInv.cast ((hf2 soft k hf).count (-g.chunksPerBlock) rfl rfl rfl) (by omega))
      noCheckpt := fun hc => retireBlock_noCheckpt h3 (hc2 hc).1
      quiet := hq3.trans ((retireBlock_quiet h3).mono fun _ => hq3.checkptOr)
      state := Or.inr hstate }

/-! ## Chunk deletion -/

theorem updateOldestDirtySeq_blockInfo : (updateOldestDirtySeq g b d).blockInfo = d.blockInfo := by
  unfold updateOldestDirtySeq
  split_ifs <;> rfl

theorem updateOldestDirtySeq_quiet (S : ℕ → Prop) : Quiet g S d (updateOldestDirtySeq g b d) := by
  unfold updateOldestDirtySeq
  split_ifs
  · exact { Quiet.refl S d with }
  · exact Quiet.refl S d

theorem updateOldestDirtySeq_free (hf : FreeInv g soft k d) :
    FreeInv g soft k (updateOldestDirtySeq g b d) := by
  unfold updateOldestDirtySeq
  split_ifs
  · exact { hf with }
  · exact hf

theorem updateOldestDirtySeq_checkpt (hc : CheckptInv g d) :
    CheckptInv g (updateOldestDirtySeq g b d) := by
  unfold updateOldestDirtySeq
  split_ifs <;> exact hc

theorem BlkInv.updateOldest_of_bit (h : BlkInv g T d) (hc : d.chunkBits c = true) :
    BlkInv g T (Yaffs.updateOldestDirtySeq g (c / g.chunksPerBlock) d) :=
  h.updateOldestDirtySeq (fun _ => h.bit_mem c hc) fun _ => h.bit_state c hc

theorem markIfNeeded_eq (g : Geometry) (e : Env) (c : ℕ) (m : Bool) (d : BlockDev) :
    ∃ n : Nand, markIfNeeded g e c m d = { d with nand := n } ∧
      (∀ c', c' ≠ c → n.flash c' = d.nand.flash c') ∧
      (g.isYaffs2 = true → n.flash c = d.nand.flash c) := by
  unfold markIfNeeded
  split_ifs with hm
  · refine ⟨_, rfl, fun c' hc' => by simp [hc'], fun hy => by simp [hy] at hm⟩
  · exact ⟨d.nand, rfl, fun _ _ => rfl, fun _ => rfl⟩

/-- What `yaffs_chunk_del` does to the device when chunk `c` is in use. -/
structure DeletedChunk (g : Geometry) (T : ℕ → BlockState → Prop) (c : ℕ) (d d' : BlockDev) :
    Prop where
  blk : BlkInv g T d'
  free : ∀ soft k, soft c = false → FreeInv g soft k d → FreeInv g soft k d'
  checkptInv : CheckptInv g d → CheckptInv g d'
  quiet : Quiet g (checkptOr d (c / g.chunksPerBlock)) (d.clearChunkBit c) d'
  live : d'.live = Function.update d.live c none
  block : d'.blockInfo (c / g.chunksPerBlock) =
      { d.blockInfo (c / g.chunksPerBlock) with
        pagesInUse := (d.blockInfo (c / g.chunksPerBlock)).pagesInUse - 1 } ∨
    (d.blockInfo (c / g.chunksPerBlock)).blockState.collectable = true ∧
      ((d'.blockInfo (c / g.chunksPerBlock)).blockState = .empty ∨
        (d'.blockInfo (c / g.chunksPerBlock)).blockState = .dead)

theorem inService_holdsChunks {s : BlockState} (h : s.inService = true) : s.holdsChunks = true := by
  cases s <;> simp_all [BlockState.inService, BlockState.holdsChunks]

theorem releaseChunk_free (h : BlkInv g T d) (hf : FreeInv g soft k d) (hc : d.chunkBits c = true)
    (hsoft : soft c = false) : FreeInv g soft k (releaseChunk (c / g.chunksPerBlock) c d) := by
  have hmem := h.bit_mem c hc
  have hw : freeWeight g { d.blockInfo (c / g.chunksPerBlock) with
      pagesInUse := (d.blockInfo (c / g.chunksPerBlock)).pagesInUse - 1 } =
      freeWeight g (d.blockInfo (c / g.chunksPerBlock)) + 1 := by
    have := h.bit_state c hc
    revert this
    unfold freeWeight
    cases (d.blockInfo (c / g.chunksPerBlock)).blockState <;> simp [BlockState.inService] <;> omega
  have h1 := hf.setBit (c := c) false (by simp [hsoft])
  have h2 := h1.modBlock hmem (f := fun bi => { bi with pagesInUse := bi.pagesInUse - 1 }) rfl
  refine FreeInv.cast (h2.count 1 rfl rfl rfl) ?_
  simp only at hw ⊢
  omega

theorem releaseChunk_checkpt (h : BlkInv g T d) (hck : CheckptInv g d) (hc : d.chunkBits c = true) :
    CheckptInv g (releaseChunk (c / g.chunksPerBlock) c d) := by
  have hmem := h.bit_mem c hc
  unfold CheckptInv
  simp only [releaseChunk, BlockDev.clearChunkBit, BlockDev.modBlock]
  rw [countState_update hmem, ← hck]
  simp [stateWeight]

theorem releaseChunk_live : (releaseChunk b c d).live = Function.update d.live c none := by
  funext c'
  by_cases hne : c' = c <;>
    simp [BlockDev.live, releaseChunk, BlockDev.clearChunkBit, BlockDev.modBlock, hne]

/-- The first half of `yaffs_chunk_del` : the page is marked and released. -/
theorem markAndRelease_spec (h : BlkInv g T d) (hc : d.chunkBits c = true) (m : Bool) :
    DeletedChunk g T c d (releaseChunk (c / g.chunksPerBlock) c
      (markIfNeeded g e c m (updateOldestDirtySeq g (c / g.chunksPerBlock) d))) ∧
    (releaseChunk (c / g.chunksPerBlock) c (markIfNeeded g e c m
      (updateOldestDirtySeq g (c / g.chunksPerBlock) d))).blockInfo (c / g.chunksPerBlock) =
        { d.blockInfo (c / g.chunksPerBlock) with
          pagesInUse := (d.blockInfo (c / g.chunksPerBlock)).pagesInUse - 1 } := by
  obtain ⟨n, hn, hflash, -⟩ :=
    markIfNeeded_eq g e c m (updateOldestDirtySeq g (c / g.chunksPerBlock) d)
  have hq := updateOldestDirtySeq_quiet (g := g) (d := d) (b := c / g.chunksPerBlock)
    (checkptOr d (c / g.chunksPerBlock))
  have hinfo := updateOldestDirtySeq_blockInfo (g := g) (d := d) (b := c / g.chunksPerBlock)
  have h1 := h.updateOldest_of_bit hc
  have hc1 : (updateOldestDirtySeq g (c / g.chunksPerBlock) d).chunkBits c = true := by
    rw [hq.bits]
    exact hc
  rw [hn]
  have hblock : (releaseChunk (c / g.chunksPerBlock) c
      { updateOldestDirtySeq g (c / g.chunksPerBlock) d with nand := n }).blockInfo
        (c / g.chunksPerBlock) = { d.blockInfo (c / g.chunksPerBlock) with
          pagesInUse := (d.blockInfo (c / g.chunksPerBlock)).pagesInUse - 1 } := by
    simp [releaseChunk, BlockDev.clearChunkBit, BlockDev.modBlock, hinfo]
  refine ⟨?_, hblock⟩
  exact {
    blk := (h1.releaseChunk rfl hc1).nand n fun c' hc' => by
      refine hflash c' ?_
      rintro rfl
      simp [releaseChunk, BlockDev.clearChunkBit, BlockDev.modBlock] at hc'
    free := fun soft k hsoft hf =>
      { releaseChunk_free h1 (updateOldestDirtySeq_free hf) hc1 hsoft with }
    checkptInv := fun hck => by
      have := releaseChunk_checkpt h1 (updateOldestDirtySeq_checkpt hck) hc1
      exact this
    quiet := { hq with
      bits := by simp [releaseChunk, BlockDev.clearChunkBit, BlockDev.modBlock, hq.bits]
      info := fun b' hb' => by
        have hne : b' ≠ c / g.chunksPerBlock := fun h0 => hb' (Or.inr h0)
        simp [releaseChunk, BlockDev.clearChunkBit, BlockDev.modBlock, hinfo, hne]
      flash := fun c' hc' => by
        have hne : c' ≠ c := by
          rintro rfl
          exact hc' (Or.inr rfl)
        exact (hflash c' hne).trans (hq.flash c' hc') }
    live := by
      rw [releaseChunk_live]
      funext c'
      by_cases hne : c' = c
      · simp [hne]
      · simp only [Function.update_of_ne hne, BlockDev.live]
        rw [hq.bits, hflash c' hne]
        unfold updateOldestDirtySeq
        split_ifs <;> rfl
    block := Or.inl hblock }

theorem chunkDel_spec (h : BlkInv g T d) (hc : d.chunkBits c = true) (m : Bool) :
    DeletedChunk g T c d (chunkDel g e c m d) := by
  have hmem := h.bit_mem c hc
  have hpos : c ≠ 0 := by
    rintro rfl
    rw [Nat.zero_div] at hmem
    exact absurd (pos_of_mem_blocks hmem) (lt_irrefl 0)
  obtain ⟨hspec, hblock⟩ := markAndRelease_spec (e := e) h hc m
  have hholds : ((markIfNeeded g e c m (updateOldestDirtySeq g (c / g.chunksPerBlock) d)).blockInfo
      (c / g.chunksPerBlock)).blockState.holdsChunks = true := by
    obtain ⟨n, hn, -⟩ := markIfNeeded_eq g e c m (updateOldestDirtySeq g (c / g.chunksPerBlock) d)
    rw [hn]
    simp only [updateOldestDirtySeq_blockInfo]
    exact inService_holdsChunks (h.bit_state c hc)
  unfold chunkDel
  simp only [if_neg hpos, hholds, if_true]
  generalize releaseChunk (c / g.chunksPerBlock) c
    (markIfNeeded g e c m (updateOldestDirtySeq g (c / g.chunksPerBlock) d)) = d' at hspec hblock ⊢
  split_ifs with hdirty
  · -- the last page in use is gone, so the block goes too
    have hs : (d'.blockInfo (c / g.chunksPerBlock)).blockState.collectable = true ∧
        (d'.blockInfo (c / g.chunksPerBlock)).pagesInUse = 0 := by
      have hin := h.bit_state c hc
      revert hdirty
      simp only [BlockInfo.becameDirty, hblock]
      revert hin
      cases (d.blockInfo (c / g.chunksPerBlock)).blockState <;>
        simp_all [BlockState.inService, BlockState.collectable]
    have hno : NoBits g (c / g.chunksPerBlock) d'.chunkBits := by
      rw [← countChunkBits_eq_zero, ← hspec.blk.pages _ hmem, hs.2]
    have herase := blockBecameDirty_spec (e := e) hspec.blk hmem hs.1 hno
    have hquiet : Quiet g (checkptOr d (c / g.chunksPerBlock)) (d.clearChunkBit c) d' := hspec.quiet
    exact {
      blk := herase.blk
      free := fun soft k hsoft hf => herase.free soft k (hspec.free soft k hsoft hf)
      checkptInv := fun hck => (herase.noCheckpt (hspec.checkptInv hck)).checkptInv
      quiet := hquiet.trans (herase.quiet.mono fun _ hb => Quiet.checkptOr (d := d.clearChunkBit c) hquiet hb)
      live := by
        rw [herase.quiet.live, hspec.live]
        rintro c' (hck | hcb)
        · exact hspec.blk.noBits (by
            unfold isCheckpt at hck
            simp [hck, BlockState.inService]) c' rfl
        · exact hno c' hcb
      block := Or.inr ⟨by simpa [hblock] using hs.1, herase.state⟩ }
  · exact hspec

end Yaffs
