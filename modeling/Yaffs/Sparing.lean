import Yaffs.Collector

/-!
# What writes and deletions spare

A write touches the blocks it allocates from, a deletion the block of its chunk. In the
other blocks no chunk goes out of use, and gc stays at its block. With the counts of the
block table it follows that a write leaves the block gc is at as it is.
-/

namespace Yaffs

open Tally

variable {g : Geometry} {e : Env} {T : ℕ → BlockState → Prop} {S : ℕ → Prop} {d d' d'' : BlockDev}
  {b c : ℕ}

/-! ## The block gc is at -/

theorem checkptErase_gc (l : List ℕ) : ∀ d : BlockDev, (l.foldl (checkptEraseBlock g e) d).gc = d.gc := by
  induction l with
  | nil => exact fun _ => rfl
  | cons b l ih =>
    intro d
    rw [List.foldl_cons, ih]
    unfold checkptEraseBlock
    dsimp only
    split_ifs <;> rfl

@[simp] theorem checkptInvalidate_gc (d : BlockDev) : (checkptInvalidate g e d).gc = d.gc := by
  unfold checkptInvalidate checkptErase
  split_ifs
  · exact checkptErase_gc _ _
  · rfl

@[simp] theorem clearOldestDirtySeq_gc (d : BlockDev) : (clearOldestDirtySeq g b d).gc = d.gc := by
  unfold clearOldestDirtySeq
  split_ifs <;> rfl

@[simp] theorem updateOldestDirtySeq_gc (d : BlockDev) : (updateOldestDirtySeq g b d).gc = d.gc := by
  unfold updateOldestDirtySeq
  split_ifs <;> rfl

theorem eraseUnlessRetiring_gc (d : BlockDev) : (eraseUnlessRetiring g e b d).1.gc = d.gc := by
  unfold eraseUnlessRetiring
  split_ifs
  · rfl
  · exact checkptInvalidate_gc d

theorem retireBlock_gc (d : BlockDev) : (retireBlock g e b d).gc = d.gc := by
  obtain ⟨n, hn, -⟩ := markRetired_eq g e b (clearOldestDirtySeq g b (checkptInvalidate g e d))
  unfold retireBlock
  rw [hn]
  simp [BlockDev.modBlock]

/-- A block that became dirty is no block for gc. -/
theorem blockBecameDirty_gc (d : BlockDev) : (blockBecameDirty g e b d).gc = d.gc.drop b := by
  have hdirty : (becomeDirty g b d).gc = d.gc.drop b := by
    simp [becomeDirty, BlockDev.setState, BlockDev.modBlock]
  unfold blockBecameDirty
  dsimp only
  split_ifs
  · exact (eraseUnlessRetiring_gc _).trans hdirty
  · exact (retireBlock_gc _).trans ((eraseUnlessRetiring_gc _).trans hdirty)

theorem GcCursor.drop_block (gc : GcCursor) (b : ℕ) :
    (gc.drop b).block = if b = gc.block then 0 else gc.block := by
  unfold GcCursor.drop
  dsimp only
  split_ifs <;> rfl

/-- The state before `yaffs_chunk_del` looks whether the block became dirty. -/
def releasedChunk (g : Geometry) (e : Env) (c : ℕ) (m : Bool) (d : BlockDev) : BlockDev :=
  releaseChunk (c / g.chunksPerBlock) c
    (markIfNeeded g e c m (updateOldestDirtySeq g (c / g.chunksPerBlock) d))

@[simp] theorem releasedChunk_gc (m : Bool) (d : BlockDev) : (releasedChunk g e c m d).gc = d.gc := by
  obtain ⟨n, hn, -⟩ := markIfNeeded_eq g e c m (updateOldestDirtySeq g (c / g.chunksPerBlock) d)
  unfold releasedChunk
  rw [hn]
  exact updateOldestDirtySeq_gc d

/-- `yaffs_chunk_del` of a chunk in use. -/
theorem chunkDel_eq (h : BlkInv g T d) (hc : d.chunkBits c = true) (m : Bool) : chunkDel g e c m d =
    if ((releasedChunk g e c m d).blockInfo (c / g.chunksPerBlock)).becameDirty then
      blockBecameDirty g e (c / g.chunksPerBlock) (releasedChunk g e c m d)
    else releasedChunk g e c m d := by
  have hpos : c ≠ 0 := by
    rintro rfl
    have hmem := h.bit_mem 0 hc
    rw [Nat.zero_div] at hmem
    exact absurd (pos_of_mem_blocks hmem) (lt_irrefl 0)
  have hholds : ((markIfNeeded g e c m (updateOldestDirtySeq g (c / g.chunksPerBlock) d)).blockInfo
      (c / g.chunksPerBlock)).blockState.holdsChunks = true := by
    obtain ⟨n, hn, -⟩ := markIfNeeded_eq g e c m (updateOldestDirtySeq g (c / g.chunksPerBlock) d)
    rw [hn]
    simp only [updateOldestDirtySeq_blockInfo]
    exact inService_holdsChunks (h.bit_state c hc)
  unfold chunkDel
  simp only [if_neg hpos, hholds, if_true]
  rfl

/-- gc stays at its block, unless that is the one the deletion has dirtied. -/
theorem chunkDel_gcBlock (h : BlkInv g T d) (hc : d.chunkBits c = true) (m : Bool) :
    (chunkDel g e c m d).gc.block = d.gc.block ∨
      (chunkDel g e c m d).gc.block = 0 ∧ c / g.chunksPerBlock = d.gc.block := by
  rw [chunkDel_eq h hc]
  split_ifs
  · rw [blockBecameDirty_gc, releasedChunk_gc, GcCursor.drop_block]
    split_ifs with hb
    · exact Or.inr ⟨rfl, hb⟩
    · exact Or.inl rfl
  · exact Or.inl (by rw [releasedChunk_gc])

/-! ## Sparing -/

/-- Chunks in use outside `S` stay in use, and gc stays at its block unless that is in `S`. -/
structure Spares (g : Geometry) (S : ℕ → Prop) (d d' : BlockDev) : Prop where
  bits : ∀ c, ¬S (c / g.chunksPerBlock) → d.chunkBits c = true → d'.chunkBits c = true
  gcBlock : d'.gc.block = d.gc.block ∨ d'.gc.block = 0 ∧ S d.gc.block

namespace Spares

theorem refl (S : ℕ → Prop) (d : BlockDev) : Spares g S d d :=
  ⟨fun _ _ hc => hc, Or.inl rfl⟩

theorem trans (h : Spares g S d d') (h' : Spares g S d' d'') : Spares g S d d'' where
  bits c hc hbit := h'.bits c hc (h.bits c hc hbit)
  gcBlock := by
    rcases h.gcBlock with hb | ⟨hb, hS⟩
    · rw [← hb]
      exact h'.gcBlock
    · exact Or.inr ⟨h'.gcBlock.elim (fun h0 => h0.trans hb) And.left, hS⟩

/-- No chunk goes out of use. -/
theorem of_grows (hbits : ∀ c, d.chunkBits c = true → d'.chunkBits c = true)
    (hgc : d'.gc.block = d.gc.block) : Spares g S d d' :=
  ⟨fun c _ => hbits c, Or.inl hgc⟩

theorem of_eq (hbits : d'.chunkBits = d.chunkBits) (hgc : d'.gc.block = d.gc.block) : Spares g S d d' :=
  of_grows (fun c hc => by rwa [hbits]) hgc

end Spares

theorem checkptInvalidate_spares (h : BlkInv g T d) : Spares g S d (checkptInvalidate g e d) :=
  Spares.of_eq (checkptInvalidate_quiet h).bits (by rw [checkptInvalidate_gc])

theorem chunkDel_spares (h : BlkInv g T d) (hc : d.chunkBits c = true) (hS : S (c / g.chunksPerBlock))
    (m : Bool) : Spares g S d (chunkDel g e c m d) where
  bits c' hc' hbit := by
    rw [(chunkDel_spec (e := e) h hc m).quiet.bits]
    have hne : c' ≠ c := fun hcc => hc' (hcc ▸ hS)
    simpa [BlockDev.clearChunkBit, hne] using hbit
  gcBlock := by
    rcases chunkDel_gcBlock (e := e) h hc m with hb | ⟨hzero, hb⟩
    · exact Or.inl hb
    · exact Or.inr ⟨hzero, hb ▸ hS⟩

/-! ## Writing -/

theorem findAllocBlockLoop_spares (n : ℕ) (d : BlockDev) :
    Spares g S d (findAllocBlockLoop g n d).1 := by
  rcases findAllocBlockLoop_cases (g := g) n d with ⟨f, heq⟩ | ⟨f, b, -, -, heq⟩ <;> rw [heq] <;>
    exact Spares.of_eq rfl rfl

theorem ensureAllocBlock_spares (d : BlockDev) : Spares g S d (ensureAllocBlock g d) := by
  unfold ensureAllocBlock findAllocBlock
  split_ifs
  · exact Spares.of_eq rfl rfl
  · have hloop := findAllocBlockLoop_spares (g := g) (S := S) (g.endBlock + 1 - g.startBlock) d
    exact ⟨hloop.bits, hloop.gcBlock⟩
  · exact Spares.refl S d

theorem takePage_spares (b : ℕ) (d : BlockDev) : Spares g S d (takePage g b d).1 := by
  have huse : Spares g S d (usePage g b d) := by
    refine Spares.of_grows (fun c hc => ?_) rfl
    simp only [usePage, BlockDev.modBlock, BlockDev.setChunkBit, Function.update_apply]
    split_ifs
    · rfl
    · exact hc
  unfold takePage
  dsimp only
  split_ifs
  · exact huse.trans (Spares.of_eq rfl rfl)
  · exact huse

theorem allocChunk_spares (useReserver : Bool) (d : BlockDev) :
    Spares g S d (allocChunk g useReserver d).1 := by
  have hensure := ensureAllocBlock_spares (g := g) (S := S) d
  unfold allocChunk
  dsimp only
  split_ifs
  · exact hensure.trans (Spares.of_eq rfl rfl)
  · split
    · exact hensure.trans (takePage_spares _ _)
    · exact hensure.trans (Spares.of_eq rfl rfl)

theorem skipRestOfBlock_spares (d : BlockDev) : Spares g S d (skipRestOfBlock d) := by
  unfold skipRestOfBlock
  split
  · split_ifs
    · exact Spares.of_eq rfl rfl
    · exact Spares.refl S d
  · exact Spares.refl S d

theorem summaryWriteLoop_spares (b : ℕ) (hdr : SummaryHeader) (st : List SummaryTags) (n : ℕ) :
    ∀ (i chunkId offset nBytes : ℕ) (d : BlockDev),
      Spares g S d (summaryWriteLoop g e b hdr st n i chunkId offset nBytes d).1 := by
  induction n with
  | zero => exact fun _ _ _ _ d => Spares.refl S d
  | succ n ih =>
    intro i chunkId offset nBytes d
    have hcount : ∀ (c : ℕ) (p : Page), Spares g S d (countSummaryChunk b c (driverWrite e c p d).1) := by
      intro c p
      refine Spares.of_grows (fun c' hc' => ?_) rfl
      simp only [countSummaryChunk, driverWrite, BlockDev.modBlock, BlockDev.setChunkBit, Function.update_apply]
      split_ifs
      · rfl
      · exact hc'
    unfold summaryWriteLoop
    dsimp only
    split_ifs
    · exact hcount _ _
    · exact (hcount _ _).trans (ih _ _ _ _ _)
    · exact Spares.of_eq rfl rfl

theorem summaryAdd_spares (t : ExtTags) (c : ℕ) (d : BlockDev) : Spares g S d (summaryAdd g e t c d) := by
  have hwrite : ∀ (b : ℕ) (x : BlockDev), Spares g S x (summaryWrite g e b x) := by
    intro b x
    unfold summaryWrite
    dsimp only
    split_ifs
    · exact (summaryWriteLoop_spares b _ _ _ _ _ _ _ x).trans (Spares.of_eq rfl rfl)
    · exact summaryWriteLoop_spares b _ _ _ _ _ _ _ x
  have hclose : ∀ (b : ℕ) (x : BlockDev),
      Spares g S x (skipRestOfBlock (summaryClear (summaryWrite g e b x))) := by
    intro b x
    have hskip := skipRestOfBlock_spares (g := g) (S := S) (summaryClear (summaryWrite g e b x))
    exact (hwrite b x).trans ⟨hskip.bits, hskip.gcBlock⟩
  unfold summaryAdd
  dsimp only
  split_ifs
  · have hsum := hclose (c / g.chunksPerBlock)
      { d with sumTags := Function.update d.sumTags (c % g.chunksPerBlock) (packTags2TagsOnly t) }
    exact ⟨hsum.bits, hsum.gcBlock⟩
  · exact Spares.of_eq rfl rfl
  · exact Spares.refl S d

theorem erasedCheck_spares (c : ℕ) (d : BlockDev) : Spares g S d (erasedCheck g e c d).1 := by
  unfold erasedCheck checkChunkErased
  dsimp only
  split_ifs <;> exact Spares.of_eq rfl rfl

theorem programChunk_spares (c : ℕ) (data : PageData) (t : ExtTags) (d : BlockDev) :
    Spares g S d (programChunk g e c data t d).1 := by
  have hdriver : Spares g S d (driverWrite e c ⟨stampTags d t, data⟩ d).1 := Spares.of_eq rfl rfl
  have hwr : Spares g S d (wrChunkTagsNand g e c data t d).1 := hdriver.trans (summaryAdd_spares _ _ _)
  unfold programChunk verifyChunkWritten
  dsimp only
  split_ifs
  · exact hwr
  · exact hwr.trans (Spares.of_eq rfl rfl)

theorem handleChunkError_spares (b : ℕ) (d : BlockDev) : Spares g S d (handleChunkError b d) := by
  unfold handleChunkError
  split_ifs
  · exact Spares.refl S d
  · exact Spares.of_eq rfl rfl

/-- A chunk that could not be written is given up. -/
theorem Holds.discard_spares (h : Holds g T S c d d') (m : Bool) :
    Spares g S d' (skipRestOfBlock (chunkDel g e c m d')) :=
  (chunkDel_spares h.keeps.blk h.bit h.touch m).trans (skipRestOfBlock_spares _)

theorem handleChunkWrError_spares (h : Holds g T S c d d') (erasedOk : Bool) :
    Spares g S d' (handleChunkWrError g e c erasedOk d') := by
  have hflag := handleChunkError_flagged (S := S) h.keeps.blk h.touch
  have hspare := handleChunkError_spares (g := g) (S := S) (c / g.chunksPerBlock) d'
  have hopn := hflag.opn h.opn
  unfold handleChunkWrError
  dsimp only
  generalize handleChunkError (c / g.chunksPerBlock) d' = x at hflag hspare hopn
  split_ifs
  · have hretire := Flagged.modBlock (f := fun bi => { bi with needsRetiring := true }) hflag.keeps.blk h.touch
      fun _ => rfl
    have hx := (h.extend hflag.extends hopn).extend hretire.extends (hretire.opn hopn)
    have hflags : Spares g S x (x.modBlock (c / g.chunksPerBlock) fun bi => { bi with needsRetiring := true }) :=
      Spares.of_eq rfl rfl
    exact hspare.trans (hflags.trans (hx.discard_spares true))
  · exact hspare.trans ((h.extend hflag.extends hopn).discard_spares true)

theorem writeAttempt_spares (h : Ready g T S d) (data : PageData) {t : ExtTags} (ht : t.isDeleted = false)
    (useReserver : Bool) : Spares g S d (writeAttempt g e data t useReserver d).1 := by
  have halloc := allocChunk_spec h useReserver
  have hspare := allocChunk_spares (g := g) (S := S) useReserver d
  unfold writeAttempt
  split
  · next d1 heq =>
    rw [heq] at hspare
    exact hspare
  · next d1 c heq =>
    rw [heq] at halloc hspare
    have hcheck := erasedCheck_flagged (e := e) (S := S) halloc.keeps.blk halloc.touch
    have hholds := halloc.holds.extend hcheck.extends (hcheck.opn halloc.opn)
    have hplaced := hcheck.placed halloc.placed
    have hchecked := hspare.trans (erasedCheck_spares (e := e) c d1)
    dsimp only
    split_ifs
    · exact hchecked.trans ((programChunk_spares c data t _).trans (Spares.of_eq rfl rfl))
    · exact hchecked.trans ((programChunk_spares c data t _).trans
        (handleChunkWrError_spares (programChunk_spec (e := e) h hholds hplaced data ht).1 _))
    · exact hchecked.trans (hholds.discard_spares true)

theorem writeNewChunkLoop_spares (data : PageData) {t : ExtTags} (ht : t.isDeleted = false)
    (hid : t.objId ≠ objectIdSummary) (useReserver : Bool) (n : ℕ) :
    ∀ (attempts : ℕ) (d : BlockDev), Ready g T S d →
      Spares g S d (writeNewChunkLoop g e data t useReserver n attempts d).1 := by
  induction n with
  | zero => exact fun _ d _ => Spares.refl S d
  | succ n ih =>
    intro attempts d h
    have hround := writeAttempt_spec (e := e) h data ht hid useReserver
    have hspare := writeAttempt_spares (e := e) h data ht useReserver
    unfold writeNewChunkLoop
    split
    · next d' heq =>
      rw [heq] at hspare
      exact hspare
    · next d' c heq =>
      rw [heq] at hspare
      exact hspare
    · next d' heq =>
      rw [heq] at hround hspare
      have hw : Wrote g T S d d' d.kept := hround
      split_ifs
      · exact hspare.trans (ih (attempts + 1) d' (hw.ready h))
      · exact hspare

theorem writeNewChunk_spares (h : Ready g T S d) (data : PageData) {t : ExtTags}
    (ht : t.isDeleted = false) (hid : t.objId ≠ objectIdSummary) (useReserver : Bool) :
    Spares g S d (writeNewChunk g e data t useReserver d).1 :=
  (checkptInvalidate_spares h.blk).trans
    (writeNewChunkLoop_spares data ht hid useReserver _ 0 _ ((checkptInvalidate_wrote (e := e) h).ready h))

/-! ## A block left as it is -/

/-- Block `b` is the same for gc, and gc is where it was. -/
structure SameBlock (g : Geometry) (b : ℕ) (d d' : BlockDev) : Prop where
  gcBlock : d'.gc.block = d.gc.block
  gcChunk : d'.gc.chunk = d.gc.chunk
  state : (d'.blockInfo b).blockState = (d.blockInfo b).blockState
  shrink : (d'.blockInfo b).hasShrinkHdr = (d.blockInfo b).hasShrinkHdr
  bits : ∀ c, c / g.chunksPerBlock = b → d'.chunkBits c = d.chunkBits c

theorem SameBlock.trans (h : SameBlock g b d d') (h' : SameBlock g b d' d'') : SameBlock g b d d'' where
  gcBlock := h'.gcBlock.trans h.gcBlock
  gcChunk := h'.gcChunk.trans h.gcChunk
  state := h'.state.trans h.state
  shrink := h'.shrink.trans h.shrink
  bits c hc := (h'.bits c hc).trans (h.bits c hc)

theorem CountsOnly.sameBlock (h : CountsOnly d d') (b : ℕ) : SameBlock g b d d' := by
  obtain ⟨n, t, rfl⟩ := h
  exact ⟨rfl, rfl, rfl, rfl, fun _ _ => rfl⟩

/-- As many chunks are in use as before, and those before still are. -/
theorem bits_eq_of_count {bits bits' : ℕ → Bool}
    (hle : ∀ c, c / g.chunksPerBlock = b → bits c = true → bits' c = true)
    (hcount : countChunkBits g b bits' = countChunkBits g b bits) (hc : c / g.chunksPerBlock = b) :
    bits' c = bits c := by
  cases hbit : bits c with
  | true => exact hle c hc hbit
  | false =>
    by_contra hne
    have hset := countChunkBits_set (g := g) (b := b) hbit
    have hmono : countChunkBits g b (Function.update bits c true) ≤ countChunkBits g b bits' := by
      refine tally_mono fun c' hc' => ?_
      by_cases hcc : c' = c
      · subst hcc
        simp [bitWeight, hne]
      · cases hb' : bits c' with
        | true => simp [bitWeight, hcc, hb', hle c' (mem_chunksOf.mp hc') hb']
        | false => simpa [bitWeight, hcc, hb'] using bitWeight_nonneg _
    rw [hset, if_pos hc, hcount] at hmono
    omega

/-- A write leaves a block that gc could collect as it is. -/
theorem writeNewChunk_sameBlock (h : Ready g T anyBlock d) (hb : b ∈ g.blocks)
    (hs : (d.blockInfo b).blockState.collectable = true) (hgc : d.gc.block = b) (data : PageData)
    {t : ExtTags} (ht : t.isDeleted = false) (hid : t.objId ≠ objectIdSummary) (useReserver : Bool) :
    SameBlock g b d (writeNewChunk g e data t useReserver d).1 := by
  have hready : Ready g T (notCollectable d) d := ⟨h.blk, h.opn, fun _ hb => hb⟩
  have hspare := writeNewChunk_spares (e := e) hready data ht hid useReserver
  have hnot : ¬notCollectable d b := by simp [notCollectable, hs]
  have hkeeps : Keeps g T (notCollectable d) d (writeNewChunk g e data t useReserver d).1 := by
    have hspec := writeNewChunk_spec (e := e) hready data ht hid useReserver
    cases hr : (writeNewChunk g e data t useReserver d).2 with
    | none =>
      rw [hr] at hspec
      exact hspec.keeps
    | some c =>
      rw [hr] at hspec
      obtain ⟨-, -, p, -, hw⟩ := hspec
      exact hw.keeps
  have hinfo := hkeeps.frame.info b hnot
  refine ⟨?_, hkeeps.frame.gcChunk, by rw [hinfo], by rw [hinfo], fun c hc => ?_⟩
  · exact hspare.gcBlock.resolve_right fun hdrop => hnot (hgc ▸ hdrop.2)
  · refine bits_eq_of_count (fun c' hc' => hspare.bits c' (hc' ▸ hnot)) ?_ hc
    rw [← hkeeps.blk.pages b hb, hinfo, h.blk.pages b hb]

end Yaffs
