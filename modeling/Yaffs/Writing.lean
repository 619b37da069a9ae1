import Yaffs.Erasure

/-!
# Writing chunks keeps the accounts

Allocation, block summaries and `yaffs_write_new_chunk`. A write adds one page to
the pages kept on the device, or none; everything else that is kept stays.
-/

namespace Yaffs

open Tally

variable {g : Geometry} {e : Env} {d : BlockDev} {T : ℕ → BlockState → Prop} {b c : ℕ}
  {soft : ℕ → Bool} {k : ℤ} {S : ℕ → Prop}

/-! ## Frames -/

/-- `d'` differs from `d` in no block outside `S`, and not in what belongs to the gc loop,
the checkpoint stream or the objects. -/
structure Frame (S : ℕ → Prop) (d d' : BlockDev) : Prop where
  checkpt : d'.checkpt = d.checkpt
  nObj : d'.nObj = d.nObj
  nTnodes : d'.nTnodes = d.nTnodes
  gcChunk : d'.gc.chunk = d.gc.chunk
  gcDisable : d'.gc.disable = d.gc.disable
  info : ∀ b, ¬S b → d'.blockInfo b = d.blockInfo b

namespace Frame

variable {S S' : ℕ → Prop} {d' d'' : BlockDev}

theorem refl (S : ℕ → Prop) (d : BlockDev) : Frame S d d :=
  ⟨rfl, rfl, rfl, rfl, rfl, fun _ _ => rfl⟩

theorem trans (h : Frame S d d') (h' : Frame S d' d'') : Frame S d d'' where
  checkpt := h'.checkpt.trans h.checkpt
  nObj := h'.nObj.trans h.nObj
  nTnodes := h'.nTnodes.trans h.nTnodes
  gcChunk := h'.gcChunk.trans h.gcChunk
  gcDisable := h'.gcDisable.trans h.gcDisable
  info := fun b hb => (h'.info b hb).trans (h.info b hb)

theorem mono (h : Frame S d d') (hS : ∀ b, S b → S' b) : Frame S' d d' :=
  { h with info := fun b hb => h.info b fun hs => hb (hS b hs) }

end Frame

theorem Quiet.frame {S : ℕ → Prop} {d' : BlockDev} (h : Quiet g S d d') : Frame S d d' :=
  ⟨h.checkpt, h.nObj, h.nTnodes, h.gcChunk, h.gcDisable, h.info⟩

/-- A block gc has nothing to do with, which a write may touch. -/
def notCollectable (d : BlockDev) (b : ℕ) : Prop :=
  (d.blockInfo b).blockState.collectable = false

/-- `S` has all the blocks a write may touch. -/
def Covers (S : ℕ → Prop) (d : BlockDev) : Prop :=
  ∀ b, notCollectable d b → S b

theorem Frame.covers {d' : BlockDev} (h : Frame S d d') (hd : Covers S d) : Covers S d' := by
  intro b hb
  by_contra hn
  unfold notCollectable at hb
  rw [h.info b hn] at hb
  exact hn (hd b hb)

/-- The allocation block may be touched. -/
theorem Covers.allocBlock (h : Covers S d) (hd : BlkInv g T d) (hb : d.alloc.block = some b) : S b :=
  h b (by simp [notCollectable, (hd.alloc_block b hb).2.1, BlockState.collectable])

theorem Frame.modBlock (hb : S b) (f : BlockInfo → BlockInfo) : Frame S d (d.modBlock b f) :=
  { Frame.refl S d with
    info := fun b' hb' => by
      have hne : b' ≠ b := fun h0 => hb' (h0 ▸ hb)
      simp [BlockDev.modBlock, hne] }

/-! ## Allocation -/

theorem nextBlock_mem (b : ℕ) : g.nextBlock b ∈ g.blocks := by
  have := g.endBlock_gt
  rw [mem_blocks]
  unfold Param.nextBlock
  split_ifs <;> omega

theorem findAllocBlockLoop_cases (n : ℕ) (d : BlockDev) :
    (∃ f, findAllocBlockLoop g n d = ({ d with alloc := { d.alloc with blockFinder := f } }, none)) ∨
    ∃ b f, b ∈ g.blocks ∧ (d.blockInfo b).blockState = .empty ∧ findAllocBlockLoop g n d =
      (takeBlock b { d with alloc := { d.alloc with blockFinder := f } }, some b) := by
  induction n generalizing d with
  | zero => exact Or.inl ⟨d.alloc.blockFinder, rfl⟩
  | succ n ih =>
    unfold findAllocBlockLoop
    simp only
    split_ifs with hs
    · exact Or.inr ⟨_, _, nextBlock_mem _, hs, rfl⟩
    · exact ih { d with alloc := { d.alloc with blockFinder := g.nextBlock d.alloc.blockFinder } }

/-- After `ensureAllocBlock` the device is as before, or has opened an empty block. -/
theorem ensureAllocBlock_cases (d : BlockDev) :
    (∃ a : AllocCursor, a.block = d.alloc.block ∧ (d.alloc.block ≠ none → a = d.alloc) ∧
      ensureAllocBlock g d = { d with alloc := a }) ∨
    ∃ b a, d.alloc.block = none ∧ b ∈ g.blocks ∧ (d.blockInfo b).blockState = .empty ∧
      a.block = some b ∧ a.page = 0 ∧ ensureAllocBlock g d = { takeBlock b d with alloc := a } := by
  unfold ensureAllocBlock
  split_ifs with hnone
  · unfold findAllocBlock
    split_ifs with herased
    · exact Or.inl ⟨_, hnone.symm, fun h => absurd hnone h, rfl⟩
    · rcases findAllocBlockLoop_cases (g := g) (g.endBlock + 1 - g.startBlock) d with
        ⟨f, hf⟩ | ⟨b, f, hb, hs, hf⟩
      · rw [hf]
        exact Or.inl ⟨_, hnone.symm, fun h => absurd hnone h, rfl⟩
      · rw [hf]
        exact Or.inr ⟨b, _, hnone, hb, hs, rfl, rfl, rfl⟩
  · exact Or.inl ⟨d.alloc, rfl, fun _ => rfl, rfl⟩

theorem freeWeight_open (bi : BlockInfo) (hs : bi.blockState = .empty) (n : ℕ) :
    freeWeight g { bi with blockState := .allocating, seqNumber := n } = freeWeight g bi := by
  simp [freeWeight, hs]

/-- What holds of the block management between two writes. -/
structure Ready (g : Geometry) (T : ℕ → BlockState → Prop) (S : ℕ → Prop) (d : BlockDev) : Prop where
  blk : BlkInv g T d
  opn : OpenInv g d
  covers : Covers S d

/-- What all steps of a write keep. -/
structure Keeps (g : Geometry) (T : ℕ → BlockState → Prop) (S : ℕ → Prop) (d d' : BlockDev) : Prop where
  blk : BlkInv g T d'
  free : ∀ soft k, FreeInv g soft k d → FreeInv g soft k d'
  checkptInv : CheckptInv g d → CheckptInv g d'
  frame : Frame S d d'

theorem Keeps.refl (h : BlkInv g T d) : Keeps g T S d d :=
  ⟨h, fun _ _ hf => hf, fun hc => hc, Frame.refl _ _⟩

theorem Keeps.trans {d' d'' : BlockDev} (h : Keeps g T S d d') (h' : Keeps g T S d' d'') :
    Keeps g T S d d'' where
  blk := h'.blk
  free := fun soft k hf => h'.free soft k (h.free soft k hf)
  checkptInv := fun hc => h'.checkptInv (h.checkptInv hc)
  frame := h.frame.trans h'.frame

theorem CheckptInv.of_state {d' : BlockDev} (h : CheckptInv g d)
    (hcount : d'.blocksInCheckpt = d.blocksInCheckpt)
    (hs : ∀ b ∈ g.blocks, (d'.blockInfo b).blockState = .checkpoint ↔
      (d.blockInfo b).blockState = .checkpoint) : CheckptInv g d' := by
  unfold CheckptInv at h ⊢
  rw [hcount, h]
  exact tally_congr fun b hb => by simp [stateWeight, hs b hb]

theorem ensureAllocBlock_spec (h : Ready g T S d) :
    Keeps g T S d (ensureAllocBlock g d) ∧ OpenInv g (ensureAllocBlock g d) ∧
    (ensureAllocBlock g d).chunkBits = d.chunkBits ∧ (ensureAllocBlock g d).nand = d.nand ∧
    ∀ b, (ensureAllocBlock g d).alloc.block = some b → S b := by
  rcases ensureAllocBlock_cases (g := g) d with ⟨a, ha, hsame, heq⟩ | ⟨b, a, hnone, hb, hs, ha, hp, heq⟩
  · rw [heq]
    refine ⟨⟨{ h.blk with
      alloc_state := fun b hb hs => ha.trans (h.blk.alloc_state b hb hs)
      alloc_block := fun b hb => h.blk.alloc_block b (ha ▸ hb) }, fun _ _ hf => { hf with },
      fun hc => hc, { Frame.refl _ d with }⟩, ?_, rfl, rfl, ?_⟩
    · by_cases hnone : d.alloc.block = none
      · have : a.block = none := ha.trans hnone
        exact ⟨by simp [this], by simp [this], by simp [this]⟩
      · rw [hsame hnone]
        exact { h.opn with }
    · exact fun b hb => h.covers.allocBlock h.blk (ha ▸ hb)
  · have hno := h.blk.noBits (b := b) (by simp [hs, BlockState.inService])
    have hblk := h.blk.openBlock hb hs hnone a ha
    have hS : S b := h.covers b (by simp [notCollectable, hs, BlockState.collectable])
    rw [heq]
    refine ⟨⟨hblk, fun soft k hf => ?_, fun hc => hc.of_state rfl fun b' _ => ?_, ?_⟩, ?_, rfl, rfl, ?_⟩
    · have h1 := hf.modBlock hb
        (f := fun bi => { bi with blockState := .allocating, seqNumber := d.seqNumber + 1 }) rfl
      refine FreeInv.cast (k := _) { h1 with } ?_
      simp only [freeWeight_open _ hs]
      omega
    · by_cases hne : b' = b <;> simp [takeBlock, BlockDev.modBlock, hne, hs]
    · exact { Frame.modBlock (d := d) hS (fun bi => { bi with
          blockState := .allocating, seqNumber := d.seqNumber + 1 }) with }
    · refine ⟨fun b' _ => ?_, fun b' hb' c hc _ => ?_, fun b' hb' => ?_⟩
      · simpa [hp] using chunksPerBlock_pos
      · obtain rfl : b = b' := Option.some.inj (ha.symm.trans hb')
        exact hno c hc
      · obtain rfl : b = b' := Option.some.inj (ha.symm.trans hb')
        simp only [takeBlock, BlockDev.modBlock, Function.update_self]
        by_contra hsum
        exact (h.blk.fresh b hb (by simpa using hsum)).2.1 hs
    · intro b' hb'
      exact Option.some.inj (ha.symm.trans hb') ▸ hS

/-- What allocating chunk `c` does. -/
structure Allocated (g : Geometry) (T : ℕ → BlockState → Prop) (S : ℕ → Prop) (c : ℕ) (d d' : BlockDev) :
    Prop where
  keeps : Keeps g T S d d'
  opn : OpenInv g d'
  unused : d.chunkBits c = false
  bits : d'.chunkBits = Function.update d.chunkBits c true
  nand : d'.nand = d.nand
  touch : S (c / g.chunksPerBlock)
  noSummary : (d'.blockInfo (c / g.chunksPerBlock)).hasSummary = false
  next : c % g.chunksPerBlock + 1 < g.chunksPerBlock →
    d'.alloc.block = some (c / g.chunksPerBlock) ∧ d'.alloc.page = c % g.chunksPerBlock + 1

/-- A page of a block in service comes into use, and one chunk fewer is free. -/
theorem useChunk_free (hf : FreeInv g soft k d) (hb : b ∈ g.blocks)
    (hs : (d.blockInfo b).blockState.inService = true) :
    FreeInv g soft k { (d.setChunkBit c).modBlock b
      (fun bi => { bi with pagesInUse := bi.pagesInUse + 1 }) with
        nFreeChunks := d.nFreeChunks - 1 } := by
  have hw : freeWeight g { d.blockInfo b with pagesInUse := (d.blockInfo b).pagesInUse + 1 } =
      freeWeight g (d.blockInfo b) - 1 := by
    revert hs
    unfold freeWeight
    cases (d.blockInfo b).blockState <;> simp [BlockState.inService] <;> omega
  have h1 := hf.setBit (c := c) true (fun _ => rfl)
  have h2 := h1.modBlock hb (f := fun bi => { bi with pagesInUse := bi.pagesInUse + 1 }) rfl
  refine FreeInv.cast (h2.count (-1) rfl rfl rfl) ?_
  simp only at hw ⊢
  omega

/-- Closing a block neither frees nor takes a chunk. -/
theorem closeBlock_keeps (h : BlkInv g T d) (hcov : Covers S d) (hb : d.alloc.block = some b) :
    Keeps g T S d (closeBlock b d) := by
  obtain ⟨hmem, hs, -⟩ := h.alloc_block b hb
  refine ⟨h.closeBlock hb, fun soft k hf => ?_, fun hc => hc.of_state rfl fun b' _ => ?_, ?_⟩
  · have h1 := hf.modBlock hmem (f := fun bi => { bi with blockState := .full }) rfl
    refine FreeInv.cast (k := _) { h1 with } ?_
    simp [freeWeight, hs]
  · by_cases hne : b' = b <;> simp [closeBlock, BlockDev.setState, BlockDev.modBlock, hne, hs]
  · exact { Frame.modBlock (d := d) (hcov.allocBlock h hb) (fun bi => { bi with blockState := .full }) with }

theorem closeBlock_opn : OpenInv g (closeBlock b d) :=
  ⟨by simp [closeBlock], by simp [closeBlock], by simp [closeBlock]⟩

theorem takePage_spec (h : Ready g T S d) (hb : d.alloc.block = some b) :
    Allocated g T S (takePage g b d).2 d (takePage g b d).1 := by
  obtain ⟨hmem, hs, hseq⟩ := h.blk.alloc_block b hb
  have hpage := h.opn.page_lt b hb
  have hpos := chunksPerBlock_pos (g := g)
  have hdiv : (b * g.chunksPerBlock + d.alloc.page) / g.chunksPerBlock = b := by
    rw [Nat.mul_comm, Nat.mul_add_div hpos, Nat.div_eq_of_lt hpage, Nat.add_zero]
  have hmod : (b * g.chunksPerBlock + d.alloc.page) % g.chunksPerBlock = d.alloc.page := by
    rw [Nat.mul_comm, Nat.mul_add_mod, Nat.mod_eq_of_lt hpage]
  have hunused := h.opn.clear b hb (b * g.chunksPerBlock + d.alloc.page) hdiv (by rw [hmod])
  have hnosum := h.opn.noSummary b hb
  have hin : (d.blockInfo b).blockState.inService = true := by simp [hs, BlockState.inService]
  have htouch := h.covers.allocBlock h.blk hb
  have hblk := h.blk.useChunk hdiv hmem hin hunused hnosum
  have hblk1 : BlkInv g T (usePage g b d) := { hblk with }
  have hkeeps : Keeps g T S d (usePage g b d) := by
    refine ⟨hblk1, fun soft k hf => { useChunk_free hf hmem hin with }, fun hc =>
      hc.of_state rfl fun b' _ => ?_, ?_⟩
    · by_cases hne : b' = b <;> simp [usePage, BlockDev.setChunkBit, BlockDev.modBlock, hne]
    · exact { Frame.modBlock (d := d) htouch (fun bi => { bi with pagesInUse := bi.pagesInUse + 1 }) with }
  have hsum1 : ((usePage g b d).blockInfo b).hasSummary = false := by
    simpa [usePage, BlockDev.modBlock, BlockDev.setChunkBit] using hnosum
  have hpage1 : (usePage g b d).alloc.page = d.alloc.page + 1 := rfl
  unfold takePage
  simp only
  split_ifs with hfull
  · exact {
      keeps := hkeeps.trans (closeBlock_keeps hblk1 (hkeeps.frame.covers h.covers) hb)
      opn := closeBlock_opn
      unused := hunused
      bits := rfl
      nand := rfl
      touch := hdiv.symm ▸ htouch
      noSummary := by
        rw [hdiv]
        simpa [closeBlock, BlockDev.setState, BlockDev.modBlock] using hsum1
      next := fun hlt => by rw [hmod] at hlt; omega }
  · exact {
      keeps := hkeeps
      opn := by
        refine ⟨fun b' _ => by omega, fun b' hb' c hc hp => ?_, fun b' hb' => ?_⟩
        · obtain rfl : b = b' := Option.some.inj (hb.symm.trans hb')
          have hne : c ≠ b * g.chunksPerBlock + d.alloc.page := by
            rintro rfl
            rw [hpage1, hmod] at hp
            omega
          simpa [usePage, BlockDev.setChunkBit, BlockDev.modBlock, hne] using
            h.opn.clear b hb c hc (by omega)
        · obtain rfl : b = b' := Option.some.inj (hb.symm.trans hb')
          exact hsum1
      unused := hunused
      bits := rfl
      nand := rfl
      touch := hdiv.symm ▸ htouch
      noSummary := hdiv.symm ▸ hsum1
      next := fun _ => by
        rw [hdiv, hmod]
        exact ⟨hb, rfl⟩ }

/-- A step that puts no page into use nor changes one that is. -/
structure Idle (g : Geometry) (T : ℕ → BlockState → Prop) (S : ℕ → Prop) (d d' : BlockDev) : Prop where
  keeps : Keeps g T S d d'
  opn : OpenInv g d'
  bits : d'.chunkBits = d.chunkBits
  nand : d'.nand = d.nand

theorem allocChunk_spec (h : Ready g T S d) (useReserver : Bool) :
    match (allocChunk g useReserver d).2 with
    | some c => Allocated g T S c d (allocChunk g useReserver d).1
    | none => Idle g T S d (allocChunk g useReserver d).1 := by
  obtain ⟨hk, ho, hbits, hnand, htouch⟩ := ensureAllocBlock_spec h
  have hidle : ∀ n, Idle g T S d { ensureAllocBlock g d with allocFailures := n } := fun n =>
    ⟨{ hk with
        blk := { hk.blk with }
        free := fun soft k hf => { hk.free soft k hf with }
        frame := { hk.frame with } }, { ho with }, hbits, hnand⟩
  unfold allocChunk
  simp only
  split_ifs with hres
  · exact hidle _
  · cases hb : (ensureAllocBlock g d).alloc.block with
    | none => exact hidle _
    | some b =>
      have ht := takePage_spec ⟨hk.blk, ho, hk.frame.covers h.covers⟩ hb
      exact {
        keeps := hk.trans ht.keeps
        opn := ht.opn
        unused := by rw [← hbits]; exact ht.unused
        bits := by rw [ht.bits, hbits]
        nand := ht.nand.trans hnand
        touch := ht.touch
        noSummary := ht.noSummary
        next := ht.next }

/-! ## Summaries -/

theorem chunk_div {b i : ℕ} (hi : i < g.chunksPerBlock) :
    (b * g.chunksPerBlock + i) / g.chunksPerBlock = b := by
  rw [Nat.mul_comm, Nat.mul_add_div chunksPerBlock_pos, Nat.div_eq_of_lt hi, Nat.add_zero]

theorem chunk_mod {b i : ℕ} (hi : i < g.chunksPerBlock) :
    (b * g.chunksPerBlock + i) % g.chunksPerBlock = i := by
  rw [Nat.mul_comm, Nat.mul_add_mod, Nat.mod_eq_of_lt hi]

/-- Pages in use stay as they are, and those that come into use are summary pages. -/
structure Extends (g : Geometry) (T : ℕ → BlockState → Prop) (S : ℕ → Prop) (d d' : BlockDev) : Prop where
  keeps : Keeps g T S d d'
  old : ∀ c, d.chunkBits c = true → d'.chunkBits c = true ∧ d'.nand.flash c = d.nand.flash c
  new : ∀ c, d.chunkBits c = false → d'.chunkBits c = true →
    ∃ p, d'.nand.flash c = some p ∧ p.tags.objId = objectIdSummary

/-- Every chunk in use holds a page. -/
def Programmed (d : BlockDev) : Prop :=
  ∀ c, d.chunkBits c = true → d.nand.flash c ≠ none

namespace Extends

variable {d' d'' : BlockDev}

theorem trans (h : Extends g T S d d') (h' : Extends g T S d' d'') : Extends g T S d d'' where
  keeps := h.keeps.trans h'.keeps
  old := fun c hc =>
    have h1 := h.old c hc
    have h2 := h'.old c h1.1
    ⟨h2.1, h2.2.trans h1.2⟩
  new := fun c hc hc' => by
    cases hmid : d'.chunkBits c with
    | true =>
      rw [(h'.old c hmid).2]
      exact h.new c hc hmid
    | false => exact h'.new c hmid hc'

/-- Summary pages are not among the pages kept for objects. -/
theorem kept (h : Extends g T S d d') : d'.kept = d.kept := by
  funext c
  unfold BlockDev.kept BlockDev.live
  cases hc : d.chunkBits c with
  | true => simp [h.old c hc]
  | false =>
    cases hc' : d'.chunkBits c with
    | true =>
      obtain ⟨p, hp, hid⟩ := h.new c hc hc'
      simp [hp, hid]
    | false => simp

theorem programmed (h : Extends g T S d d') (hp : Programmed d) : Programmed d' := by
  intro c hc'
  cases hc : d.chunkBits c with
  | true =>
    rw [(h.old c hc).2]
    exact hp c hc
  | false =>
    obtain ⟨p, hp, -⟩ := h.new c hc hc'
    simp [hp]

/-- A step of the driver on a page not in use. -/
theorem of_unused (hk : Keeps g T S d d') (hbits : d'.chunkBits = d.chunkBits)
    (hflash : ∀ c, d.chunkBits c = true → d'.nand.flash c = d.nand.flash c) :
    Extends g T S d d' where
  keeps := hk
  old := fun c hc => ⟨by rw [hbits, hc], hflash c hc⟩
  new := fun c hc hc' => by simp [hbits, hc] at hc'

end Extends

theorem Idle.extends {d' : BlockDev} (h : Idle g T S d d') : Extends g T S d d' :=
  Extends.of_unused h.keeps h.bits fun _ _ => by rw [h.nand]

/-- Pages of the allocation block `b` from page `i` on have been filled with a summary. -/
structure Filled (g : Geometry) (T : ℕ → BlockState → Prop) (S : ℕ → Prop) (b i : ℕ) (d d' : BlockDev) :
    Prop where
  ext : Extends g T S d d'
  alloc : d'.alloc = d.alloc
  noSummary : (d'.blockInfo b).hasSummary = (d.blockInfo b).hasSummary
  region : ∀ c, d.chunkBits c = false → d'.chunkBits c = true →
    c / g.chunksPerBlock = b ∧ i ≤ c % g.chunksPerBlock

theorem Filled.trans {i j : ℕ} {d' d'' : BlockDev} (h : Filled g T S b i d d')
    (h' : Filled g T S b j d' d'') (hij : i ≤ j) : Filled g T S b i d d'' where
  ext := h.ext.trans h'.ext
  alloc := h'.alloc.trans h.alloc
  noSummary := h'.noSummary.trans h.noSummary
  region := fun c hc hc' => by
    cases hmid : d'.chunkBits c with
    | true => exact h.region c hc hmid
    | false =>
      obtain ⟨h1, h2⟩ := h'.region c hmid hc'
      exact ⟨h1, hij.trans h2⟩

/-- A page that is not in use may be programmed. -/
theorem driverWrite_unused (h : BlkInv g T d) (p : Page) (hc : d.chunkBits c = false) :
    Extends g T S d (driverWrite e c p d).1 := by
  refine Extends.of_unused ⟨h.driverWrite p (by simp [hc]), fun _ _ hf => { hf with },
    fun hck => hck, { Frame.refl S d with }⟩ rfl fun c' hc' => ?_
  have hne : c' ≠ c := by
    rintro rfl
    simp [hc] at hc'
  simp [driverWrite, hne]

/-- A page of the summary that the driver took. -/
theorem summaryPage_written (h : BlkInv g T d) (hcov : Covers S d)
    (hb : d.alloc.block = some b) (p : Page)
    (hid : p.tags.objId = objectIdSummary) (hdiv : c / g.chunksPerBlock = b)
    (hc : d.chunkBits c = false) (hsum : (d.blockInfo b).hasSummary = false)
    (hok : (driverWrite e c p d).2 = true) : Filled g T S b (c % g.chunksPerBlock) d
      (countSummaryChunk b c (driverWrite e c p d).1) := by
  obtain ⟨hmem, hs, -⟩ := h.alloc_block b hb
  have hin : (d.blockInfo b).blockState.inService = true := by simp [hs, BlockState.inService]
  have h1 : BlkInv g T (driverWrite e c p d).1 := h.driverWrite p (by simp [hc])
  have h2 := h1.useChunk hdiv hmem hin hc hsum
  have hnew : ∀ c', d.chunkBits c' = false →
      (countSummaryChunk b c (driverWrite e c p d).1).chunkBits c' = true → c' = c := by
    intro c' hc' hc''
    by_contra hne
    simp [countSummaryChunk, BlockDev.setChunkBit, BlockDev.modBlock, driverWrite, hne, hc'] at hc''
  exact {
    ext := {
      keeps := ⟨{ h2 with }, fun soft k hf => by
          have hf1 : FreeInv g soft k (driverWrite e c p d).1 := { hf with }
          exact { useChunk_free (c := c) hf1 hmem hin with },
        fun hck => hck.of_state rfl fun b' _ => by
          by_cases hne : b' = b <;>
            simp [countSummaryChunk, BlockDev.setChunkBit, BlockDev.modBlock, driverWrite, hne],
        { Frame.modBlock (d := d) (hcov.allocBlock h hb)
            (fun bi => { bi with pagesInUse := bi.pagesInUse + 1 }) with }⟩
      old := fun c' hc' => by
        have hne : c' ≠ c := by
          rintro rfl
          simp [hc] at hc'
        simp [countSummaryChunk, BlockDev.setChunkBit, BlockDev.modBlock, driverWrite, hne, hc']
      new := fun c' hc' hc'' => by
        obtain rfl := hnew c' hc' hc''
        refine ⟨p, ?_, hid⟩
        have hok' : e.writeOk d.nand.calls = true := hok
        simp [countSummaryChunk, BlockDev.setChunkBit, BlockDev.modBlock, driverWrite, hok'] }
    alloc := rfl
    noSummary := by
      simp [countSummaryChunk, BlockDev.setChunkBit, BlockDev.modBlock, driverWrite]
    region := fun c' hc' hc'' => by
      obtain rfl := hnew c' hc' hc''
      exact ⟨hdiv, le_rfl⟩ }

theorem summaryWriteLoop_spec (hdr : SummaryHeader) (st : List SummaryTags) (n : ℕ) :
    ∀ (i chunkId offset nBytes : ℕ) (d : BlockDev), BlkInv g T d → Covers S d →
      d.alloc.block = some b →
      (d.blockInfo b).hasSummary = false →
      (∀ c, c / g.chunksPerBlock = b → i ≤ c % g.chunksPerBlock → d.chunkBits c = false) →
      i + n ≤ g.chunksPerBlock →
      Filled g T S b i d (summaryWriteLoop g e b hdr st n i chunkId offset nBytes d).1 := by
  induction n with
  | zero =>
    intro i _ _ _ d h _ _ _ _ _
    exact ⟨Extends.of_unused (Keeps.refl h) rfl fun _ _ => rfl, rfl, rfl, fun c hc hc' => by
      simp [summaryWriteLoop, hc] at hc'⟩
  | succ n ih =>
    intro i chunkId offset nBytes d h hcov hb hsum hclear hin
    have hlt : i < g.chunksPerBlock := by omega
    have hdiv := chunk_div (g := g) (b := b) hlt
    have hmod := chunk_mod (g := g) (b := b) hlt
    have hc := hclear _ hdiv (by rw [hmod])
    unfold summaryWriteLoop
    simp only
    split_ifs with hok hlast
    · have := summaryPage_written h hcov hb _ rfl hdiv hc hsum hok
      rwa [hmod] at this
    · have hpage := summaryPage_written h hcov hb _ rfl hdiv hc hsum hok
      rw [hmod] at hpage
      refine hpage.trans (ih _ _ _ _ _ hpage.ext.keeps.blk (hpage.ext.keeps.frame.covers hcov) ?_ ?_ ?_
        (by omega)) (Nat.le_succ i)
      · rw [hpage.alloc]
        exact hb
      · rw [hpage.noSummary]
        exact hsum
      · intro c' hc' hi
        by_contra hbit
        have hbit' := Bool.eq_true_of_not_eq_false hbit
        have hne : c' ≠ b * g.chunksPerBlock + i := by
          rintro rfl
          omega
        have hold := hclear c' hc' (by omega)
        simp [countSummaryChunk, BlockDev.setChunkBit, BlockDev.modBlock, driverWrite, hne, hold] at hbit'
    · exact ⟨driverWrite_unused h _ hc, rfl, rfl, fun c' hc' hc'' => by
        simp [driverWrite, hc'] at hc''⟩

theorem chunksPerSummary_lt : g.chunksPerSummary < g.chunksPerBlock := by
  have h2 := g.two_le_chunksPerBlock
  have hD := g.objHdrSize_le
  have : 1 ≤ (g.chunksPerBlock * summaryTagsSize + g.dataBytesPerChunk - 1) /
      (g.dataBytesPerChunk - summaryHeaderSize) := by
    rw [Nat.one_le_div_iff] <;> simp only [summaryTagsSize, summaryHeaderSize, objHdrSize] at * <;> omega
  unfold Param.chunksPerSummary
  omega

/-- Before `yaffs_summary_add` for chunk `c` : if `c` is the last page a summary covers,
the cursor stands right behind it. -/
def AtSummary (g : Geometry) (c : ℕ) (d : BlockDev) : Prop :=
  c % g.chunksPerBlock + 1 = g.chunksPerSummary →
    d.alloc.block = some (c / g.chunksPerBlock) ∧ d.alloc.page = g.chunksPerSummary

theorem skipRestOfBlock_eq (h : BlkInv g T d) : skipRestOfBlock d =
    match d.alloc.block with
    | some b => closeBlock b d
    | none => d := by
  unfold skipRestOfBlock
  cases hb : d.alloc.block with
  | none => rfl
  | some b =>
    obtain ⟨hmem, hs, -⟩ := h.alloc_block b hb
    simp [hs, pos_of_mem_blocks hmem]

theorem skipRestOfBlock_spec (h : BlkInv g T d) (hcov : Covers S d) :
    Idle g T S d (skipRestOfBlock d) ∧ (skipRestOfBlock d).alloc.block = none := by
  rw [skipRestOfBlock_eq h]
  cases hb : d.alloc.block with
  | none =>
    exact ⟨⟨Keeps.refl h, ⟨by simp [hb], by simp [hb], by simp [hb]⟩, rfl, rfl⟩, hb⟩
  | some b => exact ⟨⟨closeBlock_keeps h hcov hb, closeBlock_opn, rfl, rfl⟩, rfl⟩

/-- No block is open behind it. -/
theorem skipRestOfBlock_none (h : BlkInv g T (skipRestOfBlock d)) : (skipRestOfBlock d).alloc.block = none := by
  by_contra hne
  obtain ⟨b, hb⟩ := Option.ne_none_iff_exists'.mp hne
  obtain ⟨hmem, hs, -⟩ := h.alloc_block b hb
  have hpos := pos_of_mem_blocks hmem
  unfold skipRestOfBlock at hb hs
  split at hb
  · rename_i b' hb'
    split_ifs at hb with hstate
    · simp [closeBlock] at hb
    · obtain rfl : b' = b := Option.some.inj (hb'.symm.trans hb)
      simp only [hb', if_neg hstate] at hs
      exact hstate ⟨hpos, hs⟩
  · rename_i hnone
    rw [hnone] at hb
    simp at hb

/-- A written summary closes its block. -/
theorem summaryWrite_spec (h : Ready g T S d) (hb : d.alloc.block = some b)
    (hp : d.alloc.page = g.chunksPerSummary) (hy : g.isYaffs2 = true) :
    Extends g T S d (summaryWrite g e b d) := by
  have hlt := chunksPerSummary_lt (g := g)
  have hfill := summaryWriteLoop_spec (e := e) ⟨1, b, (d.blockInfo b).seqNumber, summarySum g d⟩
    (summaryArray g d) (g.chunksPerBlock - g.chunksPerSummary) g.chunksPerSummary 1 0
    (summaryTagsSize * g.chunksPerSummary) d h.blk h.covers hb (h.opn.noSummary b hb)
    (fun c hc hi => h.opn.clear b hb c hc (hp ▸ hi)) (by omega)
  unfold summaryWrite
  simp only
  split_ifs
  · generalize (summaryWriteLoop g e b _ _ _ _ _ _ _ d).1 = d' at hfill ⊢
    obtain ⟨hmem, hs, -⟩ := hfill.ext.keeps.blk.alloc_block b (hfill.alloc ▸ hb)
    have hset := hfill.ext.keeps.blk.setSummary hs hy fun c hc hbit hi => by
      refine hfill.ext.new c ?_ hbit
      exact h.opn.clear b hb c hc (hp ▸ hi)
    refine hfill.ext.trans (Extends.of_unused ⟨hset, fun soft k hf => hf.flags (fun _ => rfl) fun _ => rfl,
      fun hck => hck.of_state rfl fun b' _ => ?_, ?_⟩ rfl fun _ _ => rfl)
    · by_cases hne : b' = b <;> simp [BlockDev.modBlock, hne]
    · exact Frame.modBlock (h.covers.allocBlock h.blk hb) _
  · exact hfill.ext

theorem summaryAdd_spec (h : Ready g T S d) (t : ExtTags) (hat : AtSummary g c d) :
    Extends g T S d (summaryAdd g e t c d) ∧ OpenInv g (summaryAdd g e t c d) := by
  have hsum : ∀ f : ℕ → SummaryTags, Ready g T S { d with sumTags := f } ∧
      Extends g T S d { d with sumTags := f } := fun f =>
    have hblk : BlkInv g T { d with sumTags := f } := { h.blk with }
    ⟨⟨hblk, { h.opn with }, h.covers⟩, Extends.of_unused ⟨hblk, fun _ _ hf => { hf with }, fun hc => hc,
      { Frame.refl S d with }⟩ rfl fun _ _ => rfl⟩
  unfold summaryAdd
  simp only
  split_ifs with hcond hlast
  · obtain ⟨hb, hp⟩ := hat hlast
    obtain ⟨hready, hext⟩ := hsum (Function.update d.sumTags (c % g.chunksPerBlock) (packTags2TagsOnly t))
    have hy : g.isYaffs2 = true := by
      simp only [Param.hasSummaries, Bool.and_eq_true] at hcond
      exact hcond.1.1
    have hw := summaryWrite_spec (e := e) hready hb hp hy
    generalize summaryWrite g e _ _ = d' at hw ⊢
    have hclear : Extends g T S d' (summaryClear d') :=
      Extends.of_unused ⟨{ hw.keeps.blk with }, fun _ _ hf => { hf with }, fun hc => hc,
        { Frame.refl S d' with }⟩ rfl fun _ _ => rfl
    have hcov := hclear.keeps.frame.covers (hw.keeps.frame.covers hready.covers)
    have hskip := skipRestOfBlock_spec hclear.keeps.blk hcov
    exact ⟨hext.trans (hw.trans (hclear.trans hskip.1.extends)), hskip.1.opn⟩
  · obtain ⟨hready, hext⟩ := hsum (Function.update d.sumTags (c % g.chunksPerBlock) (packTags2TagsOnly t))
    exact ⟨hext, hready.opn⟩
  · exact ⟨Extends.of_unused (Keeps.refl h.blk) rfl fun _ _ => rfl, h.opn⟩

/-! ## Deleting a chunk -/

/-- A deletion leaves the cursor on its block, and no page to be allocated in use. -/
theorem DeletedChunk.opn {d' : BlockDev} (h : DeletedChunk g T c d d') (hd : BlkInv g T d)
    (ho : OpenInv g d) : OpenInv g d' := by
  have halloc : d'.alloc = d.alloc := h.quiet.alloc
  have hbits := h.quiet.bits
  refine ⟨fun b hb => ?_, fun b hb c' hc' hp => ?_, fun b hb => ?_⟩ <;> rw [halloc] at hb
  · rw [halloc]
    exact ho.page_lt b hb
  · have := ho.clear b hb c' hc' (halloc ▸ hp)
    rw [hbits]
    by_cases hne : c' = c <;> simp [BlockDev.clearChunkBit, hne, this]
  · obtain ⟨-, hs, -⟩ := hd.alloc_block b hb
    by_cases hbc : b = c / g.chunksPerBlock
    · rcases h.block with hblock | ⟨hcol, -⟩
      · rw [hbc, hblock, ← hbc]
        exact ho.noSummary b hb
      · rw [← hbc, hs] at hcol
        simp [BlockState.collectable] at hcol
    · have hinfo := h.quiet.info b (by
        rintro (hck | hb')
        · exact absurd (hs.symm.trans hck) (by decide)
        · exact hbc hb')
      rw [hinfo]
      exact ho.noSummary b hb

theorem DeletedChunk.programmed {d' : BlockDev} (h : DeletedChunk g T c d d')
    (hp : ∀ c', c' ≠ c → d.chunkBits c' = true → d.nand.flash c' ≠ none) : Programmed d' := by
  intro c' hc'
  have hlive := congrFun h.live c'
  have hbits : (d.clearChunkBit c).chunkBits c' = true := by rw [← h.quiet.bits, hc']
  by_cases hne : c' = c
  · simp [BlockDev.clearChunkBit, hne] at hbits
  · have hold : d.chunkBits c' = true := by
      simpa [BlockDev.clearChunkBit, hne] using hbits
    rw [Function.update_of_ne hne] at hlive
    simp only [BlockDev.live, hc', hold, if_true] at hlive
    rw [hlive]
    exact hp c' hne hold

theorem DeletedChunk.kept {d' : BlockDev} (h : DeletedChunk g T c d d') :
    d'.kept = Function.update d.kept c none := by
  funext c'
  by_cases hne : c' = c <;> simp [BlockDev.kept, h.live, hne]

/-! ## Writing a chunk -/

/-- What a write keeps, with the pages then kept on the device. -/
structure Wrote (g : Geometry) (T : ℕ → BlockState → Prop) (S : ℕ → Prop) (d d' : BlockDev)
    (kept : ℕ → Option Page) : Prop where
  keeps : Keeps g T S d d'
  opn : OpenInv g d'
  programmed : Programmed d → Programmed d'
  kept : d'.kept = kept

theorem Wrote.ready {d' : BlockDev} {f : ℕ → Option Page} (h : Wrote g T S d d' f)
    (hd : Ready g T S d) : Ready g T S d' :=
  ⟨h.keeps.blk, h.opn, h.keeps.frame.covers hd.covers⟩

theorem Extends.wrote {d' : BlockDev} (h : Extends g T S d d') (ho : OpenInv g d') :
    Wrote g T S d d' d.kept :=
  ⟨h.keeps, ho, h.programmed, h.kept⟩

theorem Wrote.trans {d' d'' : BlockDev} {f : ℕ → Option Page} (h : Wrote g T S d d' d.kept)
    (h' : Wrote g T S d' d'' f) : Wrote g T S d d'' f :=
  ⟨h.keeps.trans h'.keeps, h'.opn, fun hp => h'.programmed (h.programmed hp), h'.kept⟩

/-- A step that reads, and changes flags of blocks the write may touch. -/
structure Flagged (g : Geometry) (T : ℕ → BlockState → Prop) (S : ℕ → Prop) (d d' : BlockDev) : Prop where
  keeps : Keeps g T S d d'
  alloc : d'.alloc = d.alloc
  bits : d'.chunkBits = d.chunkBits
  flash : d'.nand.flash = d.nand.flash
  summary : ∀ b, (d'.blockInfo b).hasSummary = (d.blockInfo b).hasSummary

namespace Flagged

variable {d' d'' : BlockDev}

theorem trans (h : Flagged g T S d d') (h' : Flagged g T S d' d'') : Flagged g T S d d'' where
  keeps := h.keeps.trans h'.keeps
  alloc := h'.alloc.trans h.alloc
  bits := h'.bits.trans h.bits
  flash := h'.flash.trans h.flash
  summary := fun b => (h'.summary b).trans (h.summary b)

theorem opn (h : Flagged g T S d d') (ho : OpenInv g d) : OpenInv g d' :=
  ⟨fun b hb => by rw [h.alloc] at hb ⊢; exact ho.page_lt b hb,
    fun b hb c hc hp => by rw [h.alloc] at hb hp; rw [h.bits]; exact ho.clear b hb c hc hp,
    fun b hb => by rw [h.alloc] at hb; rw [h.summary]; exact ho.noSummary b hb⟩

theorem «extends» (h : Flagged g T S d d') : Extends g T S d d' :=
  Extends.of_unused h.keeps h.bits fun _ _ => by rw [h.flash]

theorem refl (h : BlkInv g T d) : Flagged g T S d d :=
  ⟨Keeps.refl h, rfl, rfl, rfl, fun _ => rfl⟩

/-- Change flags of block `b`. -/
theorem modBlock (h : BlkInv g T d) (hb : S b) {f : BlockInfo → BlockInfo}
    (hf : ∀ bi, f bi = { bi with
      needsRetiring := (f bi).needsRetiring, skipErasedCheck := (f bi).skipErasedCheck
      gcPrioritise := (f bi).gcPrioritise, chunkErrorStrikes := (f bi).chunkErrorStrikes }) :
    Flagged g T S d (d.modBlock b f) where
  keeps := {
    blk := h.flags (fun bi => by rw [hf bi]) (fun bi => by rw [hf bi]) (fun bi => by rw [hf bi])
      fun bi => by rw [hf bi]
    free := fun soft k hfr => hfr.flags (fun bi => by rw [hf bi]) fun bi => by rw [hf bi]; rfl
    checkptInv := fun hc => hc.of_state rfl fun b' _ => by
      by_cases hne : b' = b
      · subst hne
        simp only [BlockDev.modBlock, Function.update_self]
        rw [hf]
      · simp [BlockDev.modBlock, hne]
    frame := Frame.modBlock hb f }
  alloc := rfl
  bits := rfl
  flash := rfl
  summary := fun b' => by
    by_cases hne : b' = b
    · subst hne
      simp only [BlockDev.modBlock, Function.update_self]
      rw [hf]
    · simp [BlockDev.modBlock, hne]

end Flagged

theorem driverRead_flagged (h : BlkInv g T d) : Flagged g T S d (driverRead e d).1 :=
  { Flagged.refl (S := S) h with
    keeps := ⟨{ h with }, fun _ _ hf => { hf with }, fun hc => hc,
      { Frame.refl S d with }⟩ }

theorem handleChunkError_flagged (h : BlkInv g T d) (hb : S b) :
    Flagged g T S d (handleChunkError b d) := by
  unfold handleChunkError
  split_ifs
  · exact Flagged.refl h
  · have h1 := Flagged.modBlock (S := S) h hb (f := fun bi =>
      let strikes := (bi.chunkErrorStrikes + 1) % 8
      { bi with
        gcPrioritise := true
        chunkErrorStrikes := strikes
        needsRetiring := bi.needsRetiring || decide (3 < strikes) }) fun _ => rfl
    exact { h1 with
      keeps := { h1.keeps with
        blk := { h1.keeps.blk with }
        free := fun soft k hf => { h1.keeps.free soft k hf with }
        frame := { h1.keeps.frame with } } }

theorem erasedCheck_flagged (h : BlkInv g T d) (hb : S (c / g.chunksPerBlock)) :
    Flagged g T S d (erasedCheck g e c d).1 := by
  have h1 : Flagged g T S d (if g.alwaysCheckErased then
      d.modBlock (c / g.chunksPerBlock) (fun bi => { bi with skipErasedCheck := false }) else d) := by
    split_ifs
    · exact Flagged.modBlock h hb fun _ => rfl
    · exact Flagged.refl h
  unfold erasedCheck
  simp only
  split_ifs at h1 ⊢ <;> first | exact h1 | exact h1.trans (driverRead_flagged (e := e) h1.keeps.blk)

/-- Chunk `c` has come into use; pages that were in use stay, and other pages that come
into use are summary pages. -/
structure Holds (g : Geometry) (T : ℕ → BlockState → Prop) (S : ℕ → Prop) (c : ℕ)
    (d d' : BlockDev) : Prop where
  keeps : Keeps g T S d d'
  opn : OpenInv g d'
  unused : d.chunkBits c = false
  touch : S (c / g.chunksPerBlock)
  bit : d'.chunkBits c = true
  old : ∀ c', d.chunkBits c' = true → d'.chunkBits c' = true ∧ d'.nand.flash c' = d.nand.flash c'
  new : ∀ c', c' ≠ c → d.chunkBits c' = false → d'.chunkBits c' = true →
    ∃ p, d'.nand.flash c' = some p ∧ p.tags.objId = objectIdSummary

namespace Holds

variable {d' d'' : BlockDev}

theorem ne (h : Holds g T S c d d') {c' : ℕ} (hc : d.chunkBits c' = true) : c' ≠ c := by
  rintro rfl
  simp [h.unused] at hc

theorem extend (h : Holds g T S c d d') (h' : Extends g T S d' d'') (ho : OpenInv g d'') :
    Holds g T S c d d'' where
  keeps := h.keeps.trans h'.keeps
  opn := ho
  unused := h.unused
  touch := h.touch
  bit := (h'.old c h.bit).1
  old := fun c' hc =>
    have h1 := h.old c' hc
    have h2 := h'.old c' h1.1
    ⟨h2.1, h2.2.trans h1.2⟩
  new := fun c' hne hc hc' => by
    cases hmid : d'.chunkBits c' with
    | true =>
      rw [(h'.old c' hmid).2]
      exact h.new c' hne hc hmid
    | false => exact h'.new c' hmid hc'

/-- The driver is asked to program the chunk, before its block has a summary. -/
theorem driverWrite (h : Holds g T S c d d') (p : Page)
    (hsum : (d'.blockInfo (c / g.chunksPerBlock)).hasSummary = false) :
    Holds g T S c d (driverWrite e c p d').1 where
  keeps := h.keeps.trans ⟨h.keeps.blk.driverWrite p fun _ => hsum, fun _ _ hf => { hf with },
    fun hck => hck, { Frame.refl S d' with }⟩
  opn := { h.opn with }
  unused := h.unused
  touch := h.touch
  bit := h.bit
  old := fun c' hc => by simpa [Yaffs.driverWrite, h.ne hc] using h.old c' hc
  new := fun c' hne hc hc' => by simpa [Yaffs.driverWrite, hne] using h.new c' hne hc hc'

theorem kept (h : Holds g T S c d d') : d'.kept =
    Function.update d.kept c ((d'.nand.flash c).filter fun p => p.tags.objId ≠ objectIdSummary) := by
  funext c'
  by_cases hne : c' = c
  · simp [hne, BlockDev.kept, BlockDev.live, h.bit]
  · rw [Function.update_of_ne hne]
    unfold BlockDev.kept BlockDev.live
    cases hc : d.chunkBits c' with
    | true => simp [h.old c' hc]
    | false =>
      cases hc' : d'.chunkBits c' with
      | true =>
        obtain ⟨p, hp, hid⟩ := h.new c' hne hc hc'
        simp [hp, hid]
      | false => simp

theorem programmed (h : Holds g T S c d d') (hp : Programmed d) :
    ∀ c', c' ≠ c → d'.chunkBits c' = true → d'.nand.flash c' ≠ none := by
  intro c' hne hc'
  cases hc : d.chunkBits c' with
  | true =>
    rw [(h.old c' hc).2]
    exact hp c' hc
  | false =>
    obtain ⟨p, hp, -⟩ := h.new c' hne hc hc'
    simp [hp]

/-- The chunk is given up, and the rest of its block with it. -/
theorem discard (h : Holds g T S c d d') (hd : Ready g T S d) (m : Bool) :
    Wrote g T S d (skipRestOfBlock (chunkDel g e c m d')) d.kept := by
  have hdel := chunkDel_spec (e := e) h.keeps.blk h.bit m
  have hcov := h.keeps.frame.covers hd.covers
  have hS : ∀ b, checkptOr d' (c / g.chunksPerBlock) b → S b := by
    rintro b (hck | rfl)
    · refine hcov b ?_
      unfold isCheckpt at hck
      simp [notCollectable, hck, BlockState.collectable]
    · exact h.touch
  have hkeeps : Keeps g T S d (chunkDel g e c m d') := {
    blk := hdel.blk
    free := fun soft k hf => hdel.free soft k (by
      by_contra hs
      simpa [h.unused] using hf.soft_bit c (by simpa using hs)) (h.keeps.free soft k hf)
    checkptInv := fun hck => hdel.checkptInv (h.keeps.checkptInv hck)
    frame := h.keeps.frame.trans { (hdel.quiet.frame.mono hS) with } }
  have hskip := (skipRestOfBlock_spec hdel.blk (hkeeps.frame.covers hd.covers)).1
  have hunused : d.kept c = none := by simp [BlockDev.kept, BlockDev.live, h.unused]
  exact {
    keeps := hkeeps.trans hskip.keeps
    opn := hskip.opn
    programmed := fun hp => hskip.extends.programmed (hdel.programmed (h.programmed hp))
    kept := by rw [hskip.extends.kept, hdel.kept, h.kept, Function.update_idem, ← hunused,
      Function.update_eq_self] }

end Holds

theorem Allocated.holds {d' : BlockDev} (h : Allocated g T S c d d') : Holds g T S c d d' where
  keeps := h.keeps
  opn := h.opn
  unused := h.unused
  touch := h.touch
  bit := by simp [h.bits]
  old := fun c' hc => by simp [h.bits, h.nand, Function.update_apply, hc]
  new := fun c' hne hc hc' => by simp [h.bits, hne, hc] at hc'

/-- `p` holds what a write with the data `data` and the tags `t` put there. -/
structure PageOf (data : PageData) (t : ExtTags) (p : Page) : Prop where
  data : p.data = data
  objId : p.tags.objId = t.objId
  chunkId : p.tags.chunkId = t.chunkId
  nBytes : p.tags.nBytes = t.nBytes
  unmarked : p.tags.isDeleted = false

/-- The chunk may be programmed, and counted in the summary of its block. -/
structure Placed (g : Geometry) (c : ℕ) (d : BlockDev) : Prop where
  noSummary : (d.blockInfo (c / g.chunksPerBlock)).hasSummary = false
  atSummary : AtSummary g c d

theorem Allocated.placed {d' : BlockDev} (h : Allocated g T S c d d') : Placed g c d' where
  noSummary := h.noSummary
  atSummary := fun hc => by
    have := chunksPerSummary_lt (g := g)
    obtain ⟨hb, hp⟩ := h.next (by omega)
    exact ⟨hb, by omega⟩

theorem Flagged.placed {d' : BlockDev} (h : Flagged g T S d d') (hp : Placed g c d) :
    Placed g c d' where
  noSummary := by rw [h.summary]; exact hp.noSummary
  atSummary := fun hc => by rw [h.alloc]; exact hp.atSummary hc

theorem wrChunkTagsNand_spec {d' : BlockDev} (hd : Ready g T S d) (h : Holds g T S c d d')
    (hp : Placed g c d') (data : PageData) (t : ExtTags) :
    Holds g T S c d (wrChunkTagsNand g e c data t d').1 ∧
    (wrChunkTagsNand g e c data t d').1.nand.flash c =
      if (wrChunkTagsNand g e c data t d').2 then some ⟨stampTags d' t, data⟩
      else e.leavesPage d'.nand.calls := by
  have h1 := h.driverWrite (e := e) ⟨stampTags d' t, data⟩ hp.noSummary
  have hready : Ready g T S (driverWrite e c ⟨stampTags d' t, data⟩ d').1 :=
    ⟨h1.keeps.blk, h1.opn, h1.keeps.frame.covers hd.covers⟩
  have hadd := summaryAdd_spec (e := e) (c := c) hready (stampTags d' t) hp.atSummary
  refine ⟨h1.extend hadd.1 hadd.2, ?_⟩
  rw [wrChunkTagsNand, (hadd.1.old c h1.bit).2]
  simp only [driverWrite, Function.update_self]
  rfl

theorem programChunk_holds {d' : BlockDev} (hd : Ready g T S d) (h : Holds g T S c d d')
    (hp : Placed g c d') (data : PageData) (t : ExtTags) :
    Holds g T S c d (programChunk g e c data t d').1 := by
  obtain ⟨h1, -⟩ := wrChunkTagsNand_spec (e := e) hd h hp data t
  unfold programChunk
  simp only
  split_ifs
  · exact h1
  · have hread := driverRead_flagged (e := e) (S := S) h1.keeps.blk
    exact h1.extend hread.extends (hread.opn h1.opn)

/-- A programmed chunk that passed its checks holds what was to be written. -/
theorem programChunk_page {d' : BlockDev} (hd : Ready g T S d) (h : Holds g T S c d d')
    (hp : Placed g c d') (data : PageData) (t : ExtTags) (hok : (programChunk g e c data t d').2 = true) :
    ∃ p, (programChunk g e c data t d').1.nand.flash c = some p ∧ p.data = data ∧
      p.tags.objId = t.objId ∧ p.tags.chunkId = t.chunkId ∧ p.tags.nBytes = t.nBytes ∧
        (t.isDeleted = false → p.tags.isDeleted = false) := by
  obtain ⟨-, hflash⟩ := wrChunkTagsNand_spec (e := e) hd h hp data t
  unfold programChunk at hok ⊢
  simp only at hok ⊢
  split_ifs at hok ⊢ with hskip
  · refine ⟨⟨stampTags d' t, data⟩, ?_, rfl, rfl, rfl, rfl, id⟩
    rw [hflash, hok, if_pos rfl]
  · unfold verifyChunkWritten driverRead at hok ⊢
    simp only at hok ⊢
    cases hq : (wrChunkTagsNand g e c data t d').1.nand.flash c with
    | none => simp [hq] at hok
    | some p =>
      simp only [hq, Bool.and_eq_true, decide_eq_true_eq] at hok
      refine ⟨p, rfl, hok.2.1.1.1, hok.2.1.1.2, hok.2.1.2, hok.2.2, fun ht => ?_⟩
      rw [hq] at hflash
      split_ifs at hflash
      · obtain rfl := Option.some.inj hflash
        exact ht
      · exact e.leavesPage_unmarked _ p hflash.symm

theorem programChunk_spec {d' : BlockDev} (hd : Ready g T S d) (h : Holds g T S c d d')
    (hp : Placed g c d') (data : PageData) {t : ExtTags} (ht : t.isDeleted = false) :
    Holds g T S c d (programChunk g e c data t d').1 ∧
    ((programChunk g e c data t d').2 = true → ∃ p,
      (programChunk g e c data t d').1.nand.flash c = some p ∧ PageOf data t p) := by
  refine ⟨programChunk_holds hd h hp data t, fun hok => ?_⟩
  obtain ⟨p, hflash, hdata, hobj, hchunk, hn, hdel⟩ := programChunk_page hd h hp data t hok
  exact ⟨p, hflash, hdata, hobj, hchunk, hn, hdel ht⟩

theorem handleChunkWrError_spec {d' : BlockDev} (hd : Ready g T S d) (h : Holds g T S c d d')
    (erasedOk : Bool) : Wrote g T S d (handleChunkWrError g e c erasedOk d') d.kept := by
  have h1 := handleChunkError_flagged (S := S) h.keeps.blk h.touch
  have h2 : Flagged g T S (handleChunkError (c / g.chunksPerBlock) d')
      (if erasedOk then (handleChunkError (c / g.chunksPerBlock) d').modBlock (c / g.chunksPerBlock)
        (fun bi => { bi with needsRetiring := true })
      else handleChunkError (c / g.chunksPerBlock) d') := by
    split_ifs
    · exact Flagged.modBlock h1.keeps.blk h.touch fun _ => rfl
    · exact Flagged.refl h1.keeps.blk
  have h12 := h1.trans h2
  exact (h.extend h12.extends (h12.opn h.opn)).discard hd true

/-- What a write leaves on the device when it ends with the chunk `r`, or with none. -/
def WriteResult (g : Geometry) (T : ℕ → BlockState → Prop) (S : ℕ → Prop) (data : PageData)
    (t : ExtTags) (d d' : BlockDev) : Option ℕ → Prop
  | none => Wrote g T S d d' d.kept
  | some c => d.kept c = none ∧ S (c / g.chunksPerBlock) ∧
    ∃ p, PageOf data t p ∧ Wrote g T S d d' (Function.update d.kept c (some p))

theorem WriteResult.after {d' d'' : BlockDev} {data : PageData} {t : ExtTags} {r : Option ℕ}
    (hw : Wrote g T S d d' d.kept) (h : WriteResult g T S data t d' d'' r) :
    WriteResult g T S data t d d'' r := by
  unfold WriteResult at h ⊢
  rw [hw.kept] at h
  cases r with
  | none => exact hw.trans h
  | some c =>
    obtain ⟨hunused, htouch, p, hof, h⟩ := h
    exact ⟨hunused, htouch, p, hof, hw.trans h⟩

/-- The chunk with which a round ends. -/
def Attempt.chunk : Attempt → Option ℕ
  | .written c => some c
  | _ => none

theorem writeAttempt_spec (h : Ready g T S d) (data : PageData) {t : ExtTags}
    (ht : t.isDeleted = false) (hid : t.objId ≠ objectIdSummary) (useReserver : Bool) :
    WriteResult g T S data t d (writeAttempt g e data t useReserver d).1
      (writeAttempt g e data t useReserver d).2.chunk := by
  have halloc := allocChunk_spec h useReserver
  unfold writeAttempt
  split
  · rename_i d1 heq
    rw [heq] at halloc
    exact halloc.extends.wrote halloc.opn
  · rename_i d1 c heq
    rw [heq] at halloc
    have hcheck := erasedCheck_flagged (e := e) (S := S) halloc.keeps.blk halloc.touch
    have h2 := halloc.holds.extend hcheck.extends (hcheck.opn halloc.opn)
    have hp2 := hcheck.placed halloc.placed
    simp only
    split_ifs with hok hwr
    · obtain ⟨h3, hpage⟩ := programChunk_spec (e := e) h h2 hp2 data ht
      obtain ⟨p, hp, hof⟩ := hpage hwr
      have h4 := Flagged.modBlock (S := S) h3.keeps.blk h3.touch
        (f := fun bi => { bi with skipErasedCheck := true }) fun _ => rfl
      have h5 := h3.extend h4.extends (h4.opn h3.opn)
      have hflash : ((programChunk g e c data t (erasedCheck g e c d1).1).1.modBlock
          (c / g.chunksPerBlock) fun bi => { bi with skipErasedCheck := true }).nand.flash c = some p := hp
      have hunused : d.kept c = none := by simp [BlockDev.kept, BlockDev.live, h5.unused]
      refine ⟨hunused, h5.touch, p, hof, h5.keeps, h5.opn, fun hprog c' hc' => ?_, ?_⟩
      · by_cases hne : c' = c
        · rw [hne, hflash]
          simp
        · exact h5.programmed hprog c' hne hc'
      · have hkeep : p.tags.objId ≠ objectIdSummary := hof.objId ▸ hid
        rw [h5.kept, hflash, Option.filter_some, decide_eq_true hkeep, if_pos rfl]
    · exact handleChunkWrError_spec h (programChunk_spec (e := e) h h2 hp2 data ht).1 _
    · exact h2.discard h true

theorem writeNewChunkLoop_spec (data : PageData) {t : ExtTags} (ht : t.isDeleted = false)
    (hid : t.objId ≠ objectIdSummary) (useReserver : Bool) (n : ℕ) :
    ∀ (attempts : ℕ) (d : BlockDev), Ready g T S d →
      WriteResult g T S data t d (writeNewChunkLoop g e data t useReserver n attempts d).1
        (writeNewChunkLoop g e data t useReserver n attempts d).2 := by
  induction n with
  | zero =>
    intro _ d h
    exact (Flagged.refl h.blk).extends.wrote h.opn
  | succ n ih =>
    intro attempts d h
    have hround := writeAttempt_spec (e := e) h data ht hid useReserver
    unfold writeNewChunkLoop
    split
    · rename_i d' heq
      rw [heq] at hround
      exact hround
    · rename_i d' c heq
      rw [heq] at hround
      exact hround
    · rename_i d' heq
      rw [heq] at hround
      have hw : Wrote g T S d d' d.kept := hround
      split_ifs
      · exact (ih (attempts + 1) d' (hw.ready h)).after hw
      · exact hw

theorem checkptInvalidate_extends (h : Ready g T S d) : Extends g T S d (checkptInvalidate g e d) := by
  have hq := checkptInvalidate_quiet (e := e) h.blk
  have hno : ∀ c, isCheckpt d (c / g.chunksPerBlock) → d.chunkBits c = false := fun c hc =>
    h.blk.noBits (by
      unfold isCheckpt at hc
      simp [hc, BlockState.inService]) c rfl
  refine Extends.of_unused ⟨checkptInvalidate_blk h.blk, fun soft k hf =>
    checkptInvalidate_free h.blk hf, fun hc => (checkptInvalidate_noCheckpt h.blk hc).checkptInv,
    { (hq.frame.mono fun b hb => h.covers b ?_) with }⟩ hq.bits fun c hc => hq.flash c fun hck => ?_
  · unfold isCheckpt at hb
    simp [notCollectable, hb, BlockState.collectable]
  · simp [hno c hck] at hc

/-- A write starts by invalidating the checkpoint. -/
theorem checkptInvalidate_wrote (h : Ready g T S d) :
    Wrote g T S d (checkptInvalidate g e d) d.kept := by
  have hq := checkptInvalidate_quiet (e := e) h.blk
  refine (checkptInvalidate_extends h).wrote ⟨fun b hb => ?_, fun b hb c hc hp => ?_, fun b hb => ?_⟩ <;>
    rw [hq.alloc] at hb
  · rw [hq.alloc]
    exact h.opn.page_lt b hb
  · rw [hq.bits]
    exact h.opn.clear b hb c hc (hq.alloc ▸ hp)
  · obtain ⟨-, hs, -⟩ := h.blk.alloc_block b hb
    rw [hq.info b (by simp [isCheckpt, hs])]
    exact h.opn.noSummary b hb

/-- A write puts one page with the data and the tags on the device, or leaves the pages
kept there as they are. -/
theorem writeNewChunk_spec (h : Ready g T S d) (data : PageData) {t : ExtTags}
    (ht : t.isDeleted = false) (hid : t.objId ≠ objectIdSummary) (useReserver : Bool) :
    WriteResult g T S data t d (writeNewChunk g e data t useReserver d).1
      (writeNewChunk g e data t useReserver d).2 := by
  have hinv := checkptInvalidate_wrote (e := e) h
  exact (writeNewChunkLoop_spec data ht hid useReserver _ 0 _ (hinv.ready h)).after hinv

end Yaffs
