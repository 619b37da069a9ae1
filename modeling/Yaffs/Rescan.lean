import Yaffs.Compat
import Yaffs.Invariant
import Yaffs.Mount

/-!
# Two pages of one chunk

A crash between the programming of a page and the deletion of the one it replaces leaves two
pages of the chunk on flash. `yaffs1_scan` meets them in the order of their numbers, and goes by
the two bits of their serial numbers. `Scanned` is what holds between two pages of the scan : the
pages in use are as they were found, objects have the type the flash gives them, and the entry of
the chunk is that of the page to be kept.
-/

namespace Yaffs

open Tally

variable {g : Geometry} {e : Env} {d d' : BlockDev} {b c : ℕ}

/-! ## Blocks during a scan -/

/-- There is no checkpoint, as on every yaffs1 device. -/
def Uncheckpointed (d : BlockDev) : Prop :=
  ∀ b, (d.blockInfo b).blockState ≠ .checkpoint

theorem foldl_checkptErase_uncheckpointed (h : Uncheckpointed d) (l : List ℕ) :
    l.foldl (checkptEraseBlock g e) d = d := by
  induction l with
  | nil => rfl
  | cons b l ih =>
    have hb : checkptEraseBlock g e d b = d := if_neg (h b)
    rw [List.foldl_cons, hb, ih]

/-- Without a checkpoint nothing is erased with it. -/
theorem checkptInvalidate_uncheckpointed (h : Uncheckpointed d) : ∃ flag n,
    checkptInvalidate g e d = { d with isCheckpointed := flag, blocksInCheckpt := n } := by
  unfold checkptInvalidate
  split_ifs
  · refine ⟨false, 0, ?_⟩
    unfold checkptErase
    rw [foldl_checkptErase_uncheckpointed (d := { d with isCheckpointed := false }) h]
  · exact ⟨d.isCheckpointed, d.blocksInCheckpt, rfl⟩

theorem checkptInvalidate_quiet' (h : Uncheckpointed d) (S : ℕ → Prop) :
    Quiet g S d (checkptInvalidate g e d) ∧ Uncheckpointed (checkptInvalidate g e d) := by
  obtain ⟨flag, n, heq⟩ := checkptInvalidate_uncheckpointed (g := g) (e := e) h
  rw [heq]
  exact ⟨{ Quiet.refl S d with }, h⟩

/-- What erasing or retiring the unused block `b` leaves. -/
structure Disused (g : Geometry) (b : ℕ) (d d' : BlockDev) : Prop where
  quiet : Quiet g (· = b) d d'
  uncheckpointed : Uncheckpointed d'
  pages : (d'.blockInfo b).pagesInUse = 0

theorem retireBlock_disused (h : Uncheckpointed d) (hp : (d.blockInfo b).pagesInUse = 0) :
    Disused g b d (retireBlock g e b d) := by
  obtain ⟨hq, hu⟩ := checkptInvalidate_quiet' (g := g) (e := e) h (· = b)
  obtain ⟨flag, m, heq⟩ := checkptInvalidate_uncheckpointed (g := g) (e := e) h
  obtain ⟨n, hn, hflash⟩ := markRetired_eq g e b (clearOldestDirtySeq g b (checkptInvalidate g e d))
  have hq2 := hq.trans (clearOldestDirtySeq_quiet (b := b) (· = b))
  have hinfo : (clearOldestDirtySeq g b (checkptInvalidate g e d)).blockInfo = d.blockInfo := by
    rw [clearOldestDirtySeq_blockInfo, heq]
  unfold retireBlock
  rw [hn]
  refine ⟨{ hq2 with
    info := fun b' hb' => ?_
    flash := fun c hc => (hflash c hc).trans (hq2.flash c hc) }, fun b' => ?_, ?_⟩
  · simpa [BlockDev.modBlock, hb'] using congrFun hinfo b'
  · by_cases hb' : b' = b
    · simp [BlockDev.modBlock, hb']
    · simpa [BlockDev.modBlock, hb', hinfo] using h b'
  · simpa [BlockDev.modBlock, hinfo] using hp

/-- A block without pages in use that became dirty. -/
theorem blockBecameDirty_disused (h : Uncheckpointed d) (hno : NoBits g b d.chunkBits)
    (hp : (d.blockInfo b).pagesInUse = 0) : Disused g b d (blockBecameDirty g e b d) := by
  have hq1 : Quiet g (· = b) d (becomeDirty g b d) :=
    becomeDirty_quiet.mono fun b' hb' => hb'.resolve_left (h b')
  have hu1 : Uncheckpointed (becomeDirty g b d) := by
    intro b'
    by_cases hb' : b' = b
    · simp [hb', becomeDirty_state]
    · rw [hq1.info b' hb']
      exact h b'
  have hp1 : ((becomeDirty g b d).blockInfo b).pagesInUse = 0 := by
    simpa [becomeDirty, BlockDev.setState, BlockDev.modBlock, clearOldestDirtySeq_blockInfo] using hp
  have herase : Quiet g (· = b) d (eraseUnlessRetiring g e b (becomeDirty g b d)).1 ∧
      Uncheckpointed (eraseUnlessRetiring g e b (becomeDirty g b d)).1 ∧
      ((eraseUnlessRetiring g e b (becomeDirty g b d)).1.blockInfo b).pagesInUse = 0 := by
    unfold eraseUnlessRetiring
    split_ifs
    · exact ⟨hq1, hu1, hp1⟩
    · obtain ⟨hq, hu⟩ := checkptInvalidate_quiet' (g := g) (e := e) hu1 (· = b)
      obtain ⟨flag, m, heq⟩ := checkptInvalidate_uncheckpointed (g := g) (e := e) hu1
      have hq2 := hq1.trans hq
      refine ⟨{ hq2 with flash := fun c hc => ?_ }, hu, ?_⟩
      · simpa [eraseBlock, hc] using hq2.flash c hc
      · simpa [eraseBlock, heq] using hp1
  obtain ⟨hq2, hu2, hp2⟩ := herase
  have hno2 : NoBits g b (eraseUnlessRetiring g e b (becomeDirty g b d)).1.chunkBits := by
    rw [hq2.bits]
    exact hno
  unfold blockBecameDirty
  dsimp only
  split_ifs
  · refine ⟨hq2.trans (cleanBlock_quiet hno2), fun b' => ?_, ?_⟩
    · by_cases hb' : b' = b
      · simp [cleanBlock, clearChunkBits, BlockDev.modBlock, hb']
      · simpa [cleanBlock, clearChunkBits, BlockDev.modBlock, hb'] using hu2 b'
    · simp [cleanBlock, clearChunkBits, BlockDev.modBlock]
  · generalize (eraseUnlessRetiring g e b (becomeDirty g b d)).1 = d2 at *
    have hq3 : Quiet g (· = b) d { d2 with nFreeChunks := d2.nFreeChunks - g.chunksPerBlock } := { hq2 with }
    have hr := retireBlock_disused (g := g) (e := e) (b := b)
      (d := { d2 with nFreeChunks := d2.nFreeChunks - g.chunksPerBlock }) hu2 hp2
    exact ⟨hq3.trans hr.quiet, hr.uncheckpointed, hr.pages⟩

/-! ## Pages met -/

/-- The pages in use of a device being scanned, of which the pages below `n` have been met. The pages
are as they are on `flash`, and the blocks still to be scanned in the state `state`. -/
structure MetPages (g : Geometry) (flash : ℕ → Option Page) (state : ℕ → BlockState) (n : ℕ) (d : BlockDev) :
    Prop where
  uncheckpointed : Uncheckpointed d
  met : ∀ c, d.chunkBits c = true → c < n
  mem : ∀ c, d.chunkBits c = true → c ∈ g.chunks
  used : ∀ c, d.chunkBits c = true → d.nand.flash c = flash c
  holds : ∀ c, d.chunkBits c = true → (d.blockInfo (c / g.chunksPerBlock)).blockState.holdsChunks = true
  pages : ∀ b, countChunkBits g b d.chunkBits ≤ (d.blockInfo b).pagesInUse
  ahead : ∀ b, n ≤ b * g.chunksPerBlock → (d.blockInfo b).blockState = state b
  rest : ∀ c, n ≤ c → d.nand.flash c = flash c
  /-- A block that has been scanned lies below `n`. -/
  done : ∀ c, d.chunkBits c = true → (d.blockInfo (c / g.chunksPerBlock)).blockState ≠ .needsScan →
    (c / g.chunksPerBlock + 1) * g.chunksPerBlock ≤ n

namespace MetPages

variable {flash : ℕ → Option Page} {state : ℕ → BlockState} {n : ℕ}

/-- A step that leaves pages and blocks. -/
theorem congr (h : MetPages g flash state n d) (hinfo : d'.blockInfo = d.blockInfo)
    (hbits : d'.chunkBits = d.chunkBits) (hflash : d'.nand.flash = d.nand.flash) :
    MetPages g flash state n d' where
  uncheckpointed b := by
    rw [hinfo]
    exact h.uncheckpointed b
  met c hc := h.met c (hbits ▸ hc)
  mem c hc := h.mem c (hbits ▸ hc)
  used c hc := by
    rw [hflash]
    exact h.used c (hbits ▸ hc)
  holds c hc := by
    rw [hinfo]
    exact h.holds c (hbits ▸ hc)
  pages b := by
    rw [hinfo, hbits]
    exact h.pages b
  ahead b hb := by
    rw [hinfo]
    exact h.ahead b hb
  rest c hc := by
    rw [hflash]
    exact h.rest c hc
  done c hc := by
    rw [hinfo]
    exact h.done c (hbits ▸ hc)

/-- Pages without use are passed over. -/
theorem pass (h : MetPages g flash state n d) {n' : ℕ} (hn : n ≤ n') : MetPages g flash state n' d :=
  { h with
    met := fun c hc => (h.met c hc).trans_le hn
    ahead := fun b hb => h.ahead b (hn.trans hb)
    rest := fun c hc => h.rest c (hn.trans hc)
    done := fun c hc hs => (h.done c hc hs).trans hn }

theorem noBits (h : MetPages g flash state n d) (hp : (d.blockInfo b).pagesInUse = 0) :
    NoBits g b d.chunkBits :=
  countChunkBits_eq_zero.mp (le_antisymm (hp ▸ h.pages b) (countChunkBits_nonneg _ _))

/-- A block becomes of no use. -/
theorem disused (h : MetPages g flash state n d) (hd : Disused g b d d') (hno : NoBits g b d.chunkBits)
    (hb : (b + 1) * g.chunksPerBlock ≤ n) : MetPages g flash state n d' where
  uncheckpointed := hd.uncheckpointed
  met c hc := h.met c (hd.quiet.bits ▸ hc)
  mem c hc := h.mem c (hd.quiet.bits ▸ hc)
  used c hc := by
    rw [hd.quiet.bits] at hc
    rw [hd.quiet.flash c fun h0 => by simp [hno c h0] at hc]
    exact h.used c hc
  holds c hc := by
    rw [hd.quiet.bits] at hc
    rw [hd.quiet.info _ fun h0 => by simp [hno c h0] at hc]
    exact h.holds c hc
  pages b' := by
    rw [hd.quiet.bits]
    by_cases hb' : b' = b
    · rw [hb', hd.pages, countChunkBits_eq_zero.mpr hno]
    · rw [hd.quiet.info b' hb']
      exact h.pages b'
  ahead b' hb' := by
    have hne : b' ≠ b := by
      rintro rfl
      have := chunksPerBlock_pos (g := g)
      rw [Nat.add_one_mul] at hb
      omega
    rw [hd.quiet.info b' hne]
    exact h.ahead b' hb'
  rest c hc := by
    have hne : c / g.chunksPerBlock ≠ b := by
      rintro rfl
      have := Nat.lt_div_mul_add (a := c) (chunksPerBlock_pos (g := g))
      rw [Nat.add_one_mul] at hb
      omega
    rw [hd.quiet.flash c hne]
    exact h.rest c hc
  done c hc := by
    rw [hd.quiet.bits] at hc
    rw [hd.quiet.info _ fun h0 => by simp [hno c h0] at hc]
    exact h.done c hc

/-- The page `n` comes into use. -/
theorem take (h : MetPages g flash state n d) (hn : n ∈ g.chunks)
    (hs : (d.blockInfo (n / g.chunksPerBlock)).blockState = .needsScan) :
    MetPages g flash state (n + 1) (takeScanned (n / g.chunksPerBlock) n d) := by
  have hbit : d.chunkBits n = false := by
    by_contra hbit
    exact absurd (h.met n (by simpa using hbit)) (lt_irrefl n)
  have hinfo : ∀ b, ((takeScanned (n / g.chunksPerBlock) n d).blockInfo b).blockState =
      (d.blockInfo b).blockState := by
    intro b
    by_cases hb : b = n / g.chunksPerBlock <;>
      simp [takeScanned, BlockDev.setChunkBit, BlockDev.modBlock, hb]
  have hcases : ∀ c, (takeScanned (n / g.chunksPerBlock) n d).chunkBits c = true →
      c = n ∨ c ≠ n ∧ d.chunkBits c = true := by
    intro c hc
    by_cases hcn : c = n
    · exact .inl hcn
    · exact .inr ⟨hcn, by simpa [takeScanned, BlockDev.setChunkBit, BlockDev.modBlock, hcn] using hc⟩
  constructor
  · intro b
    rw [hinfo]
    exact h.uncheckpointed b
  · intro c hc
    rcases hcases c hc with rfl | ⟨-, hc⟩
    · exact Nat.lt_succ_self c
    · exact (h.met c hc).trans (Nat.lt_succ_self n)
  · intro c hc
    rcases hcases c hc with rfl | ⟨-, hc⟩
    · exact hn
    · exact h.mem c hc
  · intro c hc
    rcases hcases c hc with rfl | ⟨-, hc⟩
    · exact h.rest c le_rfl
    · exact h.used c hc
  · intro c hc
    rw [hinfo]
    rcases hcases c hc with rfl | ⟨-, hc⟩
    · rw [hs]
      rfl
    · exact h.holds c hc
  · intro b
    have hp := h.pages b
    have hset := countChunkBits_set (g := g) (b := b) hbit
    simp only [takeScanned, BlockDev.setChunkBit, BlockDev.modBlock, hset, Function.update_apply]
    split_ifs with h1 h2 h2
    · subst h1
      simpa using hp
    · exact absurd h1.symm h2
    · exact absurd h2.symm h1
    · simpa using hp
  · intro b hb
    rw [hinfo]
    exact h.ahead b (Nat.le_of_succ_le hb)
  · exact fun c hc => h.rest c (Nat.le_of_succ_le hc)
  · intro c hc
    rw [hinfo]
    rcases hcases c hc with rfl | ⟨-, hc⟩
    · exact fun h0 => absurd hs h0
    · exact fun h0 => (h.done c hc h0).trans (Nat.le_succ n)

/-- A page in use is deleted. -/
theorem del (h : MetPages g flash state n d) (hc : d.chunkBits c = true) (m : Bool) :
    MetPages g flash state n (chunkDel g e c m d) ∧
      (chunkDel g e c m d).chunkBits = Function.update d.chunkBits c false ∧
      ∀ b, (d.blockInfo b).blockState = .needsScan →
        ((chunkDel g e c m d).blockInfo b).blockState = .needsScan := by
  have hpos : c ≠ 0 := fun h0 => zero_not_mem_chunks (h0 ▸ h.mem c hc)
  obtain ⟨nand, hn, hflash, -⟩ := markIfNeeded_eq g e c m (updateOldestDirtySeq g (c / g.chunksPerBlock) d)
  have hq := updateOldestDirtySeq_quiet (g := g) (d := d) (b := c / g.chunksPerBlock) fun _ => False
  have hinfo := updateOldestDirtySeq_blockInfo (g := g) (d := d) (b := c / g.chunksPerBlock)
  have hheld : ((markIfNeeded g e c m (updateOldestDirtySeq g (c / g.chunksPerBlock) d)).blockInfo
      (c / g.chunksPerBlock)).blockState.holdsChunks = true := by
    rw [hn]
    simpa only [hinfo] using h.holds c hc
  unfold chunkDel
  simp only [if_neg hpos, hheld, if_true]
  rw [hn]
  set d1 := releaseChunk (c / g.chunksPerBlock) c
    { updateOldestDirtySeq g (c / g.chunksPerBlock) d with nand := nand } with hd1
  have hbits1 : d1.chunkBits = Function.update d.chunkBits c false := by
    simp [hd1, releaseChunk, BlockDev.clearChunkBit, BlockDev.modBlock, hq.bits]
  have hbit : ∀ c', d1.chunkBits c' = true → c' ≠ c ∧ d.chunkBits c' = true := by
    intro c' hc'
    rw [hbits1] at hc'
    by_cases hcc : c' = c
    · simp [hcc] at hc'
    · exact ⟨hcc, by simpa [hcc] using hc'⟩
  have hinfo1 : ∀ b, (d1.blockInfo b).blockState = (d.blockInfo b).blockState := by
    intro b
    by_cases hb : b = c / g.chunksPerBlock <;>
      simp [hd1, releaseChunk, BlockDev.clearChunkBit, BlockDev.modBlock, hb, hinfo]
  have h1 : MetPages g flash state n d1 := by
    constructor
    · intro b
      rw [hinfo1]
      exact h.uncheckpointed b
    · exact fun c' hc' => h.met c' (hbit c' hc').2
    · exact fun c' hc' => h.mem c' (hbit c' hc').2
    · intro c' hc'
      obtain ⟨hne, hc'⟩ := hbit c' hc'
      refine ((hflash c' hne).trans (hq.flash c' not_false)).trans (h.used c' hc')
    · intro c' hc'
      rw [hinfo1]
      exact h.holds c' (hbit c' hc').2
    · intro b
      have hp := h.pages b
      have hclear := countChunkBits_clear (g := g) (b := b) hc
      rw [hbits1, hclear]
      simp only [hd1, releaseChunk, BlockDev.clearChunkBit, BlockDev.modBlock, hinfo, Function.update_apply]
      split_ifs with h2 h3 h3
      · subst h2
        simpa using hp
      · exact absurd h2.symm h3
      · exact absurd h3.symm h2
      · simpa using hp
    · intro b hb
      rw [hinfo1]
      exact h.ahead b hb
    · intro c' hc'
      have hne : c' ≠ c := (h.met c hc).trans_le hc' |>.ne'
      exact ((hflash c' hne).trans (hq.flash c' not_false)).trans (h.rest c' hc')
    · intro c' hc'
      rw [hinfo1]
      exact h.done c' (hbit c' hc').2
  split_ifs with hdirty
  · have hp : (d1.blockInfo (c / g.chunksPerBlock)).pagesInUse = 0 := by
      simp only [BlockInfo.becameDirty, Bool.and_eq_true, decide_eq_true_eq] at hdirty
      exact hdirty.1.1.1
    have hdis := blockBecameDirty_disused (e := e) h1.uncheckpointed (h1.noBits hp) hp
    have hbn : (c / g.chunksPerBlock + 1) * g.chunksPerBlock ≤ n := h.done c hc fun h0 => by
      simp [BlockInfo.becameDirty, hinfo1, h0] at hdirty
    refine ⟨h1.disused hdis (h1.noBits hp) hbn, hdis.quiet.bits.trans hbits1, fun b hb => ?_⟩
    have hne : b ≠ c / g.chunksPerBlock := by
      rintro rfl
      simp [BlockInfo.becameDirty, hinfo1, hb] at hdirty
    rw [hdis.quiet.info b hne, hinfo1]
    exact hb
  · exact ⟨h1, hbits1, fun b hb => (hinfo1 b).trans hb⟩

end MetPages

/-! ## Steps that do not concern chunks -/

/-- The two objects have the same chunks and the same type. -/
structure Alike (ob ob' : Obj) : Prop where
  variantType : ob'.variantType = ob.variantType
  deferredFree : ob'.deferredFree = ob.deferredFree
  hdrChunk : ob'.hdrChunk = ob.hdrChunk
  entry : ∀ k, ob'.file.entry k = ob.file.entry k
  sound : ob.file.Sound → ob'.file.Sound

theorem Alike.refl (ob : Obj) : Alike ob ob :=
  ⟨rfl, rfl, rfl, fun _ => rfl, fun h => h⟩

theorem Alike.trans {ob ob' ob'' : Obj} (h : Alike ob ob') (h' : Alike ob' ob'') : Alike ob ob'' where
  variantType := h'.variantType.trans h.variantType
  deferredFree := h'.deferredFree.trans h.deferredFree
  hdrChunk := h'.hdrChunk.trans h.hdrChunk
  entry k := (h'.entry k).trans (h.entry k)
  sound hs := h'.sound (h.sound hs)

/-- Objects with the same file differ in nothing that tells of chunks. -/
theorem Alike.of_file {ob ob' : Obj} (htype : ob'.variantType = ob.variantType)
    (hfree : ob'.deferredFree = ob.deferredFree) (hhdr : ob'.hdrChunk = ob.hdrChunk)
    (hfile : ob'.file = ob.file) : Alike ob ob' :=
  ⟨htype, hfree, hhdr, fun _ => by rw [hfile], fun h => hfile ▸ h⟩

/-- A step of a scan that leaves the pages, the blocks and what objects have of chunks. -/
structure Aside (d d' : Dev) : Prop where
  info : d'.blockInfo = d.blockInfo
  bits : d'.chunkBits = d.chunkBits
  flash : d'.nand.flash = d.nand.flash
  ids : d'.ids = d.ids
  obj : ∀ x, Alike (d.obj x) (d'.obj x)

namespace Aside

variable {d d' d'' : Dev}

theorem refl (d : Dev) : Aside d d :=
  ⟨rfl, rfl, rfl, rfl, fun _ => Alike.refl _⟩

theorem trans (h : Aside d d') (h' : Aside d' d'') : Aside d d'' where
  info := h'.info.trans h.info
  bits := h'.bits.trans h.bits
  flash := h'.flash.trans h.flash
  ids := h'.ids.trans h.ids
  obj x := (h.obj x).trans (h'.obj x)

theorem modObj (d : Dev) {x : ℕ} {f : Obj → Obj} (hf : Alike (d.obj x) (f (d.obj x))) :
    Aside d (d.modObj x f) := by
  refine ⟨rfl, rfl, rfl, rfl, fun y => ?_⟩
  by_cases hy : y = x
  · subst hy
    simpa [Dev.modObj] using hf
  · simpa [Dev.modObj, hy] using Alike.refl _

theorem removeObjFromDir (x : ℕ) (d : Dev) : Aside d (removeObjFromDir x d) := by
  unfold Yaffs.removeObjFromDir
  cases (d.obj x).parent with
  | none => exact modObj d (.of_file rfl rfl rfl rfl)
  | some p => exact (modObj d (x := p) (.of_file rfl rfl rfl rfl)).trans (modObj _ (.of_file rfl rfl rfl rfl))

theorem addObjToDir (dir x : ℕ) (d : Dev) : Aside d (addObjToDir dir x d) := by
  have h1 := removeObjFromDir x d
  have h2 := h1.trans (modObj _ (x := dir) (f := fun ob => { ob with children := x :: ob.children })
    (.of_file rfl rfl rfl rfl))
  have h3 := h2.trans (modObj _ (x := x) (f := fun ob => { ob with parent := some dir })
    (.of_file rfl rfl rfl rfl))
  unfold Yaffs.addObjToDir
  dsimp only
  split_ifs
  · exact { h3.trans (modObj _ (x := x) (f := fun ob => { ob with unlinked := true, renameAllowed := false })
      (.of_file rfl rfl rfl rfl)) with }
  · exact h3

theorem setObjName (x : ℕ) (name : Name) (d : Dev) :
    Aside d (d.modObj x fun ob => { setObjName x name ob with dirty := false }) := by
  refine modObj d ?_
  unfold Yaffs.setObjName
  split_ifs <;> exact .of_file rfl rfl rfl rfl

theorem countsOnly {bd : BlockDev} (d : Dev) (h : CountsOnly d.toBlockDev bd) : Aside d { d with toBlockDev := bd } := by
  obtain ⟨n, t, rfl⟩ := h
  exact ⟨rfl, rfl, rfl, rfl, fun _ => Alike.refl _⟩

/-- The sizes of a file change. -/
theorem sizes (x : ℕ) (d : Dev) {f : FileVar → FileVar}
    (hf : ∀ v, (f v).topLevel = v.topLevel ∧ HEq (f v).top v.top) : Aside d (d.modFile x f) := by
  have hsame : ∀ v v' : FileVar, v'.topLevel = v.topLevel → HEq v'.top v.top →
      (∀ k, v'.entry k = v.entry k) ∧ (v.Sound → v'.Sound) := by
    rintro ⟨_, _, _, l, top⟩ ⟨_, _, _, l', top'⟩ hl ht
    obtain rfl : l' = l := hl
    obtain rfl : top' = top := eq_of_heq ht
    exact ⟨fun _ => rfl, fun h => ⟨h.level, h.rooted⟩⟩
  obtain ⟨hentry, hsound⟩ := hsame (d.obj x).file _ (hf _).1 (hf _).2
  exact modObj d ⟨rfl, rfl, rfl, hentry, hsound⟩

end Aside

/-- A new object `x`, of which nothing has been found. -/
structure Created (x : ℕ) (type : ObjType) (d d' : Dev) : Prop where
  info : d'.blockInfo = d.blockInfo
  bits : d'.chunkBits = d.chunkBits
  flash : d'.nand.flash = d.nand.flash
  ids : d'.ids = x :: d.ids
  obj : ∀ y, y ≠ x → Alike (d.obj y) (d'.obj y)
  variantType : (d'.obj x).variantType = type
  notFreed : (d'.obj x).deferredFree = false
  entry : ∀ k, (d'.obj x).file.entry k = 0
  sound : type = .file → (d'.obj x).file.Sound

theorem allocEmptyObj_cases (e : Env) (x : ℕ) (d : Dev) :
    ((allocEmptyObj e x d).2 = false ∧ (∃ n, e.allocOk n = false) ∧ Aside d (allocEmptyObj e x d).1) ∨
    ((allocEmptyObj e x d).2 = true ∧ (allocEmptyObj e x d).1.blockInfo = d.blockInfo ∧
      (allocEmptyObj e x d).1.chunkBits = d.chunkBits ∧
      (allocEmptyObj e x d).1.nand.flash = d.nand.flash ∧ (allocEmptyObj e x d).1.ids = d.ids ∧
      (∀ y, y ≠ x → Alike (d.obj y) ((allocEmptyObj e x d).1.obj y)) ∧
      ((allocEmptyObj e x d).1.obj x).deferredFree = false) := by
  set d1 := d.mapBlocks fun b => { b with nand := { b.nand with calls := b.nand.calls + 1 } } with hd1
  have h1 : Aside d d1 := ⟨rfl, rfl, rfl, rfl, fun _ => Alike.refl _⟩
  unfold allocEmptyObj
  dsimp only
  rw [← hd1]
  split_ifs with hok
  · right
    set d2 := (d1.modObj x fun _ => { parent := some objectIdRoot }).modObj objectIdRoot fun ob =>
      { ob with children := x :: ob.children } with hd2
    have hother : ∀ y, y ≠ x → Alike (d1.obj y) (d2.obj y) := by
      intro y hy
      have h2 := (Aside.modObj (d1.modObj x fun _ => { parent := some objectIdRoot }) (x := objectIdRoot)
        (f := fun ob => { ob with children := x :: ob.children }) (.of_file rfl rfl rfl rfl)).obj y
      simpa [Dev.modObj, hy, hd2] using h2
    have hself : (d2.obj x).deferredFree = false := by
      have h2 := ((Aside.modObj (d1.modObj x fun _ => { parent := some objectIdRoot }) (x := objectIdRoot)
        (f := fun ob => { ob with children := x :: ob.children }) (.of_file rfl rfl rfl rfl)).obj x).deferredFree
      exact h2.trans (by simp [Dev.modObj])
    have h3 := Aside.addObjToDir objectIdLostNFound x { d2 with nObj := d2.nObj + 1 }
    refine ⟨rfl, h3.info, h3.bits, h3.flash, h3.ids, fun y hy => ?_, ?_⟩
    · exact ((h1.obj y).trans (hother y hy)).trans (h3.obj y)
    · exact (h3.obj x).deferredFree.trans hself
  · left
    exact ⟨rfl, ⟨_, by simpa using hok⟩, h1⟩

theorem newObjAt_cases (g : Geometry) (e : Env) (x : ℕ) (type : ObjType) (d : Dev) :
    ((newObjAt g e x type d).2 = none ∧ (∃ n, e.allocOk n = false) ∧ Aside d (newObjAt g e x type d).1) ∨
    ((newObjAt g e x type d).2 = some x ∧ Created x type d (newObjAt g e x type d).1) := by
  unfold newObjAt
  dsimp only
  have hr : ∃ r : Dev × Bool, (if type = .file then d.onBlocks (getTnode e) else (d, true)) = r ∧
      Aside d r.1 ∧ (r.2 = false → ∃ n, e.allocOk n = false) := by
    split_ifs
    · refine ⟨_, rfl, Aside.countsOnly d CountsOnly.getTnode, fun h => ⟨d.nand.calls, ?_⟩⟩
      simpa [Dev.onBlocks, getTnode] using h
    · exact ⟨_, rfl, Aside.refl d, by simp⟩
  obtain ⟨⟨d1, ok⟩, heq, h1, hfail⟩ := hr
  rw [heq]
  cases ok with
  | false => exact .inl ⟨rfl, hfail rfl, h1⟩
  | true =>
    rw [if_pos rfl]
    rcases allocEmptyObj_cases e x d1 with ⟨hno, hne, h2⟩ | ⟨hok, hinfo, hbits, hflash, hids, hother, hself⟩
    · rw [hno]
      rw [if_neg Bool.false_ne_true]
      refine .inl ⟨rfl, hne, ?_⟩
      split_ifs
      · exact { h1.trans h2 with }
      · exact h1.trans h2
    · rw [hok, if_pos rfl]
      right
      generalize (allocEmptyObj e x d1).1 = d2 at *
      refine ⟨rfl, ⟨hinfo.trans h1.info, hbits.trans h1.bits, hflash.trans h1.flash, ?_, fun y hy => ?_,
        ?_, ?_, fun k => ?_, fun htype => ?_⟩⟩
      · change x :: d2.ids = x :: d.ids
        rw [hids, h1.ids]
      · simpa [initObj, hashObj, Dev.modObj, hy] using (h1.obj y).trans (hother y hy)
      · simp [initObj, hashObj, Dev.modObj]
      · simpa [initObj, hashObj, Dev.modObj] using hself
      · simp only [initObj, hashObj, Dev.modObj, Function.update_self]
        split_ifs
        · unfold FileVar.entry FileVar.find
          split_ifs <;> rfl
        · unfold FileVar.entry FileVar.find
          split_ifs <;> rfl
      · subst htype
        simp only [initObj, hashObj, Dev.modObj, Function.update_self, if_true]
        exact ⟨Nat.zero_le _, trivial⟩

/-! ## The flash -/

/-- What `yaffs_tags_compat_rd` returns of a page with the tags `t`, whose fields are cut to their
widths. -/
def compatExtTags (p : Param) (t : ExtTags) : ExtTags where
  chunkUsed := true
  objId := t.objId % 2 ^ 18
  chunkId := t.chunkId % 2 ^ 20
  nBytes := t.nBytes % if 1024 ≤ p.dataBytesPerChunk then 2 ^ 12 else 2 ^ 10
  isDeleted := t.isDeleted

/-- The reads of a yaffs1 device from `flash`, whose pages have the serial numbers `serial`. -/
def compatReader (p : Param) (flash : ℕ → Option Page) (serial : ℕ → ℕ) : Reader := fun _ c =>
  match flash c with
  | some q =>
    { ok := true, ecc := .noError, tags := compatExtTags p q.tags, serialNumber := serial c % 4
      data := q.data }
  | none => { ok := true, ecc := .noError, tags := {}, data := .blank }

/-- `yaffs_tags_compat_query_block`. -/
def compatQuery (p : Param) (flash : ℕ → Option Page) (markedBad : ℕ → Bool) (b : ℕ) : BlockQuery :=
  if markedBad b then .dead
  else if (flash (b * p.chunksPerBlock)).isNone then .empty
  else .needsScan 0

/-- The pages of `flash` are those of objects of the types `ty` : data are of files, headers tell
the type, and what objects lie in are directories. -/
structure Typed (g : Geometry) (flash : ℕ → Option Page) (ty : ℕ → ObjType) : Prop where
  fake : ∀ x ∈ [objectIdLostNFound, objectIdRoot, objectIdDeleted, objectIdUnlinked], ty x = .directory
  id : ∀ c ∈ g.chunks, ∀ p, flash c = some p → p.tags.isDeleted = false → p.tags.objId ≠ 0
  data : ∀ c ∈ g.chunks, ∀ p, flash c = some p → p.tags.isDeleted = false → p.tags.chunkId ≠ 0 →
    ty p.tags.objId = .file
  hdr : ∀ c ∈ g.chunks, ∀ p, flash c = some p → p.tags.isDeleted = false → p.tags.chunkId = 0 →
    ty p.tags.objId = p.data.objHdr.type
  parent : ∀ c ∈ g.chunks, ∀ p, flash c = some p → p.tags.isDeleted = false → p.tags.chunkId = 0 →
    isLocalDir p.tags.objId = false → 0 < p.data.objHdr.parentObjId % 2 ^ 32 ∧
      p.data.objHdr.parentObjId % 2 ^ 32 < 2 ^ 31 ∧ ty (p.data.objHdr.parentObjId % 2 ^ 32) = .directory

/-- The numbers of the pages in use fit the fields of the tags. -/
def FitTags (g : Geometry) (flash : ℕ → Option Page) : Prop :=
  ∀ c ∈ g.chunks, ∀ p, flash c = some p → p.tags.isDeleted = false →
    p.tags.objId ≤ maxObjectId ∧ p.tags.chunkId < 2 ^ 20

/-! ## Objects met -/

/-- What the pages below `n` have made of the objects. Of the chunk `k` of `o` the page `kept` is in
the file. -/
structure Entered (g : Geometry) (flash : ℕ → Option Page) (ty : ℕ → ObjType) (o k : ℕ) (kept : Option ℕ)
    (n : ℕ) (s : ScanDev) : Prop where
  typed : ∀ x ∈ s.ids, (s.obj x).variantType = ty x ∧ (s.obj x).deferredFree = false
  sound : ∀ x ∈ s.ids, ty x = .file → (s.obj x).file.Sound
  hdr : ∀ x, (s.scanObj x).valid = true → (s.obj x).hdrChunk < n ∧
    s.chunkBits (s.obj x).hdrChunk = true ∧ ∃ p, flash (s.obj x).hdrChunk = some p ∧ p.key = (x, 0)
  entry : (s.obj o).file.entry k = kept.elim 0 (groupOf g)
  inUse : ∀ c, kept = some c → o ∈ s.ids ∧ s.chunkBits c = true ∧
    ((flash c).any fun p => tagsMatch p.tags o k) = true
  only : ∀ c < n, s.chunkBits c = true → ((flash c).any fun p => tagsMatch p.tags o k) = true → kept = some c

/-- A step succeeds with `P`, or there was no memory for it. -/
def Goes (e : Env) (ok : Bool) (P : Prop) : Prop :=
  ok = true ∧ P ∨ ok = false ∧ ∃ n, e.allocOk n = false

section Objects

variable {flash : ℕ → Option Page} {ty : ℕ → ObjType} {o k n : ℕ} {kept : Option ℕ} {s s' : ScanDev}

namespace Entered

/-- A step that does not concern chunks. -/
theorem aside (h : Entered g flash ty o k kept n s) (ha : Aside s.toDev s'.toDev)
    (hv : ∀ x, (s'.scanObj x).valid = true → (s.scanObj x).valid = true) : Entered g flash ty o k kept n s' where
  typed x hx := by
    obtain ⟨htype, hfree⟩ := h.typed x (ha.ids ▸ hx)
    exact ⟨(ha.obj x).variantType.trans htype, (ha.obj x).deferredFree.trans hfree⟩
  sound x hx hty := (ha.obj x).sound (h.sound x (ha.ids ▸ hx) hty)
  hdr x hx := by
    rw [(ha.obj x).hdrChunk, ha.bits]
    exact h.hdr x (hv x hx)
  entry := ((ha.obj o).entry k).trans h.entry
  inUse c hc := by
    rw [ha.ids, ha.bits]
    exact h.inUse c hc
  only c hcn hc := h.only c hcn (ha.bits ▸ hc)

/-- The page `n` comes into use. -/
theorem take (h : Entered g flash ty o k kept n s) :
    Entered g flash ty o k kept n (s.mapBlk (takeScanned b n)) := by
  have hbits : ∀ c', (s.mapBlk (takeScanned b n)).chunkBits c' = true ↔ c' = n ∨ s.chunkBits c' = true := by
    intro c'
    change Function.update s.chunkBits n true c' = true ↔ _
    by_cases hc : c' = n <;> simp [hc]
  refine ⟨h.typed, h.sound, fun x hx => ?_, h.entry, fun c' hc' => ?_, fun c' hcn hc' hm => ?_⟩
  · obtain ⟨hlt, hbit, hp⟩ := h.hdr x hx
    exact ⟨hlt, (hbits _).mpr (.inr hbit), hp⟩
  · obtain ⟨ho, hbit, hm⟩ := h.inUse c' hc'
    exact ⟨ho, (hbits _).mpr (.inr hbit), hm⟩
  · exact h.only c' hcn (((hbits c').mp hc').resolve_left hcn.ne) hm

/-- A page is deleted that is neither the page of the chunk nor the header of an object. -/
theorem clear (h : Entered g flash ty o k kept n s) {f : BlockDev → BlockDev}
    (hf : (f s.toBlockDev).chunkBits = Function.update s.chunkBits c false) (hkept : kept ≠ some c)
    (hhdr : ∀ x, (s.scanObj x).valid = true → (s.obj x).hdrChunk ≠ c) :
    Entered g flash ty o k kept n (s.mapBlk f) := by
  have hbits : ∀ c', (s.mapBlk f).chunkBits c' = true ↔ c' ≠ c ∧ s.chunkBits c' = true := by
    intro c'
    change (f s.toBlockDev).chunkBits c' = true ↔ _
    rw [hf]
    by_cases hc : c' = c <;> simp [hc]
  refine ⟨h.typed, h.sound, fun x hx => ?_, h.entry, fun c' hc' => ?_, fun c' hcn hc' hm => ?_⟩
  · obtain ⟨hlt, hbit, hp⟩ := h.hdr x hx
    exact ⟨hlt, (hbits _).mpr ⟨hhdr x hx, hbit⟩, hp⟩
  · obtain ⟨ho, hbit, hm⟩ := h.inUse c' hc'
    exact ⟨ho, (hbits _).mpr ⟨fun h0 => hkept (h0 ▸ hc'), hbit⟩, hm⟩
  · exact h.only c' hcn ((hbits c').mp hc').2 hm

/-- The page `n` has been dealt with. -/
theorem advance (h : Entered g flash ty o k kept n s)
    (hn : s.chunkBits n = true → ((flash n).any fun p => tagsMatch p.tags o k) = true → kept = some n) :
    Entered g flash ty o k kept (n + 1) s :=
  { h with
    hdr := fun x hx => by
      obtain ⟨hlt, hrest⟩ := h.hdr x hx
      exact ⟨hlt.trans (Nat.lt_succ_self n), hrest⟩
    only := fun c hc hbit hm => by
      rcases Nat.lt_succ_iff_lt_or_eq.mp hc with hc | rfl
      · exact h.only c hc hbit hm
      · exact hn hbit hm }

/-- Pages that are not in use are passed over. -/
theorem pass (h : Entered g flash ty o k kept n s) {n' : ℕ} (hn : n ≤ n')
    (hmet : ∀ c, s.chunkBits c = true → c < n) : Entered g flash ty o k kept n' s :=
  { h with
    hdr := fun x hx => by
      obtain ⟨hlt, hrest⟩ := h.hdr x hx
      exact ⟨hlt.trans_le hn, hrest⟩
    only := fun c _ hbit hm => h.only c (hmet c hbit) hbit hm }

/-- An object is created. -/
theorem create (h : Entered g flash ty o k kept n s) {x : ℕ} (hx : x ∉ s.ids)
    (hc : Created x (ty x) s.toDev s'.toDev) (hscan : s'.scanObj = Function.update s.scanObj x {}) :
    Entered g flash ty o k kept n s' := by
  have hne : ∀ y ∈ s.ids, y ≠ x := by
    rintro y hy rfl
    exact hx hy
  refine ⟨fun y hy => ?_, fun y hy hty => ?_, fun y hy => ?_, ?_, fun c hkc => ?_, fun c hcn hbit => ?_⟩
  · rcases List.mem_cons.mp (hc.ids ▸ hy) with rfl | hy
    · exact ⟨hc.variantType, hc.notFreed⟩
    · obtain ⟨htype, hfree⟩ := h.typed y hy
      exact ⟨(hc.obj y (hne y hy)).variantType.trans htype, (hc.obj y (hne y hy)).deferredFree.trans hfree⟩
  · rcases List.mem_cons.mp (hc.ids ▸ hy) with rfl | hy
    · exact hc.sound hty
    · exact (hc.obj y (hne y hy)).sound (h.sound y hy hty)
  · have hyx : y ≠ x := by
      rintro rfl
      simp [hscan] at hy
    rw [(hc.obj y hyx).hdrChunk, hc.bits]
    exact h.hdr y (by simpa [hscan, hyx] using hy)
  · by_cases hox : o = x
    · have hk : kept = none := by
        by_contra hk
        obtain ⟨c, hkc⟩ := Option.ne_none_iff_exists'.mp hk
        exact hx (hox ▸ (h.inUse c hkc).1)
      rw [hox, hk]
      exact hc.entry k
    · exact ((hc.obj o hox).entry k).trans h.entry
  · obtain ⟨ho, hbit, hm⟩ := h.inUse c hkc
    exact ⟨hc.ids ▸ List.mem_cons_of_mem x ho, hc.bits ▸ hbit, hm⟩
  · exact h.only c hcn (hc.bits ▸ hbit)

theorem findByNumber (h : Entered g flash ty o k kept n s) (x : ℕ) :
    Yaffs.findByNumber s.toDev x = if x ∈ s.ids then some x else none := by
  unfold Yaffs.findByNumber
  by_cases hx : x ∈ s.ids
  · rw [if_pos ⟨hx, (h.typed x hx).2⟩, if_pos hx]
  · rw [if_neg fun h0 => hx h0.1, if_neg hx]

end Entered

/-- `yaffs_find_or_create_by_number` of an object of the type the flash gives it. -/
theorem findOrCreateByNumber_goes (h : Entered g flash ty o k kept n s) {x : ℕ} (hpos : 0 < x) (hlt : x < 2 ^ 31) :
    let r := findOrCreateByNumber g e x (ty x) s
    (r.2 = some x ∧ x ∈ r.1.ids ∧ Entered g flash ty o k kept n r.1 ∧ r.1.blockInfo = s.blockInfo ∧
      r.1.chunkBits = s.chunkBits ∧ r.1.nand.flash = s.nand.flash) ∨
    (r.2 = none ∧ ∃ n, e.allocOk n = false) := by
  unfold findOrCreateByNumber
  dsimp only
  rw [if_pos ⟨hpos, hlt⟩, h.findByNumber]
  by_cases hx : x ∈ s.ids
  · rw [if_pos hx]
    exact .inl ⟨rfl, hx, h, rfl, rfl, rfl⟩
  · rw [if_neg hx]
    dsimp only
    have hnew : newNumber x s.toDev = (s.toDev, x) := by
      unfold newNumber
      rw [if_neg hpos.ne', if_pos hlt]
    have hid : s.onDev (newNumber x) = (s, x) := by
      unfold ScanDev.onDev
      rw [hnew]
    rw [hid]
    rcases newObjAt_cases g e x (ty x) s.toDev with ⟨hnone, hno, -⟩ | ⟨hsome, hc⟩
    · exact .inr ⟨hnone, hno⟩
    · refine .inl ⟨hsome, ?_, h.create hx hc rfl, hc.info, hc.bits, hc.flash⟩
      change x ∈ (newObjAt g e x (ty x) s.toDev).1.ids
      rw [hc.ids]
      exact List.mem_cons_self

theorem compatReader_ecc (p : Param) (flash : ℕ → Option Page) (serial : ℕ → ℕ) (i c : ℕ) :
    (compatReader p flash serial i c).ok = true ∧ (compatReader p flash serial i c).ecc = .noError := by
  unfold compatReader
  cases flash c <;> exact ⟨rfl, rfl⟩

/-- A read of tags is counted. -/
theorem rdChunkTagsNand_compat (p : Param) (serial : ℕ → ℕ) (c : ℕ) (d : BlockDev) :
    rdChunkTagsNand g (compatReader p flash serial) c d =
      ({ d with nand := { d.nand with calls := d.nand.calls + 1 } }, compatReader p flash serial d.nand.calls c) := by
  unfold rdChunkTagsNand
  dsimp only
  rw [(compatReader_ecc p flash serial d.nand.calls c).2, if_neg (by simp)]

theorem rdChunk_aside (p : Param) (flash : ℕ → Option Page) (serial : ℕ → ℕ) (c : ℕ) (d : Dev) :
    Aside d (d.onBlocks (rdChunkTagsNand g (compatReader p flash serial) c)).1 := by
  unfold Dev.onBlocks
  rw [rdChunkTagsNand_compat]
  exact ⟨rfl, rfl, rfl, rfl, fun _ => Alike.refl _⟩

/-- A call of the driver. -/
def countCall (d : BlockDev) : BlockDev :=
  { d with nand := { d.nand with calls := d.nand.calls + 1 } }

theorem onDev_rdChunk (p : Param) (flash : ℕ → Option Page) (serial : ℕ → ℕ) (c : ℕ) (s : ScanDev) :
    (s.onDev fun d => d.onBlocks (rdChunkTagsNand g (compatReader p flash serial) c)) =
      (s.mapBlk countCall, compatReader p flash serial s.nand.calls c) := by
  simp only [ScanDev.onDev, Dev.onBlocks, rdChunkTagsNand_compat]
  rfl

/-- Tags are of one chunk. -/
theorem tagsMatch_unique {q : Option Page} {x x' j j' : ℕ} (h : (q.any fun p => tagsMatch p.tags x j) = true)
    (h' : (q.any fun p => tagsMatch p.tags x' j') = true) : x = x' ∧ j = j' := by
  cases q with
  | none => simp at h
  | some p =>
    simp only [Option.any_some, tagsMatch, Bool.and_eq_true, decide_eq_true_eq] at h h'
    exact ⟨h.1.2.symm.trans h'.1.2, h.1.1.symm.trans h'.1.1⟩

/-- With narrow tnodes a chunk that is found is in use and has the tags looked for. -/
theorem findChunkInGroupLoop_used (hgrp : g.chunkGrpSize ≠ 1) {d : BlockDev} {x j r : ℕ} (n : ℕ) :
    ∀ c, findChunkInGroupLoop g d x j n c = some r → d.chunkBits r = true ∧
      ((d.nand.flash r).any fun p => tagsMatch p.tags x j) = true := by
  induction n with
  | zero =>
    intro c h
    simp [findChunkInGroupLoop] at h
  | succ n ih =>
    intro c h
    unfold findChunkInGroupLoop at h
    split_ifs at h with h0 hbit hm
    · obtain rfl := Option.some.inj h
      exact ⟨hbit, hm⟩
    · exact ih _ h
    · exact ih _ h

theorem findChunkInFile_used (hgrp : g.chunkGrpSize ≠ 1) {d : Dev} {x j r : ℕ}
    (h : findChunkInFile g d x j = some r) : d.chunkBits r = true ∧
      ((d.nand.flash r).any fun p => tagsMatch p.tags x j) = true := by
  obtain ⟨v, -, hv⟩ := Option.bind_eq_some_iff.mp h
  exact findChunkInGroupLoop_used hgrp _ _ hv

namespace Entered

variable {x j c : ℕ}

theorem kept_ne (h : Entered g flash ty o k kept n s)
    (hm : ((flash c).any fun p => tagsMatch p.tags x j) = true) (hne : ¬(x = o ∧ j = k)) : kept ≠ some c :=
  fun hc => hne (tagsMatch_unique hm (h.inUse c hc).2.2)

/-- A page of data is no header. -/
theorem hdr_ne (h : Entered g flash ty o k kept n s)
    (hm : ((flash c).any fun p => tagsMatch p.tags x j) = true) (hj : j ≠ 0) (y : ℕ)
    (hy : (s.scanObj y).valid = true) : (s.obj y).hdrChunk ≠ c := by
  rintro rfl
  obtain ⟨-, -, p, hp, hkey⟩ := h.hdr y hy
  simp only [hp, Option.any_some, tagsMatch, Bool.and_eq_true, decide_eq_true_eq] at hm
  exact hj (hm.1.1.symm.trans (Prod.mk.inj hkey).2)

theorem hdr_ne_self (h : Entered g flash ty o k kept n s) (y : ℕ) (hy : (s.scanObj y).valid = true) :
    (s.obj y).hdrChunk ≠ n :=
  (h.hdr y hy).1.ne

/-- A chunk of a file gets another page, after a step `f` on the blocks. -/
theorem load (h : Entered g flash ty o k kept n s) (hx : (s.obj x).file.Has j) (v : ℕ) (i : ℤ) {kept' : Option ℕ}
    {n' : ℕ} (f : BlockDev → BlockDev)
    (hentry : (if o = x ∧ k = j then v else (s.obj o).file.entry k) = kept'.elim 0 (groupOf g))
    (hhdr : ∀ y, (s.scanObj y).valid = true → (s.obj y).hdrChunk < n' ∧
      (f s.toBlockDev).chunkBits (s.obj y).hdrChunk = true)
    (hin : ∀ c, kept' = some c → o ∈ s.ids ∧ (f s.toBlockDev).chunkBits c = true ∧
      ((flash c).any fun p => tagsMatch p.tags o k) = true)
    (honly : ∀ c < n', (f s.toBlockDev).chunkBits c = true →
      ((flash c).any fun p => tagsMatch p.tags o k) = true → kept' = some c) :
    Entered g flash ty o k kept' n' ((s.mapBlk f).mapDev fun d => d.modObj x fun ob =>
      { ob with file := ob.file.load j v, nDataChunks := i }) := by
  set s' := (s.mapBlk f).mapDev fun d => d.modObj x fun ob =>
    { ob with file := ob.file.load j v, nDataChunks := i } with hs'
  have hcases : ∀ y, (y = x ∧ s'.obj y =
      { s.obj x with file := (s.obj x).file.load j v, nDataChunks := i }) ∨ y ≠ x ∧ s'.obj y = s.obj y := by
    intro y
    by_cases hy : y = x <;> simp [hs', ScanDev.mapBlk, ScanDev.mapDev, Dev.modObj, Dev.mapBlocks, hy]
  refine ⟨fun y hy => ?_, fun y hy hty => ?_, fun y hy => ?_, ?_, hin, honly⟩
  · rcases hcases y with ⟨rfl, heq⟩ | ⟨-, heq⟩ <;> rw [heq] <;> exact h.typed y hy
  · rcases hcases y with ⟨rfl, heq⟩ | ⟨-, heq⟩ <;> rw [heq]
    · exact (h.sound y hy hty).load j v
    · exact h.sound y hy hty
  · obtain ⟨hlt, hbit⟩ := hhdr y hy
    obtain ⟨-, -, hp⟩ := h.hdr y hy
    rcases hcases y with ⟨rfl, heq⟩ | ⟨-, heq⟩ <;> rw [heq] <;> exact ⟨hlt, hbit, hp⟩
  · rw [← hentry]
    rcases hcases o with ⟨hox, heq⟩ | ⟨hox, heq⟩ <;> rw [heq]
    · subst hox
      exact (FileVar.entry_load hx k v).trans (by simp)
    · rw [if_neg fun h0 => hox h0.1]

end Entered

/-! ## Data chunks met -/

/-- Of the pages `kept` and `c` the one that `yaffs_put_chunk_in_file` takes, when it meets `c` behind
`kept`. -/
def laterPage (serial : ℕ → ℕ) (kept : Option ℕ) (c : ℕ) : Option ℕ :=
  match kept with
  | none => some c
  | some a => if (serial a + 1) % 4 = serial c % 4 then some c else some a

/-- In block `b` the pages below `n` have been met, and those below `n'` are in use or not. -/
structure Scanning (g : Geometry) (flash : ℕ → Option Page) (state : ℕ → BlockState) (ty : ℕ → ObjType)
    (o k : ℕ) (kept : Option ℕ) (b n n' : ℕ) (s : ScanDev) : Prop where
  pages : MetPages g flash state n' s.toBlockDev
  current : (s.blockInfo b).blockState = .needsScan
  objs : Entered g flash ty o k kept n s

namespace Scanning

variable {state : ℕ → BlockState} {n' : ℕ}

theorem aside (h : Scanning g flash state ty o k kept b n n' s) (ha : Aside s.toDev s'.toDev)
    (hv : ∀ x, (s'.scanObj x).valid = true → (s.scanObj x).valid = true) :
    Scanning g flash state ty o k kept b n n' s' :=
  ⟨h.pages.congr ha.info ha.bits ha.flash, ha.info ▸ h.current, h.objs.aside ha hv⟩

theorem mapDev (h : Scanning g flash state ty o k kept b n n' s) {f : Dev → Dev} (ha : Aside s.toDev (f s.toDev)) :
    Scanning g flash state ty o k kept b n n' (s.mapDev f) :=
  h.aside ha fun _ hv => hv

/-- A step that counts. -/
theorem mapBlk (h : Scanning g flash state ty o k kept b n n' s) {f : BlockDev → BlockDev}
    (hinfo : (f s.toBlockDev).blockInfo = s.blockInfo) (hbits : (f s.toBlockDev).chunkBits = s.chunkBits)
    (hflash : (f s.toBlockDev).nand.flash = s.nand.flash) :
    Scanning g flash state ty o k kept b n n' (s.mapBlk f) :=
  h.mapDev (f := fun d => d.mapBlocks f) ⟨hinfo, hbits, hflash, rfl, fun _ => Alike.refl _⟩

/-- A page is deleted that is neither the page of the chunk nor the header of an object. -/
theorem del (h : Scanning g flash state ty o k kept b n n' s) (hbit : s.chunkBits c = true)
    (hkept : kept ≠ some c) (hhdr : ∀ x, (s.scanObj x).valid = true → (s.obj x).hdrChunk ≠ c) (m : Bool) :
    Scanning g flash state ty o k kept b n n' (s.mapBlk (chunkDel g e c m)) ∧
      (s.mapBlk (chunkDel g e c m)).chunkBits = Function.update s.chunkBits c false := by
  obtain ⟨hp, hb, hs⟩ := h.pages.del (e := e) hbit m
  exact ⟨⟨hp, hs b h.current, h.objs.clear hb hkept hhdr⟩, hb⟩

theorem advance (h : Scanning g flash state ty o k kept b n n' s)
    (hn : s.chunkBits n = true → ((flash n).any fun p => tagsMatch p.tags o k) = true → kept = some n) :
    Scanning g flash state ty o k kept b (n + 1) n' s :=
  ⟨h.pages, h.current, h.objs.advance hn⟩

/-- A chunk of a file other than the one looked at gets another page. -/
theorem loadOther (h : Scanning g flash state ty o k kept b n n' s) {x j : ℕ} (hx : (s.obj x).file.Has j)
    (hne : ¬(x = o ∧ j = k)) (v : ℕ) (i : ℤ) : Scanning g flash state ty o k kept b n n'
      (s.mapDev fun d => d.modObj x fun ob => { ob with file := ob.file.load j v, nDataChunks := i }) := by
  refine ⟨h.pages, h.current, h.objs.load hx v i (fun d => d) ?_ (fun y hy => ?_) h.objs.inUse h.objs.only⟩
  · rw [if_neg fun h0 => hne ⟨h0.1.symm, h0.2.symm⟩, h.objs.entry]
  · exact ⟨(h.objs.hdr y hy).1, (h.objs.hdr y hy).2.1⟩

/-- The chunk gets the page `n`, the first that has been met for it. -/
theorem loadFirst (h : Scanning g flash state ty o k none b n n' s) (hx : (s.obj o).file.Has k)
    (hid : o ∈ s.ids) (hbit : s.chunkBits n = true) (hm : ((flash n).any fun p => tagsMatch p.tags o k) = true)
    (i : ℤ) : Scanning g flash state ty o k (some n) b (n + 1) n'
      (s.mapDev fun d => d.modObj o fun ob => { ob with file := ob.file.load k (groupOf g n), nDataChunks := i }) := by
  refine ⟨h.pages, h.current, h.objs.load hx (groupOf g n) i (fun d => d) (by simp) (fun y hy => ?_)
    (fun c hc => ?_) fun c hcn hc hcm => ?_⟩
  · obtain ⟨hlt, hb, -⟩ := h.objs.hdr y hy
    exact ⟨hlt.trans (Nat.lt_succ_self n), hb⟩
  · obtain rfl := Option.some.inj hc
    exact ⟨hid, hbit, hm⟩
  · rcases Nat.lt_succ_iff_lt_or_eq.mp hcn with hcn | rfl
    · exact absurd (h.objs.only c hcn hc hcm) (by simp)
    · rfl

/-- The chunk gets the page `n`, and the page it had is deleted. -/
theorem replace {a : ℕ} (h : Scanning g flash state ty o k (some a) b n n' s) (hx : (s.obj o).file.Has k)
    (hk : k ≠ 0) (hbit : s.chunkBits n = true) (hm : ((flash n).any fun p => tagsMatch p.tags o k) = true)
    (han : a ≠ n) (i : ℤ) (m : Bool) : Scanning g flash state ty o k (some n) b (n + 1) n'
      ((s.mapBlk (chunkDel g e a m)).mapDev fun d => d.modObj o fun ob =>
        { ob with file := ob.file.load k (groupOf g n), nDataChunks := i }) := by
  obtain ⟨hid, habit, ham⟩ := h.objs.inUse a rfl
  obtain ⟨hp, hbits, hs⟩ := h.pages.del (e := e) habit m
  have hiff : ∀ c, (chunkDel g e a m s.toBlockDev).chunkBits c = true ↔ c ≠ a ∧ s.chunkBits c = true := by
    intro c
    rw [hbits]
    by_cases hc : c = a <;> simp [hc]
  refine ⟨hp, hs b h.current, h.objs.load hx (groupOf g n) i (chunkDel g e a m) (by simp) (fun y hy => ?_)
    (fun c hc => ?_) fun c hcn hc hcm => ?_⟩
  · obtain ⟨hlt, hb, -⟩ := h.objs.hdr y hy
    exact ⟨hlt.trans (Nat.lt_succ_self n), (hiff _).mpr ⟨h.objs.hdr_ne ham hk y hy, hb⟩⟩
  · obtain rfl := Option.some.inj hc
    exact ⟨hid, (hiff _).mpr ⟨han.symm, hbit⟩, hm⟩
  · obtain ⟨hca, hc⟩ := (hiff c).mp hc
    rcases Nat.lt_succ_iff_lt_or_eq.mp hcn with hcn | rfl
    · exact absurd (Option.some.inj (h.objs.only c hcn hc hcm)).symm hca
    · rfl

end Scanning

theorem modFile_load_eq (d : Dev) (x j v : ℕ) : (d.modFile x fun f => f.load j v) =
    d.modObj x fun ob => { ob with file := ob.file.load j v, nDataChunks := (d.obj x).nDataChunks } := by
  simp [Dev.modFile, Dev.modObj]

theorem modFile_load_count (d : Dev) (x j v : ℕ) :
    ((d.modObj x fun ob => { ob with nDataChunks := ob.nDataChunks + 1 }).modFile x fun f => f.load j v) =
      d.modObj x fun ob => { ob with file := ob.file.load j v, nDataChunks := (d.obj x).nDataChunks + 1 } := by
  simp [Dev.modFile, Dev.modObj]

section Put

variable {state : ℕ → BlockState} {m : MountParam} {serial : ℕ → ℕ} {x j : ℕ}

theorem compatReader_serial {p : Param} (hm : ((flash c).any fun p => tagsMatch p.tags x j) = true) (i : ℕ) :
    (compatReader p flash serial i c).serialNumber = serial c % 4 := by
  unfold compatReader
  cases hc : flash c with
  | none => simp [hc] at hm
  | some p => rfl

/-- The search for a chunk finds its page, if that is the first copy of the chunk in use. -/
theorem MetPages.find_first {state : ℕ → BlockState} (h : MetPages g flash state n d) (hbit : d.chunkBits c = true)
    (hm : ((flash c).any fun p => tagsMatch p.tags o k) = true) (hgrp : g.chunkGrpSize ≠ 1)
    (hfirst : ∀ c' ≤ c, d.chunkBits c' = true → ((flash c').any fun p => tagsMatch p.tags o k) = true → c' = c) :
    findChunkInGroup g d (groupBase g (groupOf g c)) o k = some c := by
  have hmem := h.mem c hbit
  obtain ⟨hle, hlt⟩ := groupBase_groupOf hmem
  refine findChunkInGroupLoop_eq hbit ?_ _ _ ?_ hle hlt fun c' _ hle' hbit' hm' => ?_
  · rw [h.used c hbit]
    exact hm
  · exact fun h0 => groupOf_ne_zero hmem (groupBase_eq_zero.mp h0)
  · have hm' := hm'.resolve_left hgrp
    rw [h.used c' hbit'] at hm'
    exact hfirst c' hle' hbit' hm'

/-- The search for a chunk that has been met finds its page, as it lies below all others of the group. -/
theorem Scanning.find_kept (h : Scanning g flash state ty o k kept b n (n + 1) s)
    (hgrp : g.chunkGrpSize ≠ 1) (hkept : kept = some c) (hbelow : c < n) :
    findChunkInGroup g s.toBlockDev (groupBase g (groupOf g c)) o k = some c := by
  obtain ⟨-, hbit, hm⟩ := h.objs.inUse c hkept
  refine h.pages.find_first hbit hm hgrp fun c' hle hbit' hm' => ?_
  exact (Option.some.inj (hkept.symm.trans (h.objs.only c' (hle.trans_lt hbelow) hbit' hm'))).symm

/-- `yaffs_put_chunk_in_file` on the page `n` of chunk `j` of the file `x`. -/
theorem putChunkForwards_goes (h : Scanning g flash state ty o k kept b n (n + 1) s) (hgrp : g.chunkGrpSize ≠ 1)
    (hrd : m.reader = compatReader g.toParam flash serial) (hx : x ∈ s.ids) (hfile : ty x = .file)
    (hj : j ≠ 0) (hj' : j ≤ maxChunkId) (hbelow : ∀ a, kept = some a → a < n) (hbit : s.chunkBits n = true)
    (hm : ((flash n).any fun p => tagsMatch p.tags x j) = true) :
    let r := putChunkForwards g e m x j n s.toDev
    Goes e r.2 (Scanning g flash state ty o k (if x = o ∧ j = k then laterPage serial kept n else kept)
      b (n + 1) (n + 1) { s with toDev := r.1 }) := by
  have htype : (s.obj x).variantType = .file := (h.objs.typed x hx).1.trans hfile
  obtain ⟨hcnt, hadd, hhas⟩ := FileVar.addFind_spec (e := e) (s.obj x).file j s.toBlockDev
  have hok : (∀ i, e.allocOk i = true) → _ := fun he =>
    FileVar.addFind_ok he (h.objs.sound x hx hfile) hj' s.toBlockDev
  unfold putChunkForwards
  rw [if_neg (not_not.mpr htype)]
  dsimp only
  generalize (s.obj x).file.addFind e j s.toBlockDev = q at *
  obtain ⟨bd, f, ok⟩ := q
  have ha : Aside s.toDev ({ s.toDev with toBlockDev := bd }.modFile x fun _ => f) :=
    (Aside.countsOnly _ hcnt).trans (Aside.modObj _ ⟨rfl, rfl, rfl, hadd.entry, hadd.sound⟩)
  have hself : (({ s.toDev with toBlockDev := bd }.modFile x fun _ => f).obj x).file = f := by
    simp [Dev.modFile, Dev.modObj]
  cases ok with
  | false =>
    refine .inr ⟨rfl, ?_⟩
    by_contra hall
    push Not at hall
    simpa using hok fun i => by simpa using hall i
  | true =>
    rw [if_pos rfl]
    generalize { s.toDev with toBlockDev := bd }.modFile x (fun _ => f) = d1 at ha hself ⊢
    have h1 : Scanning g flash state ty o k kept b n (n + 1) { s with toDev := d1 } :=
      h.aside ha fun _ hv => hv
    have hhas1 : (d1.obj x).file.Has j := hself ▸ hhas rfl
    have hx1 : x ∈ d1.ids := ha.ids ▸ hx
    have hbit1 : d1.chunkBits n = true := ha.bits ▸ hbit
    -- the tags are read again, and those of the page found
    have hrdn := rdChunk_aside (g := g) g.toParam flash serial n d1
    have hser : (d1.onBlocks (rdChunkTagsNand g m.reader n)).2.serialNumber = serial n % 4 := by
      unfold Dev.onBlocks
      rw [hrd, rdChunkTagsNand_compat]
      exact compatReader_serial hm d1.nand.calls
    have hold : ∀ a d, ((flash a).any fun p => tagsMatch p.tags x j) = true →
        existingSerial g m a d = serial a % 4 := by
      intro a d ha
      unfold existingSerial
      rw [if_neg hgrp, hrd]
      exact compatReader_serial ha d.nand.calls
    rw [← hrd] at hrdn
    have hobj : (d1.onBlocks (rdChunkTagsNand g m.reader n)).1.obj = d1.obj := rfl
    generalize d1.onBlocks (rdChunkTagsNand g m.reader n) = r at hrdn hser hobj ⊢
    obtain ⟨d2, pr⟩ := r
    have h2 : Scanning g flash state ty o k kept b n (n + 1) { s with toDev := d2 } :=
      h1.aside hrdn fun _ hv => hv
    have hhas2 : (d2.obj x).file.Has j := by
      rw [show d2.obj = d1.obj from hobj]
      exact hhas1
    have hx2 : x ∈ d2.ids := hrdn.ids ▸ hx1
    have hbit2 : d2.chunkBits n = true := hrdn.bits ▸ hbit1
    by_cases hsame : x = o ∧ j = k
    · obtain ⟨rfl, rfl⟩ := hsame
      rw [if_pos (show x = x ∧ j = j from ⟨rfl, rfl⟩)]
      have hentry := h1.objs.entry
      cases kept with
      | none =>
        rw [if_pos (groupBase_eq_zero.mpr hentry), modFile_load_count]
        exact .inl ⟨rfl, h1.loadFirst hhas1 hx1 hbit1 hm _⟩
      | some a =>
        obtain ⟨-, habit, ham⟩ := h2.objs.inUse a rfl
        have han : a ≠ n := (hbelow a rfl).ne
        have hamem := h2.pages.mem a habit
        have hne : (d1.obj x).file.entry j ≠ 0 := by
          rw [show (d1.obj x).file.entry j = groupOf g a from hentry]
          exact groupOf_ne_zero hamem
        rw [if_neg fun h0 => hne (groupBase_eq_zero.mp h0)]
        have hfind : findChunkInFile g d2 x j = some a := by
          obtain ⟨v, hv⟩ := Option.ne_none_iff_exists'.mp hhas2
          have hva : v = groupOf g a := by
            simpa [FileVar.entry, hv] using h2.objs.entry
          unfold findChunkInFile
          rw [hv, Option.bind_some, hva]
          exact h2.find_kept hgrp rfl (hbelow a rfl)
        dsimp only
        rw [hfind]
        dsimp only
        rw [hold a d2 ham, hser, show (serial a % 4 + 1) % 4 = (serial a + 1) % 4 by omega]
        unfold laterPage
        dsimp only
        split_ifs with hlater
        · rw [modFile_load_eq]
          exact .inl ⟨rfl, h2.replace hhas2 hj hbit2 hm han _ true⟩
        · refine .inl ⟨rfl, ?_⟩
          obtain ⟨h3, hb3⟩ := h2.del (e := e) hbit2 (by simpa using han) h2.objs.hdr_ne_self true
          exact h3.advance fun hb => absurd hb (by rw [hb3]; simp)
    · rw [if_neg hsame]
      have hno : s.chunkBits n = true → ((flash n).any fun p => tagsMatch p.tags o k) = true → kept = some n :=
        fun _ hmo => absurd (tagsMatch_unique hm hmo) hsame
      split_ifs with hbase
      · rw [modFile_load_count]
        exact .inl ⟨rfl, (h1.loadOther hhas1 hsame _ _).advance fun _ hmo => hno hbit hmo⟩
      · dsimp only
        cases hfind : findChunkInFile g d2 x j with
        | none =>
          dsimp only
          rw [modFile_load_eq]
          exact .inl ⟨rfl, (h2.loadOther hhas2 hsame _ _).advance fun _ hmo => hno hbit hmo⟩
        | some a =>
          obtain ⟨habit, ham⟩ := findChunkInFile_used hgrp hfind
          rw [h2.pages.used a habit] at ham
          dsimp only
          split_ifs
          · obtain ⟨h3, -⟩ := h2.del (e := e) habit (h2.objs.kept_ne ham hsame) (h2.objs.hdr_ne ham hj) true
            rw [modFile_load_eq]
            exact .inl ⟨rfl, (h3.loadOther hhas2 hsame _ _).advance fun _ hmo => hno hbit hmo⟩
          · obtain ⟨h3, -⟩ := h2.del (e := e) hbit2 (h2.objs.kept_ne hm hsame) h2.objs.hdr_ne_self true
            exact .inl ⟨rfl, h3.advance fun _ hmo => hno hbit hmo⟩

/-- The page in the file once the page `n` has been met. -/
def keptNext (flash : ℕ → Option Page) (serial : ℕ → ℕ) (o k : ℕ) (kept : Option ℕ) (n : ℕ) : Option ℕ :=
  if (flash n).any fun p => tagsMatch p.tags o k then laterPage serial kept n else kept

theorem Scanning.take (h : Scanning g flash state ty o k kept b n n s) (hb : n / g.chunksPerBlock = b)
    (hn : n ∈ g.chunks) : Scanning g flash state ty o k kept b n (n + 1) (s.mapBlk (takeScanned b n)) ∧
      (s.mapBlk (takeScanned b n)).chunkBits n = true := by
  subst hb
  refine ⟨⟨h.pages.take hn h.current, ?_, h.objs.take⟩, ?_⟩
  · change ((takeScanned (n / g.chunksPerBlock) n s.toBlockDev).blockInfo (n / g.chunksPerBlock)).blockState = _
    simpa [takeScanned, BlockDev.setChunkBit, BlockDev.modBlock] using h.current
  · change Function.update s.chunkBits n true n = true
    simp

/-- The object that pages tell of is found, or made. -/
theorem Scanning.findOrCreate {n' : ℕ} (h : Scanning g flash state ty o k kept b n n' s) (hpos : 0 < x)
    (hlt : x < 2 ^ 31) :
    let r := findOrCreateByNumber g e x (ty x) s
    (r.2 = some x ∧ x ∈ r.1.ids ∧ Scanning g flash state ty o k kept b n n' r.1 ∧
      r.1.chunkBits = s.chunkBits) ∨ (r.2 = none ∧ ∃ n, e.allocOk n = false) := by
  rcases findOrCreateByNumber_goes (e := e) h.objs hpos hlt with ⟨hsome, hid, hobjs, hinfo, hbits, hflash⟩ | hnone
  · exact .inl ⟨hsome, hid, ⟨h.pages.congr hinfo hbits hflash, hinfo ▸ h.current, hobjs⟩, hbits⟩
  · exact .inr hnone

/-- `yaffs1_scan` on a data page. -/
theorem scanData1_goes (h : Scanning g flash state ty o k kept b n n s) (hb : n / g.chunksPerBlock = b)
    (hn : n ∈ g.chunks) (hgrp : g.chunkGrpSize ≠ 1) (hrd : m.reader = compatReader g.toParam flash serial)
    {t : ExtTags} (hpos : 0 < t.objId) (hlt : t.objId < 2 ^ 31) (hfile : ty t.objId = .file)
    (hj : t.chunkId ≠ 0) (hj' : t.chunkId ≤ maxChunkId) (hbelow : ∀ a, kept = some a → a < n)
    (hm : ((flash n).any fun p => tagsMatch p.tags t.objId t.chunkId) = true) :
    Goes e (scanData1 g e m b n t s).2 (Scanning g flash state ty o k (keptNext flash serial o k kept n) b
      (n + 1) (n + 1) (scanData1 g e m b n t s).1) := by
  obtain ⟨h1, hbit1⟩ := h.take hb hn
  have hnext : keptNext flash serial o k kept n =
      if t.objId = o ∧ t.chunkId = k then laterPage serial kept n else kept := by
    unfold keptNext
    refine if_congr ⟨fun hmo => tagsMatch_unique hm hmo, ?_⟩ rfl rfl
    rintro ⟨rfl, rfl⟩
    exact hm
  unfold scanData1
  dsimp only
  have hr := h1.findOrCreate (e := e) hpos hlt
  rw [hfile] at hr
  generalize findOrCreateByNumber g e t.objId .file (s.mapBlk (takeScanned b n)) = r at hr ⊢
  obtain ⟨s1, found⟩ := r
  dsimp only at hr ⊢
  rcases hr with ⟨rfl, hid, h2, hbits⟩ | ⟨rfl, hno⟩
  · have hput := putChunkForwards_goes (e := e) h2 hgrp hrd hid hfile hj hj' hbelow (hbits ▸ hbit1) hm
    rw [← hnext] at hput
    dsimp only [ScanDev.onDev] at hput ⊢
    rcases hput with ⟨hok, h3⟩ | ⟨hok, hno⟩
    · refine .inl ⟨hok, iteInduction (fun _ => ?_) fun _ => h3⟩
      refine h3.mapDev (Aside.sizes t.objId _ ?_)
      exact fun _ => ⟨rfl, HEq.rfl⟩
    · exact .inr ⟨hok, hno⟩
  · exact .inr ⟨rfl, hno⟩

/-! ## Headers met -/

/-- The object `x` takes over its header in the page `n`. -/
theorem Scanning.takeHdr (h : Scanning g flash state ty o k kept b n (n + 1) s) {oh : ObjHdr} {p : Page}
    (hbit : s.chunkBits n = true) (hp : flash n = some p) (hkey : p.key = (x, 0)) (hk : k ≠ 0)
    (htype : oh.type = ty x) (serialNumber : ℕ) :
    Scanning g flash state ty o k kept b (n + 1) (n + 1) (takeHdr1 n x serialNumber oh s) := by
  have hadv : Entered g flash ty o k kept (n + 1) s := h.objs.advance fun _ hm => by
    simp only [hp, Option.any_some, tagsMatch, Bool.and_eq_true, decide_eq_true_eq] at hm
    exact absurd (hm.1.1.symm.trans (Prod.mk.inj hkey).2) hk
  have hobj : ∀ y, (takeHdr1 n x serialNumber oh s).obj y =
      if y = x then { s.obj x with hdrChunk := n, variantType := oh.type } else s.obj y := by
    intro y
    by_cases hy : y = x <;> simp [takeHdr1, ScanDev.mapDev, ScanDev.modScan, Dev.modObj, hy]
  have hfile : ∀ y, ((takeHdr1 n x serialNumber oh s).obj y).file = (s.obj y).file := by
    intro y
    rw [hobj]
    split_ifs with hy
    · rw [hy]
    · rfl
  refine ⟨h.pages, h.current, fun y hy => ?_, fun y hy hty => ?_, fun y hy => ?_, ?_, hadv.inUse, hadv.only⟩
  · obtain ⟨hvt, hfree⟩ := hadv.typed y hy
    rw [hobj]
    split_ifs with hyx
    · exact ⟨htype.trans (hyx ▸ rfl), hyx ▸ hfree⟩
    · exact ⟨hvt, hfree⟩
  · rw [hfile]
    exact hadv.sound y hy hty
  · rw [hobj]
    split_ifs with hyx
    · exact ⟨Nat.lt_succ_self n, hbit, p, hp, hyx ▸ hkey⟩
    · refine hadv.hdr y ?_
      simpa [takeHdr1, ScanDev.mapDev, ScanDev.modScan, hyx] using hy
  · rw [hfile]
    exact hadv.entry

/-- The end of the loading of an object does not concern chunks. -/
theorem loadVariant1_goes {n' : ℕ} (h : Scanning g flash state ty o k kept b n n' s) (x : ℕ) (oh : ObjHdr) :
    Goes e (loadVariant1 e m x oh s).2 (Scanning g flash state ty o k kept b n n' (loadVariant1 e m x oh s).1) := by
  unfold loadVariant1
  split
  · refine .inl ⟨rfl, iteInduction (fun _ => ?_) fun _ => h⟩
    refine h.mapDev (Aside.sizes x _ ?_)
    exact fun _ => ⟨rfl, HEq.rfl⟩
  · have h1 := h.mapDev (f := fun d => d.modObj x fun ob => { ob with equivId := oh.equivId % 2 ^ 32 })
      (Aside.modObj _ (.of_file rfl rfl rfl rfl))
    exact .inl ⟨rfl, h1.aside (Aside.refl _) fun _ hv => hv⟩
  · have h1 := h.mapDev (f := fun d => (cloneStr e oh.aliasName d).1) ⟨rfl, rfl, rfl, rfl, fun _ => Alike.refl _⟩
    have h2 := h1.mapDev (f := fun d => d.modObj x fun ob =>
      { ob with aliasName := (cloneStr e oh.aliasName s.toDev).2 }) (Aside.modObj _ (.of_file rfl rfl rfl rfl))
    by_cases hok : e.allocOk s.nand.calls
    · refine .inl ⟨?_, h2⟩
      simp [ScanDev.onDev, cloneStr, hok]
    · refine .inr ⟨?_, _, by simpa using hok⟩
      simp [ScanDev.onDev, cloneStr, hok]
  · exact .inl ⟨rfl, h⟩

/-- The object `x` is loaded from its header in the page `n`. -/
theorem loadObj1_goes (h : Scanning g flash state ty o k kept b n (n + 1) s) {oh : ObjHdr} {p : Page}
    (hbit : s.chunkBits n = true) (hp : flash n = some p) (hkey : p.key = (x, 0)) (hk : k ≠ 0)
    (htype : oh.type = ty x) (serialNumber : ℕ) (hpos : 0 < oh.parentObjId % 2 ^ 32)
    (hlt : oh.parentObjId % 2 ^ 32 < 2 ^ 31) (hdir : ty (oh.parentObjId % 2 ^ 32) = .directory) :
    Goes e (loadObj1 g e m n x serialNumber oh s).2
      (Scanning g flash state ty o k kept b (n + 1) (n + 1) (loadObj1 g e m n x serialNumber oh s).1) := by
  have h1 := h.takeHdr hbit hp hkey hk htype serialNumber
  have h2 := h1.mapDev (f := fun d => d.modObj x fun ob => { setObjName x oh.name ob with dirty := false })
    (Aside.setObjName x oh.name _)
  unfold loadObj1
  dsimp only
  have hr := h2.findOrCreate (e := e) hpos hlt
  rw [hdir] at hr
  generalize findOrCreateByNumber g e (oh.parentObjId % 2 ^ 32) .directory
    ((takeHdr1 n x serialNumber oh s).mapDev fun d =>
      d.modObj x fun ob => { setObjName x oh.name ob with dirty := false }) = r at hr ⊢
  obtain ⟨s3, found⟩ := r
  dsimp only at hr ⊢
  rcases hr with ⟨rfl, hid, h3, -⟩ | ⟨rfl, hno⟩
  · have hpar : parentDir (some (oh.parentObjId % 2 ^ 32)) s3.toDev = (s3.toDev, oh.parentObjId % 2 ^ 32) := by
      have hvt := (h3.objs.typed _ hid).1.trans hdir
      have hne : (s3.obj (oh.parentObjId % 2 ^ 32)).variantType ≠ .unknown := by
        rw [hvt]
        decide
      exact (if_neg hne).trans (if_pos hvt)
    simp only [ScanDev.onDev, hpar, Option.isSome_some, Bool.and_true]
    exact loadVariant1_goes (h3.mapDev (Aside.addObjToDir (oh.parentObjId % 2 ^ 32) x _)) x oh
  · exact .inr ⟨by simp, hno⟩

/-- A header is not the page of the chunk. -/
theorem Entered.kept_ne_hdr (h : Entered g flash ty o k kept n s) (hk : k ≠ 0) {p : Page} (hp : flash c = some p)
    (hkey : p.key = (x, 0)) : kept ≠ some c := by
  intro hc
  obtain ⟨-, -, hm⟩ := h.inUse c hc
  simp only [hp, Option.any_some, tagsMatch, Bool.and_eq_true, decide_eq_true_eq] at hm
  exact hk (hm.1.1.symm.trans (Prod.mk.inj hkey).2)

/-- Of two headers one is deleted. -/
theorem resolveHdr1_scanning (h : Scanning g flash state ty o k kept b n (n + 1) s) (hk : k ≠ 0)
    (hbit : s.chunkBits n = true) {p : Page} (hp : flash n = some p) (hkey : p.key = (x, 0)) (serialNumber : ℕ) :
    Scanning g flash state ty o k kept b n (n + 1) (resolveHdr1 g e n x serialNumber s) ∧
      (((resolveHdr1 g e n x serialNumber s).scanObj x).valid = false →
        (resolveHdr1 g e n x serialNumber s).chunkBits n = true) := by
  unfold resolveHdr1
  split_ifs with hvalid hlater
  · obtain ⟨hlt, hhbit, q, hq, hqkey⟩ := h.objs.hdr x hvalid
    have hv : ∀ y, ((s.modScan x fun q => { q with valid := false }).scanObj y).valid = true →
        y ≠ x ∧ (s.scanObj y).valid = true := by
      intro y hy
      by_cases hyx : y = x
      · simp [ScanDev.modScan, hyx] at hy
      · exact ⟨hyx, by simpa [ScanDev.modScan, hyx] using hy⟩
    have h1 : Scanning g flash state ty o k kept b n (n + 1) (s.modScan x fun q => { q with valid := false }) :=
      h.aside (Aside.refl _) fun y hy => (hv y hy).2
    obtain ⟨h2, hb2⟩ := h1.del (e := e) hhbit (h1.objs.kept_ne_hdr hk hq hqkey) (fun y hy h0 => by
      obtain ⟨hyx, hy⟩ := hv y hy
      obtain ⟨-, -, q', hq', hqkey'⟩ := h.objs.hdr y hy
      have hsame : (s.obj y).hdrChunk = (s.obj x).hdrChunk := h0
      rw [hsame, hq] at hq'
      obtain rfl := Option.some.inj hq'
      exact hyx (Prod.mk.inj (hqkey'.symm.trans hqkey)).1) true
    refine ⟨h2, fun _ => ?_⟩
    change ((s.modScan x fun q => { q with valid := false }).mapBlk
      (chunkDel g e (s.obj x).hdrChunk true)).chunkBits n = true
    rw [hb2, Function.update_of_ne hlt.ne']
    exact hbit
  · obtain ⟨h1, -⟩ := h.del (e := e) hbit (h.objs.kept_ne_hdr hk hp hkey) h.objs.hdr_ne_self true
    refine ⟨h1, fun hno => ?_⟩
    exact absurd (show ((s.mapBlk (chunkDel g e n true)).scanObj x).valid = true from hvalid) (by simp [hno])
  · exact ⟨h, fun _ => hbit⟩

/-- `yaffs1_scan` on a header. -/
theorem scanHdr1_goes (h : Scanning g flash state ty o k kept b n n s) (hb : n / g.chunksPerBlock = b)
    (hn : n ∈ g.chunks) (hk : k ≠ 0) (hrd : m.reader = compatReader g.toParam flash serial) (r : PageRead)
    {p : Page} (hp : flash n = some p) (hkey : p.key = (r.tags.objId, 0)) (hpos : 0 < r.tags.objId)
    (hlt : r.tags.objId < 2 ^ 31) (htype : p.data.objHdr.type = ty r.tags.objId)
    (hparent : isLocalDir r.tags.objId = false → 0 < p.data.objHdr.parentObjId % 2 ^ 32 ∧
      p.data.objHdr.parentObjId % 2 ^ 32 < 2 ^ 31 ∧ ty (p.data.objHdr.parentObjId % 2 ^ 32) = .directory) :
    Goes e (scanHdr1 g e m b n r s).2
      (Scanning g flash state ty o k kept b (n + 1) (n + 1) (scanHdr1 g e m b n r s).1) := by
  obtain ⟨h1, hbit1⟩ := h.take hb hn
  have hread := onDev_rdChunk (g := g) g.toParam flash serial n (s.mapBlk (takeScanned b n))
  have h2 := h1.mapBlk (f := countCall) rfl rfl rfl
  have hdata : ∀ i, (compatReader g.toParam flash serial i n).data = p.data := by
    intro i
    unfold compatReader
    rw [hp]
  have hbit2 : ((s.mapBlk (takeScanned b n)).mapBlk countCall).chunkBits n = true := hbit1
  unfold scanHdr1
  rw [hrd, hread]
  dsimp only
  rw [hdata]
  generalize (s.mapBlk (takeScanned b n)).mapBlk countCall = s2 at h2 hbit2 ⊢
  have hfind : findHdrObj1 g e r.tags p.data.objHdr s2 =
      findOrCreateByNumber g e r.tags.objId (ty r.tags.objId) s2 := by
    unfold findHdrObj1 findNumber
    rw [if_neg hpos.ne', h2.objs.findByNumber, htype]
    split_ifs with hmem
    · dsimp only
      rw [if_neg (not_not.mpr (h2.objs.typed _ hmem).1)]
    · rfl
  rw [hfind]
  have hr := h2.findOrCreate (e := e) hpos hlt
  generalize findOrCreateByNumber g e r.tags.objId (ty r.tags.objId) s2 = q at hr ⊢
  obtain ⟨s3, found⟩ := q
  dsimp only at hr ⊢
  rcases hr with ⟨rfl, hid, h3, hbits⟩ | ⟨rfl, hno⟩
  · dsimp only
    have h4 : ∀ s4 : ScanDev, s4.toDev = s3.toDev → s4.scanObj = s3.scanObj →
        Scanning g flash state ty o k kept b n (n + 1) s4 ∧ s4.chunkBits n = true := by
      intro s4 hdev hscan
      refine ⟨h3.aside (hdev ▸ Aside.refl _) fun y hy => hscan ▸ hy, ?_⟩
      rw [hdev, hbits]
      exact hbit2
    have h5 : ∀ s4 : ScanDev, Scanning g flash state ty o k kept b n (n + 1) s4 ∧ s4.chunkBits n = true →
        let s5 := resolveHdr1 g e n r.tags.objId r.serialNumber s4
        let q := if (s5.scanObj r.tags.objId).valid then (s5, true)
          else if isLocalDir r.tags.objId then (takeHdr1 n r.tags.objId r.serialNumber p.data.objHdr s5, true)
          else loadObj1 g e m n r.tags.objId r.serialNumber p.data.objHdr s5
        Goes e q.2 (Scanning g flash state ty o k kept b (n + 1) (n + 1) q.1) := by
      rintro s4 ⟨h4, hbit4⟩
      obtain ⟨h5, hbit5⟩ := resolveHdr1_scanning (e := e) h4 hk hbit4 hp hkey r.serialNumber
      dsimp only
      split_ifs with hvalid hlocal
      · refine .inl ⟨rfl, h5.advance fun _ hm => ?_⟩
        simp only [hp, Option.any_some, tagsMatch, Bool.and_eq_true, decide_eq_true_eq] at hm
        exact absurd (hm.1.1.symm.trans (Prod.mk.inj hkey).2) hk
      · exact .inl ⟨rfl, h5.takeHdr (hbit5 (by simpa using hvalid)) hp hkey hk htype _⟩
      · obtain ⟨hq, hq', hdir⟩ := hparent (by simpa using hlocal)
        exact loadObj1_goes h5 (hbit5 (by simpa using hvalid)) hp hkey hk htype _ hq hq' hdir
    cases p.data.objHdr.shadows with
    | none => exact h5 s3 (h4 s3 rfl rfl)
    | some y => exact h5 _ (h4 { s3 with shadowFixers := (r.tags.objId, y) :: s3.shadowFixers } rfl rfl)
  · exact .inr ⟨rfl, hno⟩

end Put

end Objects

end Yaffs
