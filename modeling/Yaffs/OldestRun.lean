import Yaffs.OldestSeq
import Yaffs.DataWrite
import Yaffs.Mount

/-!
# Runs and the oldest dirty block

Runs of the block management : writes, deletions and soft deletions of chunks, erasures of blocks, errors of
reads, the rounds of gc, and rescans of the flash. The oldest dirty sequence number is right in all of them
as long as no summary goes behind its back, and no scan has a file cut off when the block table is half built.
-/

namespace Yaffs

/-! ## Steps -/

/-- A device in a run, with the chunks that are soft-deleted and the block `yaffs_gc_block` is at work on. -/
structure SeqState where
  dev : BlockDev
  soft : ℕ → Bool := fun _ => false
  gc : Option ℕ := none

/-- The states blocks are in between the steps of a run : the block of gc is being collected, and blocks with
a strange sequence number have not been scanned. -/
def atWork (gc : Option ℕ) (b : ℕ) (s : BlockState) : Prop :=
  gc = some b ∧ s = .collecting ∨ s = .needsScan

/-- The books of the block management are in order, and what is soft-deleted are pages of objects. -/
structure InOrder (g : Geometry) (s : SeqState) : Prop where
  acc : Accounts g (atWork s.gc) s.soft s.dev
  softKept : ∀ c, s.dev.kept c = none → s.soft c = false

section

variable (g : Geometry)

/-- The part of `yaffs_check_gc` that chooses a block, on the block management. -/
def chooseBlock (aggressive background : Bool) (d : BlockDev) : BlockDev :=
  let d := { d with gc := { d.gc with skip := 5 } }
  let d := if d.gc.block < 1 && !aggressive then startGc (findRefreshBlock g d) else d
  if d.gc.block < 1 then startGc (findGcBlock g aggressive background d) else d

/-- The end of `yaffs_gc_block` for a block that is not finished. -/
def suspendGc (b : ℕ) (d : BlockDev) : BlockDev :=
  let d := d.setState b .full
  { d with gc := { d.gc with disable := false } }

/-- The end of `yaffs_gc_block` for a block that is. -/
def finishGc (d : BlockDev) : BlockDev :=
  { d with gc := { d.gc with block := 0, chunk := 0, disable := false } }

/-- One step of the block management. `ok` is what is required of a block gc starts on. -/
inductive SeqStep (ok : ℕ → BlockDev → Prop) : SeqState → SeqState → Prop
  | write {s : SeqState} (e : Env) (data : PageData) {t : ExtTags} (useReserver : Bool) :
      t.isDeleted = false → t.objId ≠ objectIdSummary →
      SeqStep ok s { s with dev := (writeNewChunk g e data t useReserver s.dev).1 }
  | del {s : SeqState} (e : Env) {c : ℕ} (markFlash : Bool) : s.dev.chunkBits c = true → s.soft c = false →
      SeqStep ok s { s with dev := chunkDel g e c markFlash s.dev }
  | softDel {s : SeqState} {c : ℕ} : s.dev.kept c ≠ none → s.soft c = false →
      SeqStep ok s { s with dev := softDelChunk g c s.dev, soft := Function.update s.soft c true }
  | dropSoft {s : SeqState} (e : Env) {c : ℕ} : s.soft c = true →
      SeqStep ok s { s with dev := dropSoftChunk g e c s.dev, soft := Function.update s.soft c false }
  | erase {s : SeqState} (e : Env) {b : ℕ} : b ∈ g.blocks → (s.dev.blockInfo b).blockState.collectable = true →
      (s.dev.blockInfo b).pagesInUse = 0 → SeqStep ok s { s with dev := blockBecameDirty g e b s.dev }
  | shrink {s : SeqState} {b : ℕ} : b ∈ g.blocks → SeqStep ok s { s with dev := setShrinkHdr b s.dev }
  /-- a read or a write of block `b` has failed -/
  | error {s : SeqState} {b : ℕ} : b ∈ g.blocks → SeqStep ok s { s with dev := handleChunkError b s.dev }
  /-- objects and tnodes come and go, the driver answers -/
  | counts {s : SeqState} {d : BlockDev} (n : ℕ) : CountsOnly s.dev d →
      SeqStep ok s { s with dev := { d with nObj := n } }
  | choose {s : SeqState} (aggressive background : Bool) : s.gc = none →
      SeqStep ok s { s with dev := chooseBlock g aggressive background s.dev }
  | collect {s : SeqState} : s.gc = none → s.dev.gc.block ≠ 0 → ok s.dev.gc.block s.dev →
      SeqStep ok s { s with dev := gcBlockStart g s.dev.gc.block s.dev, gc := some s.dev.gc.block }
  /-- gc goes on to the next chunk of its block -/
  | next {s : SeqState} :
      SeqStep ok s { s with dev := { s.dev with gc := { s.dev.gc with chunk := s.dev.gc.chunk + 1 } } }
  | suspend {s : SeqState} {b : ℕ} : s.gc = some b → b ∈ g.blocks → (s.dev.blockInfo b).blockState = .collecting →
      SeqStep ok s { s with dev := suspendGc b s.dev, gc := none }
  | finish {s : SeqState} {b : ℕ} : s.gc = some b → (s.dev.blockInfo b).blockState ≠ .collecting →
      SeqStep ok s { s with dev := finishGc s.dev, gc := none }

/-! ## Scans -/

variable (e : Env) (m : MountParam)

/-- `yaffs2_scan_chunk` takes the page for a header. -/
def isHdrPage (b : ℕ) (r : PageRead) (d : BlockDev) : Prop :=
  r.tags.chunkUsed = true ∧ r.ecc ≠ .unfixed ∧ badTags g b r.tags d = false ∧ r.tags.chunkId = 0

/-- The header in chunk `c` makes nothing else of an object that is a file. -/
def KeepsFile (b c : ℕ) (t : ExtTags) (s : ScanDev) : Prop :=
  let r := findHdrObj g e m c t (s.mapBlk (takeScanned b c))
  ∀ o, r.2.1 = some o → (r.1.scanObj o).valid = false → (r.1.obj o).variantType = .file →
    (HdrInfo.of r.2.2.1 t).type = .file

/-- `KeepsFile` for all headers below page `n` of block `b`, as the scan comes to them. -/
def KeepsFilesOfBlock (b : ℕ) (summaryAvailable : Bool) : ℕ → Bool → ScanDev → Prop
  | 0, _, _ => True
  | i + 1, found, s =>
    (s.blockInfo b).blockState.scanned = true →
      let r := s.onDev fun d => d.onBlocks (scanTags g m.reader m.stale b i summaryAvailable)
      let q := scanChunk g e m b i summaryAvailable found s
      (isHdrPage g b r.2 r.1.toBlockDev → KeepsFile g e m b (b * g.chunksPerBlock + i) r.2.tags r.1) ∧
        (q.2.2 = true → KeepsFilesOfBlock b summaryAvailable i q.2.1 q.1)

/-- `KeepsFile` for all headers of some blocks. -/
def KeepsFilesOfBlocks : List ℕ → ScanDev → Prop
  | [], _ => True
  | b :: bs, s =>
    let r := s.onDev fun d => d.onBlocks (summaryRead g m.reader b)
    KeepsFilesOfBlock g e m b r.2 (if r.2 then g.summaryChunks else g.chunksPerBlock) false r.1 ∧
      ((scanBlock g e m b s).2 = true → KeepsFilesOfBlocks bs (scanBlock g e m b s).1)

/-- The scan of the device `old` changes no file into an object of another type. -/
def ScanKeepsFiles (old : BlockDev) : Prop :=
  let s := mountDev g m old
  let r := g.blocks.foldl (queryBlock g m)
    ({ s.toBlockDev with seqNumber := lowestSequenceNumber, blocksInCheckpt := 0 }, [])
  KeepsFilesOfBlocks g e m (scanOrder r.2) (s.mapBlk fun _ => r.1)

end

/-! ## Runs -/

/-- Runs of the block management. `ok` is what is required of a block gc starts on, `okScan` of a scan. -/
inductive SeqRun (g : Geometry) (ok : ℕ → BlockDev → Prop) (okScan : Env → MountParam → BlockDev → Prop) :
    SeqState → Prop
  | mounted {s : SeqState} : InOrder g s → s.gc = none → s.dev.oldestDirtySeq = 0 → SeqRun g ok okScan s
  | step {s s' : SeqState} : SeqRun g ok okScan s → SeqStep g ok s s' → SeqRun g ok okScan s'
  /-- the flash is scanned anew, which leaves the books in order -/
  | rescan {s : SeqState} (e : Env) (m : MountParam) : SeqRun g ok okScan s →
      (scanBackwards g e m (mountDev g m s.dev)).2 = true → okScan e m s.dev →
      InOrder g { dev := (scanBackwards g e m (mountDev g m s.dev)).1.toBlockDev } →
      SeqRun g ok okScan { dev := (scanBackwards g e m (mountDev g m s.dev)).1.toBlockDev }

/-- In every state of every run the oldest dirty block is right, and between the rounds of gc the search for a
block accepts no shrink header too early. -/
def SeqHolds (g : Geometry) (ok : ℕ → BlockDev → Prop) (okScan : Env → MountParam → BlockDev → Prop) : Prop :=
  ∀ s, SeqRun g ok okScan s → OldestDirty g s.dev ∧ (s.gc = none → ShrinkSafe g s.dev)

variable {g : Geometry} {e : Env} {m : MountParam} {s s' : SeqState} {d d' : BlockDev} {b c : ℕ}

/-! ## The books in a run -/

/-- A step of the block management that keeps the pages of objects. -/
theorem InOrder.keeps (h : InOrder g s) {gc : Option ℕ} (hacc : Accounts g (atWork gc) s.soft d)
    (hkept : d.kept = s.dev.kept) : InOrder g { s with dev := d, gc := gc } :=
  ⟨hacc, fun c hc => h.softKept c (hkept ▸ hc)⟩

theorem InOrder.write (h : InOrder g s) (data : PageData) {t : ExtTags} (ht : t.isDeleted = false)
    (hid : t.objId ≠ objectIdSummary) (useReserver : Bool) :
    InOrder g { s with dev := (writeNewChunk g e data t useReserver s.dev).1 } := by
  have hspec := writeNewChunk_spec (e := e) h.acc.ready data ht hid useReserver
  cases hr : (writeNewChunk g e data t useReserver s.dev).2 with
  | none =>
    rw [hr] at hspec
    have hw : Wrote g (atWork s.gc) anyBlock s.dev (writeNewChunk g e data t useReserver s.dev).1 s.dev.kept := hspec
    exact h.keeps (h.acc.wrote hw) hw.kept
  | some c =>
    rw [hr] at hspec
    obtain ⟨-, -, p, -, hw⟩ := hspec
    refine ⟨h.acc.wrote hw, fun c' hc' => h.softKept c' ?_⟩
    change (writeNewChunk g e data t useReserver s.dev).1.kept c' = none at hc'
    rw [hw.kept] at hc'
    by_cases hcc : c' = c
    · simp [hcc] at hc'
    · rwa [Function.update_of_ne hcc] at hc'

theorem InOrder.del (h : InOrder g s) (hc : s.dev.chunkBits c = true) (hs : s.soft c = false) (m : Bool) :
    InOrder g { s with dev := chunkDel g e c m s.dev } := by
  refine ⟨h.acc.delete hc hs m, fun c' hc' => ?_⟩
  change (chunkDel g e c m s.dev).kept c' = none at hc'
  rw [(chunkDel_spec h.acc.blk hc m).kept] at hc'
  by_cases hcc : c' = c
  · exact hcc ▸ hs
  · exact h.softKept c' (by rwa [Function.update_of_ne hcc] at hc')

/-- What `yaffs_soft_del_chunk` changes, but for the oldest dirty block. -/
theorem softDelChunk_fields (c : ℕ) (bd : BlockDev) :
    (softDelChunk g c bd).nand = bd.nand ∧ (softDelChunk g c bd).chunkBits = bd.chunkBits ∧
      (softDelChunk g c bd).nFreeChunks = bd.nFreeChunks + 1 ∧
      (softDelChunk g c bd).blocksInCheckpt = bd.blocksInCheckpt ∧
      (softDelChunk g c bd).blockInfo = Function.update bd.blockInfo (c / g.chunksPerBlock)
        { bd.blockInfo (c / g.chunksPerBlock) with
          softDelPages := (bd.blockInfo (c / g.chunksPerBlock)).softDelPages + 1 } := by
  unfold softDelChunk updateOldestDirtySeq
  dsimp only
  split_ifs <;> exact ⟨rfl, rfl, rfl, rfl, rfl⟩

theorem softDelChunk_kept (c : ℕ) (bd : BlockDev) : (softDelChunk g c bd).kept = bd.kept := by
  obtain ⟨hnand, hbits, -⟩ := softDelChunk_fields (g := g) c bd
  unfold BlockDev.kept BlockDev.live
  rw [hnand, hbits]

/-- A chunk in use is counted as soft deleted. -/
theorem Accounts.soften {T : ℕ → BlockState → Prop} {soft : ℕ → Bool} {bd : BlockDev} {c : ℕ}
    (h : Accounts g T soft bd) (hc : bd.chunkBits c = true) (hs : soft c = false) :
    Accounts g T (Function.update soft c true) (softDelChunk g c bd) := by
  have hmem := h.blk.bit_mem c hc
  have hserv := h.blk.bit_state c hc
  have hcall := softDelChunk_callKeeps h.blk h.opn hc
  obtain ⟨hnand, hbits, hfree, hcheckpt, hinfo⟩ := softDelChunk_fields (g := g) c bd
  generalize softDelChunk g c bd = bd' at *
  generalize hb : c / g.chunksPerBlock = b at *
  refine ⟨hcall.blk, hcall.opn, ⟨fun c' hc' => ?_, fun b' hb' => ?_, ?_⟩, ?_, fun c' hc' => ?_⟩
  · rw [hbits]
    by_cases hcc : c' = c
    · rw [hcc]
      exact hc
    · exact h.free.soft_bit c' (by simpa [hcc] using hc')
  · have hold := h.free.soft_pages b' hb'
    rw [countChunkBits_set hs, hb, ← hold, hinfo]
    by_cases hbb : b' = b
    · simp [hbb]
    · simp [hbb, Ne.symm hbb]
  · have hold := h.free.free
    have hup := countFreeChunks_update (t := bd.blockInfo) hmem
      { bd.blockInfo b with softDelPages := (bd.blockInfo b).softDelPages + 1 }
    have hw : freeWeight g { bd.blockInfo b with softDelPages := (bd.blockInfo b).softDelPages + 1 } =
        freeWeight g (bd.blockInfo b) + 1 := by
      cases hst : (bd.blockInfo b).blockState <;> simp [hst, BlockState.inService] at hserv <;>
        simp [freeWeight, hst] <;> omega
    rw [hfree, hold, hinfo]
    linarith
  · refine h.checkptInv.of_state hcheckpt fun b' _ => ?_
    rw [hinfo]
    by_cases hbb : b' = b
    · simp [hbb]
    · simp [hbb]
  · rw [hbits] at hc'
    rw [hnand]
    exact h.programmed c' hc'

theorem InOrder.softDel (h : InOrder g s) (hc : s.dev.kept c ≠ none) (hs : s.soft c = false) :
    InOrder g { s with dev := softDelChunk g c s.dev, soft := Function.update s.soft c true } := by
  obtain ⟨p, hp⟩ := Option.ne_none_iff_exists'.mp hc
  refine ⟨h.acc.soften (Accounts.bit_of_kept hp) hs, fun c' hc' => ?_⟩
  change (softDelChunk g c s.dev).kept c' = none at hc'
  rw [softDelChunk_kept] at hc'
  have hne : c' ≠ c := fun heq => hc (heq ▸ hc')
  change Function.update s.soft c true c' = false
  rw [Function.update_of_ne hne]
  exact h.softKept c' hc'

theorem InOrder.dropSoft (h : InOrder g s) (hs : s.soft c = true) :
    InOrder g { s with dev := dropSoftChunk g e c s.dev, soft := Function.update s.soft c false } := by
  have hacc := h.acc.unsoft hs
  have hbit := h.acc.free.soft_bit c hs
  refine ⟨hacc.delete hbit (Function.update_self ..) false, fun c' hc' => ?_⟩
  change (dropSoftChunk g e c s.dev).kept c' = none at hc'
  unfold dropSoftChunk at hc'
  rw [(chunkDel_spec hacc.blk hbit false).kept] at hc'
  change Function.update s.soft c false c' = false
  by_cases hcc : c' = c
  · rw [hcc, Function.update_self]
  · rw [Function.update_of_ne hcc] at hc' ⊢
    exact h.softKept c' hc'

theorem InOrder.erase (h : InOrder g s) (hb : b ∈ g.blocks)
    (hs : (s.dev.blockInfo b).blockState.collectable = true) (hp : (s.dev.blockInfo b).pagesInUse = 0) :
    InOrder g { s with dev := blockBecameDirty g e b s.dev } := by
  have hno : NoBits g b s.dev.chunkBits := by
    rw [← countChunkBits_eq_zero, ← h.acc.blk.pages b hb, hp]
  obtain ⟨hacc, hkept, -⟩ := h.acc.erased (e := e) hb hs hno
  exact h.keeps hacc hkept

/-- Marks of a block change. -/
theorem InOrder.mark (h : InOrder g s) (hb : b ∈ g.blocks) {f : BlockInfo → BlockInfo}
    (hstate : ∀ bi, (f bi).blockState = bi.blockState) (hpages : ∀ bi, (f bi).pagesInUse = bi.pagesInUse)
    (hsoft : ∀ bi, (f bi).softDelPages = bi.softDelPages) (hsum : ∀ bi, (f bi).hasSummary = bi.hasSummary)
    (hseq : ∀ bi, (f bi).seqNumber = bi.seqNumber) : InOrder g { s with dev := s.dev.modBlock b f } := by
  refine h.keeps (h.acc.modBlock (h.acc.blk.flags hstate hpages hsum hseq) hb (hsoft _) ?_ (hsum _) ?_) rfl
  · unfold freeWeight
    rw [hstate, hpages, hsoft]
  · rw [hstate]

theorem InOrder.error (h : InOrder g s) (hb : b ∈ g.blocks) :
    InOrder g { s with dev := handleChunkError b s.dev } := by
  unfold handleChunkError
  split_ifs
  · exact h
  · have hmark := h.mark hb (f := fun bi =>
      let strikes := (bi.chunkErrorStrikes + 1) % 8
      { bi with
        gcPrioritise := true
        chunkErrorStrikes := strikes
        needsRetiring := bi.needsRetiring || decide (3 < strikes) })
      (fun _ => rfl) (fun _ => rfl) (fun _ => rfl) (fun _ => rfl) (fun _ => rfl)
    exact hmark.keeps (hmark.acc.setGc { s.dev.gc with hasPendingPrioritised := true }
      fun b' hb' hc => hmark.acc.blk.cands b' hb' (hc.imp id Or.inl)) rfl

theorem InOrder.counts (h : InOrder g s) (n : ℕ) (hd : CountsOnly s.dev d) :
    InOrder g { s with dev := { d with nObj := n } } := by
  have hacc := h.acc.countsOnly hd
  exact h.keeps ⟨{ hacc.blk with }, { hacc.opn with }, { hacc.free with }, hacc.checkptInv, hacc.programmed⟩ hd.kept

/-- gc notes something else, and at most a block it can take up. -/
theorem InOrder.setGc (h : InOrder g s) (gc : GcCursor)
    (hb : gc.block = s.dev.gc.block ∨ Found g s.dev gc.block)
    (hd : gc.dirtiest = s.dev.gc.dirtiest) : InOrder g { s with dev := { s.dev with gc := gc } } := by
  refine h.keeps (h.acc.setGc gc fun b' hne hc => ?_) rfl
  rcases hc with hc | hc
  · rcases hb with hb | hb
    · exact h.acc.blk.cands b' hne (Or.inl (hc.trans hb))
    · rw [hc] at hne ⊢
      exact hb hne
  · exact h.acc.blk.cands b' hne (Or.inr (Or.inl (hc.trans hd)))

theorem InOrder.search (h : InOrder g s) {f : BlockDev → BlockDev × ℕ}
    (hf : ∀ x, BlkInv g (atWork s.gc) x → Finds g (atWork s.gc) x (f x)) :
    InOrder g { s with dev := startGc (f s.dev) } := by
  have hfind := hf s.dev h.acc.blk
  have hsearch := h.keeps (hfind.searched.accounts h.acc) hfind.searched.kept
  exact hsearch.setGc { (f s.dev).1.gc with block := (f s.dev).2, chunk := 0 }
    (Or.inr (hfind.searched.found.mpr hfind.found)) rfl

theorem InOrder.choose (h : InOrder g s) (aggressive background : Bool) :
    InOrder g { s with dev := chooseBlock g aggressive background s.dev } := by
  have hskip := h.setGc { s.dev.gc with skip := 5 } (Or.inl rfl) rfl
  unfold chooseBlock
  generalize { s.dev with gc := { s.dev.gc with skip := 5 } } = x at hskip ⊢
  have hrefresh : InOrder g { s with dev :=
      if x.gc.block < 1 && !aggressive then startGc (findRefreshBlock g x) else x } := by
    split_ifs
    · exact hskip.search fun _ hx => findRefreshBlock_finds hx
    · exact hskip
  dsimp only
  generalize (if x.gc.block < 1 && !aggressive then startGc (findRefreshBlock g x) else x) = y at hrefresh ⊢
  split_ifs
  · exact hrefresh.search fun _ hx => findGcBlock_finds hx aggressive background
  · exact hrefresh

theorem notCollecting_atWork : NotCollecting (atWork none) := by
  intro b h
  rcases h with ⟨hnone, -⟩ | hs
  · exact Option.some_ne_none b hnone.symm
  · exact absurd hs (by decide)

/-- The block gc has chosen is full when it starts. -/
theorem InOrder.chosen (h : InOrder g s) (hgc : s.gc = none) (hne : s.dev.gc.block ≠ 0) :
    s.dev.gc.block ∈ g.blocks ∧ (s.dev.blockInfo s.dev.gc.block).blockState = .full := by
  have hblk := h.acc.blk
  rw [hgc] at hblk
  obtain ⟨hb, hcol⟩ := hblk.cands _ hne (Or.inl rfl)
  exact ⟨hb, hblk.full notCollecting_atWork hb hcol⟩

theorem InOrder.collect (h : InOrder g s) (hgc : s.gc = none) (hne : s.dev.gc.block ≠ 0) :
    InOrder g { s with dev := gcBlockStart g s.dev.gc.block s.dev, gc := some s.dev.gc.block } := by
  obtain ⟨hb, hs⟩ := h.chosen hgc hne
  have hacc := h.acc
  rw [hgc] at hacc
  generalize s.dev.gc.block = b at hb hs ⊢
  have hmono : BlkInv g (atWork (some b)) s.dev := hacc.blk.mono fun b' st ht => by
    rcases ht with ⟨hnone, -⟩ | ht
    · exact absurd hnone.symm (Option.some_ne_none b')
    · exact Or.inr ht
  have hcol : Accounts g (atWork (some b)) s.soft (s.dev.setState b .collecting) :=
    hacc.modBlock (hmono.setCollecting hb hs (Or.inl ⟨rfl, rfl⟩)) hb rfl (by simp [freeWeight, hs]) rfl (by simp [hs])
  have hcol := hcol.modBlock (f := fun bi => { bi with hasShrinkHdr := false })
    (hcol.blk.flags (b := b) (fun _ => rfl) (fun _ => rfl) (fun _ => rfl) (fun _ => rfl)) hb rfl rfl rfl Iff.rfl
  have hcol := hcol.setGc { s.dev.gc with disable := true }
    fun b' hb' hc => hcol.blk.cands b' hb' (hc.imp id Or.inl)
  obtain ⟨hcol, hkept, -⟩ := summaryGc_spec (b := b) hcol h.softKept
  have heq : gcBlockStart g b s.dev = summaryGc g b
      { (s.dev.setState b .collecting).modBlock b fun bi => { bi with hasShrinkHdr := false } with
        gc := { s.dev.gc with disable := true } } := by
    unfold gcBlockStart
    rw [if_pos hs]
    rfl
  rw [heq]
  exact h.keeps hcol hkept

theorem InOrder.suspend (h : InOrder g s) (hgc : s.gc = some b) (hb : b ∈ g.blocks)
    (hs : (s.dev.blockInfo b).blockState = .collecting) :
    InOrder g { s with dev := suspendGc b s.dev, gc := none } := by
  have hacc := h.acc
  rw [hgc] at hacc
  have hfull : Accounts g (atWork none) s.soft (s.dev.setState b .full) := by
    refine hacc.modBlock (hacc.blk.setFull hb hs fun b' st hne ht => ?_) hb rfl (by simp [freeWeight, hs]) rfl
      (by simp [hs])
    rcases ht with ⟨hsome, -⟩ | ht
    · exact absurd (Option.some.inj hsome).symm hne
    · exact Or.inr ht
  exact h.keeps (hfull.setGc { s.dev.gc with disable := false }
    fun b' hb' hc => hfull.blk.cands b' hb' (hc.imp id Or.inl)) rfl

theorem InOrder.finish (h : InOrder g s) (hgc : s.gc = some b)
    (hs : (s.dev.blockInfo b).blockState ≠ .collecting) : InOrder g { s with dev := finishGc s.dev, gc := none } := by
  have hacc := h.acc
  rw [hgc] at hacc
  have hblk : BlkInv g (atWork none) s.dev := hacc.blk.settle fun b' _ ht => by
    rcases ht with ⟨hsome, hst⟩ | ht
    · obtain rfl := Option.some.inj hsome
      exact absurd hst hs
    · exact Or.inr (Or.inr ht)
  have hnone : Accounts g (atWork none) s.soft s.dev := ⟨hblk, hacc.opn, hacc.free, hacc.checkptInv, hacc.programmed⟩
  refine h.keeps (hnone.setGc { s.dev.gc with block := 0, chunk := 0, disable := false } fun b' hne hc => ?_) rfl
  rcases hc with hc | hc
  · exact absurd hc hne
  · exact hnone.blk.cands b' hne (Or.inr (Or.inl hc))

/-! ## The oldest dirty block in a run -/

/-- Between the rounds of gc the block table can be searched. -/
theorem InOrder.comparable (h : InOrder g s) (hgc : s.gc = none) : Comparable g s.dev.blockInfo := by
  have hblk := h.acc.blk
  rw [hgc] at hblk
  exact ⟨fun b hb hs => hblk.full notCollecting_atWork hb hs,
    fun b hb => hblk.pagesUsed_lt h.acc.free hb g.chunksPerBlock⟩

theorem InOrder.pages_le (h : InOrder g s) (hb : b ∈ g.blocks) :
    (s.dev.blockInfo b).pagesInUse - (s.dev.blockInfo b).softDelPages ≤ g.chunksPerBlock := by
  have hpages := h.acc.blk.pages b hb
  have hsoft := h.acc.free.soft_pages b hb
  have hle := countChunkBits_le (g := g) b s.dev.chunkBits
  have hpos := countChunkBits_nonneg (g := g) b s.soft
  omega

theorem chooseBlock_looks (aggressive background : Bool) (d : BlockDev) :
    Looks g d (chooseBlock g aggressive background d) := by
  have hskip := Looks.setGc (g := g) d { d.gc with skip := 5 }
  unfold chooseBlock
  generalize { d with gc := { d.gc with skip := 5 } } = x at hskip ⊢
  have hrefresh : Looks g d (if x.gc.block < 1 && !aggressive then startGc (findRefreshBlock g x) else x) := by
    split_ifs
    · exact hskip.trans ((findRefreshBlock_looks x).trans (Looks.setGc _ _))
    · exact hskip
  dsimp only
  generalize (if x.gc.block < 1 && !aggressive then startGc (findRefreshBlock g x) else x) = y at hrefresh ⊢
  split_ifs
  · exact hrefresh.trans ((findGcBlock_looks aggressive background y).trans (Looks.setGc _ _))
  · exact hrefresh

/-- A step keeps the oldest dirty block right if the summary of a block gc starts on can go. -/
theorem SeqStep.keeps (hstep : SeqStep g (SummaryYoung g) s s') (h : InOrder g s) (hold : OldestDirty g s.dev) :
    InOrder g s' ∧ OldestDirty g s'.dev := by
  have hblk := h.acc.blk
  have hfree := h.acc.free
  cases hstep with
  | write e data useReserver ht hid =>
    exact ⟨h.write data ht hid useReserver, writeNewChunk_oldest h.acc.ready hfree hold data ht hid useReserver⟩
  | del e m hc hs => exact ⟨h.del hc hs m, chunkDel_oldest hblk hfree hold hc m⟩
  | softDel hc hs =>
    obtain ⟨p, hp⟩ := Option.ne_none_iff_exists'.mp hc
    exact ⟨h.softDel hc hs, softDelChunk_oldest hblk hfree hold (Accounts.bit_of_kept hp)⟩
  | dropSoft e hs => exact ⟨h.dropSoft hs, dropSoftChunk_oldest hblk hfree hold hs⟩
  | erase e hb hs hp =>
    refine ⟨h.erase hb hs hp, blockBecameDirty_oldest hblk hold hb hs ?_⟩
    rw [← countChunkBits_eq_zero, ← hblk.pages _ hb, hp]
  | shrink hb =>
    exact ⟨h.mark hb (fun _ => rfl) (fun _ => rfl) (fun _ => rfl) (fun _ => rfl) fun _ => rfl,
      hold.flags rfl rfl rfl rfl⟩
  | error hb => exact ⟨h.error hb, handleChunkError_oldest hold _⟩
  | counts n hd =>
    obtain ⟨calls, t, rfl⟩ := hd
    exact ⟨h.counts n ⟨calls, t, rfl⟩, hold.congr rfl rfl rfl⟩
  | choose aggressive background hgc =>
    exact ⟨h.choose aggressive background,
      (chooseBlock_looks aggressive background s.dev).oldest (h.comparable hgc) hold⟩
  | collect hgc hne hyoung =>
    obtain ⟨hb, hs⟩ := h.chosen hgc hne
    have hcol : (s.dev.blockInfo s.dev.gc.block).blockState.collectable = true := by rw [hs]; rfl
    exact ⟨h.collect hgc hne, (gcBlockStart_oldest_iff hold hb hcol (h.pages_le hb)).mpr hyoung⟩
  | next => exact ⟨h.setGc _ (Or.inl rfl) rfl, hold.congr rfl rfl rfl⟩
  | suspend hgc hb hs =>
    have hfull : OldestDirty g (s.dev.setState _ .full) :=
      hold.flags (f := fun bi => { bi with blockState := .full }) (by rw [hs]; rfl) rfl rfl rfl
    exact ⟨h.suspend hgc hb hs, hfull.congr rfl rfl rfl⟩
  | finish hgc hs => exact ⟨h.finish hgc hs, hold.congr rfl rfl rfl⟩

/-! ## Scans without a search -/

theorem checkptErase_oldestSeq (l : List ℕ) : ∀ d : BlockDev,
    (l.foldl (checkptEraseBlock g.toParam e) d).oldestDirtySeq = d.oldestDirtySeq := by
  induction l with
  | nil => exact fun _ => rfl
  | cons b l ih =>
    intro d
    rw [List.foldl_cons, ih]
    unfold checkptEraseBlock
    dsimp only
    split_ifs <;> rfl

theorem checkptInvalidate_oldestSeq (d : BlockDev) :
    (checkptInvalidate g e d).oldestDirtySeq = d.oldestDirtySeq := by
  unfold checkptInvalidate checkptErase
  split_ifs
  · exact checkptErase_oldestSeq _ _
  · rfl

theorem clearOldestDirtySeq_unset (h : d.oldestDirtySeq = 0) : (clearOldestDirtySeq g b d).oldestDirtySeq = 0 := by
  unfold clearOldestDirtySeq
  split_ifs
  · rfl
  · exact h

theorem blockBecameDirty_unset (h : d.oldestDirtySeq = 0) : (blockBecameDirty g e b d).oldestDirtySeq = 0 := by
  have hdirty : (becomeDirty g b d).oldestDirtySeq = 0 := clearOldestDirtySeq_unset h
  have herase : (eraseUnlessRetiring g e b (becomeDirty g b d)).1.oldestDirtySeq = 0 := by
    unfold eraseUnlessRetiring
    split_ifs
    · exact hdirty
    · exact (checkptInvalidate_oldestSeq _).trans hdirty
  unfold blockBecameDirty
  generalize eraseUnlessRetiring g e b (becomeDirty g b d) = r at herase
  dsimp only
  split_ifs
  · exact herase
  · obtain ⟨n, hn, -⟩ := markRetired_eq g e b (clearOldestDirtySeq g b
      (checkptInvalidate g e { r.1 with nFreeChunks := r.1.nFreeChunks - g.chunksPerBlock }))
    unfold retireBlock
    rw [hn]
    exact clearOldestDirtySeq_unset ((checkptInvalidate_oldestSeq _).trans herase)

theorem chunkDel_unset (h : d.oldestDirtySeq = 0) (m : Bool) : (chunkDel g e c m d).oldestDirtySeq = 0 := by
  have hupdate : updateOldestDirtySeq g (c / g.chunksPerBlock) d = d := if_neg fun hlow => hlow.2.1 h
  obtain ⟨n, hn, -⟩ := markIfNeeded_eq g e c m d
  unfold chunkDel
  dsimp only
  rw [hupdate, hn]
  split_ifs
  · exact h
  · exact blockBecameDirty_unset h
  · exact h
  · exact h

theorem rdChunkTagsNand_oldestSeq (rd : Reader) (c : ℕ) (d : BlockDev) :
    (rdChunkTagsNand g rd c d).1.oldestDirtySeq = d.oldestDirtySeq := by
  unfold rdChunkTagsNand handleChunkError
  dsimp only
  split_ifs <;> rfl

theorem summaryReadLoop_oldestSeq (rd : Reader) (b n : ℕ) : ∀ (i chunkId nBytes : ℕ) (buffer : List UInt8)
    (hdr : SummaryHeader) (d : BlockDev),
    (summaryReadLoop g rd b n i chunkId nBytes buffer hdr d).1.oldestDirtySeq = d.oldestDirtySeq := by
  induction n with
  | zero => exact fun _ _ _ _ _ _ => rfl
  | succ n ih =>
    intro i chunkId nBytes buffer hdr d
    have hread := rdChunkTagsNand_oldestSeq (g := g) rd (b * g.chunksPerBlock + i) d
    unfold summaryReadLoop
    dsimp only
    split_ifs
    · exact hread
    · rw [ih]
      exact hread
    · exact hread

theorem summaryRead_oldestSeq (rd : Reader) (b : ℕ) (d : BlockDev) :
    (summaryRead g rd b d).1.oldestDirtySeq = d.oldestDirtySeq := by
  have hloop := summaryReadLoop_oldestSeq (g := g) rd b (g.chunksPerBlock - g.summaryChunks) g.summaryChunks 1
    (summaryTagsSize * g.summaryChunks) [] ⟨0, 0, 0, 0⟩ d
  unfold summaryRead
  generalize summaryReadLoop g rd b (g.chunksPerBlock - g.summaryChunks) g.summaryChunks 1
    (summaryTagsSize * g.summaryChunks) [] ⟨0, 0, 0, 0⟩ d = r at hloop
  dsimp only
  split_ifs <;> exact hloop

theorem scanTags_oldestSeq (rd : Reader) (stale b i : ℕ) (available : Bool) (d : BlockDev) :
    (scanTags g rd stale b i available d).1.oldestDirtySeq = d.oldestDirtySeq := by
  unfold scanTags
  split_ifs
  · rfl
  · exact rdChunkTagsNand_oldestSeq rd _ d

theorem scanUnused_oldestSeq (b i : ℕ) (found : Bool) (d : BlockDev) :
    (scanUnused b i found d).oldestDirtySeq = d.oldestDirtySeq := by
  unfold scanUnused countFree
  dsimp only
  split_ifs <;> rfl

theorem finishBlock_unset (h : d.oldestDirtySeq = 0) : (finishBlock g e b d).oldestDirtySeq = 0 := by
  unfold finishBlock
  dsimp only
  split_ifs
  · exact blockBecameDirty_unset h
  · exact h
  · exact blockBecameDirty_unset h
  · exact h

theorem skipRestOfBlock_oldestSeq (d : BlockDev) : (skipRestOfBlock d).oldestDirtySeq = d.oldestDirtySeq := by
  unfold skipRestOfBlock
  split
  · split_ifs <;> rfl
  · rfl

theorem queryBlocks_oldestSeq (m : MountParam) (l : List ℕ) : ∀ r : BlockDev × List (ℕ × ℕ),
    (l.foldl (queryBlock g m) r).1.oldestDirtySeq = r.1.oldestDirtySeq := by
  induction l with
  | nil => exact fun _ => rfl
  | cons b l ih =>
    intro r
    rw [List.foldl_cons, ih]
    unfold queryBlock
    dsimp only
    split
    · rfl
    · rfl
    · split_ifs <;> rfl
    · rfl

/-! ## Objects of a scan -/

/-- Putting an object into a directory is no business of the block management. -/
theorem addObjToDir_blocks (dir o : ℕ) (d : Dev) : (addObjToDir dir o d).toBlockDev = d.toBlockDev := by
  have hremove := (removeObjFromDir_moved o d).toBlockDev
  unfold addObjToDir
  dsimp only
  split_ifs <;> exact hremove

theorem newNumber_oldestSeq (n : ℕ) (d : Dev) : (newNumber n d).1.oldestDirtySeq = d.oldestDirtySeq := by
  obtain ⟨b, hb⟩ := findNiceBucketLoop_eq 10 999999 999 d
  have hbucket : (newObjId d).1 = { d with bucketFinder := b } := hb
  unfold newNumber
  split_ifs
  · rfl
  · rfl
  · rw [hbucket]

theorem allocEmptyObj_oldestSeq (o : ℕ) (d : Dev) : (allocEmptyObj e o d).1.oldestDirtySeq = d.oldestDirtySeq := by
  unfold allocEmptyObj
  dsimp only
  split_ifs
  · dsimp only
    rw [addObjToDir_blocks]
    rfl
  · rfl

theorem newObjAt_oldestSeq (o : ℕ) (type : ObjType) (d : Dev) :
    (newObjAt g e o type d).1.oldestDirtySeq = d.oldestDirtySeq := by
  have htnode : (if type = .file then d.onBlocks (getTnode e) else (d, true)).1.oldestDirtySeq = d.oldestDirtySeq := by
    split_ifs <;> rfl
  unfold newObjAt
  generalize (if type = .file then d.onBlocks (getTnode e) else (d, true)) = r at htnode
  have halloc := (allocEmptyObj_oldestSeq (e := e) o r.1).trans htnode
  dsimp only
  split_ifs <;> first | exact halloc | exact htnode

theorem findOrCreateByNumber_oldestSeq (n : ℕ) (type : ObjType) (s : ScanDev) :
    (findOrCreateByNumber g e n type s).1.oldestDirtySeq = s.oldestDirtySeq := by
  unfold findOrCreateByNumber
  dsimp only
  split
  · rfl
  · exact (newObjAt_oldestSeq _ type _).trans (newNumber_oldestSeq n s.toDev)

theorem handleShadowedObj_oldestSeq (n : ℕ) (s : ScanDev) :
    (handleShadowedObj g e n s).oldestDirtySeq = s.oldestDirtySeq := by
  have hfind := findOrCreateByNumber_oldestSeq (g := g) (e := e) n .file s
  unfold handleShadowedObj
  dsimp only
  split_ifs
  · rfl
  · split
    · exact hfind
    · refine Eq.trans ?_ hfind
      exact congrArg BlockDev.oldestDirtySeq (addObjToDir_blocks _ _ _)

theorem putChunkBackwards_unset (o k : ℕ) {d : Dev} (h : d.oldestDirtySeq = 0) :
    (putChunkBackwards g e o k c d).1.oldestDirtySeq = 0 := by
  have hadd : ((d.obj o).file.addFind e k d.toBlockDev).1.oldestDirtySeq = 0 := by
    obtain ⟨n, t, heq⟩ := (FileVar.addFind_spec (e := e) (d.obj o).file k d.toBlockDev).1
    rw [heq]
    exact h
  unfold putChunkBackwards
  dsimp only
  split_ifs
  · exact chunkDel_unset h true
  · exact hadd
  · exact chunkDel_unset hadd true
  · exact hadd

/-- An object that is no file goes without a write. -/
theorem tearDown_oldestSeq (o : ℕ) {d : Dev} (ho : (d.obj o).variantType ≠ .file) :
    (tearDown g e o d).oldestDirtySeq = d.oldestDirtySeq := by
  have hfold : ∀ (l : List ℕ) (x : Dev),
      (l.foldl (fun d o => addObjToDir objectIdLostNFound o d) x).toBlockDev = x.toBlockDev := by
    intro l
    induction l with
    | nil => exact fun _ => rfl
    | cons a l ih => exact fun x => (ih _).trans (addObjToDir_blocks _ _ _)
  unfold tearDown
  split
  · next hfile => exact absurd hfile ho
  · exact congrArg BlockDev.oldestDirtySeq (hfold (d.obj o).children d)
  · unfold unlinkRing
    split <;> rfl
  · rfl

theorem loadHdr_oldestSeq (o : ℕ) (oh : Option ObjHdr) (s : ScanDev) :
    (loadHdr g e o oh s).oldestDirtySeq = s.oldestDirtySeq := by
  unfold loadHdr
  split
  · next oh =>
    dsimp only
    split
    · exact handleShadowedObj_oldestSeq _ s
    · rfl
  · rfl

theorem loadVariant_oldestSeq (o : ℕ) (isUnlinked : Bool) (oh : Option ObjHdr) (h : HdrInfo) (s : ScanDev) :
    (loadVariant e o isUnlinked oh h s).1.oldestDirtySeq = s.oldestDirtySeq := by
  unfold loadVariant
  split
  · rfl
  · split_ifs <;> rfl
  · split <;> rfl
  · rfl

theorem parentDir_oldestSeq (p : Option ℕ) (d : Dev) : (parentDir p d).1.oldestDirtySeq = d.oldestDirtySeq := by
  unfold parentDir
  split
  · split_ifs <;> rfl
  · rfl

theorem loadObj_oldestSeq (b c o : ℕ) (oh : Option ObjHdr) (t : ExtTags) (s : ScanDev) :
    (loadObj g e b c o oh t s).1.oldestDirtySeq = s.oldestDirtySeq := by
  unfold loadObj
  dsimp only
  refine (loadVariant_oldestSeq _ _ _ _ _).trans ?_
  have hparent : ∀ (p : Option ℕ) (x : ScanDev), ((x.onDev (parentDir p)).1.mapDev
      (addObjToDir (x.onDev (parentDir p)).2 o)).oldestDirtySeq = x.oldestDirtySeq := fun p x =>
    (congrArg BlockDev.oldestDirtySeq (addObjToDir_blocks _ _ _)).trans (parentDir_oldestSeq p x.toDev)
  have hfound := fun (n : ℕ) (x : ScanDev) => (findOrCreateByNumber_oldestSeq (g := g) (e := e) n .directory
    (loadHdr g e o oh x)).trans (loadHdr_oldestSeq o oh x)
  split_ifs
  · exact (hparent _ _).trans (hfound _ _)
  · exact (hparent _ _).trans (hfound _ _)

theorem scanNewHdr_oldestSeq (b c o : ℕ) (oh : Option ObjHdr) (t : ExtTags) (s : ScanDev)
    (hfile : (s.obj o).variantType = .file → (HdrInfo.of oh t).type = .file) :
    (scanNewHdr g e b c o oh t s).1.oldestDirtySeq = s.oldestDirtySeq := by
  have hretype : (if (s.obj o).variantType ≠ (HdrInfo.of oh t).type then
      s.mapDev (retypeObj g e o (HdrInfo.of oh t).type) else s).oldestDirtySeq = s.oldestDirtySeq := by
    split_ifs with hne
    · refine tearDown_oldestSeq (g := g) (e := e) o fun ho => hne ?_
      rw [ho, hfile ho]
    · rfl
  unfold scanNewHdr
  dsimp only
  split_ifs at hretype ⊢ <;> first | exact hretype | exact (loadObj_oldestSeq ..).trans hretype

theorem findHdrObj_oldestSeq (c : ℕ) (t : ExtTags) (s : ScanDev) :
    (findHdrObj g e m c t s).1.oldestDirtySeq = s.oldestDirtySeq := by
  have hfind : (if t.extraAvailable then findOrCreateByNumber g e t.objId t.extraObjType s
      else (s, none)).1.oldestDirtySeq = s.oldestDirtySeq := by
    split_ifs
    · exact findOrCreateByNumber_oldestSeq _ _ s
    · rfl
  unfold findHdrObj
  generalize (if t.extraAvailable then findOrCreateByNumber g e t.objId t.extraObjType s else (s, none)) = r at hfind
  have hread : (r.1.onDev fun d => d.onBlocks (rdChunkTagsNand g m.reader c)).1.oldestDirtySeq = s.oldestDirtySeq :=
    (rdChunkTagsNand_oldestSeq m.reader c r.1.toBlockDev).trans hfind
  dsimp only
  split_ifs
  · split
    · exact hread
    · exact (findOrCreateByNumber_oldestSeq _ _ _).trans hread
  · exact hfind

theorem shrinkBy_oldestSeq (b o : ℕ) (oh : Option ObjHdr) (t : ExtTags) (d : Dev) :
    (shrinkBy b o oh t d).oldestDirtySeq = d.oldestDirtySeq := by
  unfold shrinkBy
  dsimp only
  split_ifs <;> rfl

theorem scanHdr_unset (b c : ℕ) (t : ExtTags) {s : ScanDev} (h : s.oldestDirtySeq = 0) (hk : KeepsFile g e m b c t s) :
    (scanHdr g e m b c t s).1.oldestDirtySeq = 0 := by
  have htake : (s.mapBlk (takeScanned b c)).oldestDirtySeq = 0 := h
  have hfind := (findHdrObj_oldestSeq (g := g) (e := e) (m := m) c t (s.mapBlk (takeScanned b c))).trans htake
  unfold KeepsFile at hk
  unfold scanHdr
  generalize findHdrObj g e m c t (s.mapBlk (takeScanned b c)) = r at hfind hk
  dsimp only at hk ⊢
  split
  · exact hfind
  · next o ho =>
    split_ifs with hvalid
    · exact chunkDel_unset ((shrinkBy_oldestSeq b o _ t r.1.toDev).trans hfind) true
    · exact (scanNewHdr_oldestSeq b c o _ t r.1 (hk o ho (by simpa using hvalid))).trans hfind

theorem scanData_unset (b c : ℕ) (t : ExtTags) {s : ScanDev} (h : s.oldestDirtySeq = 0) :
    (scanData g e b c t s).1.oldestDirtySeq = 0 := by
  have htake : (s.mapBlk (takeScanned b c)).oldestDirtySeq = 0 := h
  have hfind := (findOrCreateByNumber_oldestSeq (g := g) (e := e) t.objId .file (s.mapBlk (takeScanned b c))).trans htake
  unfold scanData
  generalize findOrCreateByNumber g e t.objId .file (s.mapBlk (takeScanned b c)) = r at hfind
  dsimp only
  split
  · exact hfind
  · next o _ =>
    have hput : (r.1.onDev (putChunkBackwards g e o t.chunkId c)).1.oldestDirtySeq = 0 :=
      putChunkBackwards_unset o t.chunkId hfind
    split_ifs
    · exact hput
    · exact hput
    · exact chunkDel_unset hfind true

theorem scanPage_unset (b i : ℕ) (found : Bool) (r : PageRead) {s : ScanDev} (h : s.oldestDirtySeq = 0)
    (hk : isHdrPage g b r s.toBlockDev → KeepsFile g e m b (b * g.chunksPerBlock + i) r.tags s) :
    (scanPage g e m b i found r s).1.oldestDirtySeq = 0 := by
  unfold scanPage
  dsimp only
  split_ifs with hunused hecc hbad hdata
  · exact (scanUnused_oldestSeq b i found s.toBlockDev).trans h
  · exact h
  · exact h
  · exact scanData_unset b _ r.tags h
  · refine scanHdr_unset b _ r.tags h (hk ⟨by simpa using hunused, hecc, by simpa using hbad, ?_⟩)
    omega

theorem scanBlockLoop_unset (b : ℕ) (available : Bool) (n : ℕ) : ∀ (found : Bool) (s : ScanDev),
    s.oldestDirtySeq = 0 → KeepsFilesOfBlock g e m b available n found s →
    (scanBlockLoop g e m b available n found s).1.oldestDirtySeq = 0 := by
  induction n with
  | zero => exact fun _ _ h _ => h
  | succ i ih =>
    intro found s h hk
    rw [scanBlockLoop]
    by_cases hscan : (s.blockInfo b).blockState.scanned = true
    · obtain ⟨hhdr, hrest⟩ := hk hscan
      have hpage : (scanChunk g e m b i available found s).1.oldestDirtySeq = 0 :=
        scanPage_unset b i found _ ((scanTags_oldestSeq ..).trans h) hhdr
      rw [if_pos hscan]
      dsimp only
      split_ifs with hok
      · exact ih _ _ hpage (hrest hok)
      · exact hpage
    · rw [if_neg hscan]
      exact h

theorem scanBlock_unset (b : ℕ) {s : ScanDev} (h : s.oldestDirtySeq = 0)
    (hk : let r := s.onDev fun d => d.onBlocks (summaryRead g m.reader b)
      KeepsFilesOfBlock g e m b r.2 (if r.2 then g.summaryChunks else g.chunksPerBlock) false r.1) :
    (scanBlock g e m b s).1.oldestDirtySeq = 0 :=
  finishBlock_unset (scanBlockLoop_unset b _ _ _ _ ((summaryRead_oldestSeq m.reader b s.toBlockDev).trans h) hk)

theorem scanBlocks_unset (l : List ℕ) : ∀ s : ScanDev, s.oldestDirtySeq = 0 → KeepsFilesOfBlocks g e m l s →
    (scanBlocks g e m l s).1.oldestDirtySeq = 0 := by
  induction l with
  | nil => exact fun _ h _ => h
  | cons b l ih =>
    intro s h hk
    have hblock := scanBlock_unset b h hk.1
    unfold scanBlocks
    dsimp only
    split_ifs with hok
    · exact ih _ hblock (hk.2 hok)
    · exact hblock

theorem linkFixup_blocks (s : ScanDev) : (linkFixup s).toBlockDev = s.toBlockDev := by
  have hfold : ∀ (l : List ℕ) (d : Dev), (l.foldl linkFixupStep d).toBlockDev = d.toBlockDev := by
    intro l
    induction l with
    | nil => exact fun _ => rfl
    | cons hl l ih =>
      intro d
      refine (ih _).trans ?_
      unfold linkFixupStep
      split <;> rfl
  exact hfold s.hardList s.toDev

/-- A scan that changes no file into something else leaves the oldest dirty block to be looked for. -/
theorem scanBackwards_unset {old : BlockDev} (h : ScanKeepsFiles g e m old) :
    (scanBackwards g e m (mountDev g m old)).1.oldestDirtySeq = 0 := by
  have hquery : (g.blocks.foldl (queryBlock g m)
      ({ (mountDev g m old).toBlockDev with seqNumber := lowestSequenceNumber, blocksInCheckpt := 0 },
        [])).1.oldestDirtySeq = 0 := queryBlocks_oldestSeq m g.blocks _
  have hscan := scanBlocks_unset _ _ hquery h
  unfold scanBackwards
  dsimp only
  rw [linkFixup_blocks]
  exact (skipRestOfBlock_oldestSeq _).trans hscan

/-! ## Runs that keep the oldest dirty block right -/

theorem SeqRun.keeps (h : SeqRun g (SummaryYoung g) (ScanKeepsFiles g) s) : InOrder g s ∧ OldestDirty g s.dev := by
  induction h with
  | mounted hord _ hzero => exact ⟨hord, OldestDirty.zero hzero⟩
  | step _ hstep ih => exact hstep.keeps ih.1 ih.2
  | rescan e m _ _ hscan hord _ => exact ⟨hord, OldestDirty.zero (scanBackwards_unset hscan)⟩

/-- The sample device with blocks of eight chunks. -/
def shortGeometry : Geometry where
  toParam := { sampleGeometry.toParam with chunksPerBlock := 8, endBlock := 8 }
  two_le_chunksPerBlock := by decide
  two_le_nReservedBlocks := by decide
  startBlock_pos := by decide
  endBlock_gt := by decide
  chunkGrpSize_le := by decide
  objHdrSize_le := by decide
  chunks_lt := by decide

/-- Blank flash on which the first `n` chunks of a file have been written. -/
def writtenChunks : ℕ → BlockDev
  | 0 => blankBlocks shortGeometry fun _ => false
  | n + 1 => (writeNewChunk shortGeometry okEnv .blank { objId := 257, chunkId := n + 1, nBytes := 512 } false
      (writtenChunks n)).1

/-- A chunk of the second block is deleted, where a shrink header lies, and gc looks at two blocks. -/
def searchTwo (d : BlockDev) : BlockDev :=
  chooseBlock shortGeometry false false (chooseBlock shortGeometry false false
    (setShrinkHdr 2 (chunkDel shortGeometry okEnv 16 true d)))

/-- A read of the first block fails, so that gc chooses it. -/
def chooseFirst (d : BlockDev) : BlockDev :=
  chooseBlock shortGeometry false false (handleChunkError 1 (searchTwo d))

/-- gc starts on the first block, and leaves it at once. -/
def suspendFirst (d : BlockDev) : BlockDev :=
  suspendGc 1 (gcBlockStart shortGeometry 1 (chooseFirst d))

variable {ok : ℕ → BlockDev → Prop} {okScan : Env → MountParam → BlockDev → Prop}

theorem writtenChunks_run (n : ℕ) : SeqRun shortGeometry ok okScan { dev := writtenChunks n } := by
  induction n with
  | zero => exact .mounted ⟨blankBlocks_accounts shortGeometry _ _, fun _ _ => rfl⟩ rfl rfl
  | succ n ih => exact ih.step (.write okEnv .blank false rfl (show (257 : ℕ) ≠ objectIdSummary by decide))

theorem SeqRun.choose (h : SeqRun g ok okScan { dev := d }) (aggressive background : Bool) :
    SeqRun g ok okScan { dev := chooseBlock g aggressive background d } :=
  h.step (.choose aggressive background rfl)

/-- gc starts on the block it has chosen, and leaves it at once. -/
theorem SeqRun.suspend (h : SeqRun g ok okScan { dev := d }) (hb : b ∈ g.blocks) (hblock : d.gc.block = b)
    (hok : ok b d) (hcol : ((gcBlockStart g b d).blockInfo b).blockState = .collecting) :
    SeqRun g ok okScan { dev := suspendGc b (gcBlockStart g b d) } := by
  subst hblock
  have hcollect := h.step (.collect rfl (pos_of_mem_blocks hb).ne' hok)
  exact hcollect.step (.suspend rfl hb hcol)

theorem suspendFirst_run (h : SeqRun shortGeometry ok okScan { dev := d }) (hbit : d.chunkBits 16 = true)
    (hblock : (chooseFirst d).gc.block = 1) (hok : ok 1 (chooseFirst d))
    (hcol : ((gcBlockStart shortGeometry 1 (chooseFirst d)).blockInfo 1).blockState = .collecting) :
    SeqRun shortGeometry ok okScan { dev := suspendFirst d } := by
  have hshrunk := (h.step (.del okEnv true hbit rfl)).step (.shrink (b := 2) (by decide))
  have hsearched : SeqRun shortGeometry ok okScan { dev := searchTwo d } :=
    (SeqRun.choose hshrunk false false).choose false false
  have herror : SeqRun shortGeometry ok okScan { dev := handleChunkError 1 (searchTwo d) } :=
    hsearched.step (.error (by decide))
  have hchosen : SeqRun shortGeometry ok okScan { dev := chooseFirst d } := herror.choose false false
  exact hchosen.suspend (by decide) hblock hok hcol

/-- Two blocks are full with their summaries, and then gc starts on the first one. -/
theorem suspendFirst_facts :
    (writtenChunks 14).chunkBits 16 = true ∧ (chooseFirst (writtenChunks 14)).gc.block = 1 ∧
    ((gcBlockStart shortGeometry 1 (chooseFirst (writtenChunks 14))).blockInfo 1).blockState = .collecting ∧
    (suspendFirst (writtenChunks 14)).oldestDirtySeq = 4098 ∧
    ((suspendFirst (writtenChunks 14)).blockInfo 1).blockState = .full ∧
    ((suspendFirst (writtenChunks 14)).blockInfo 1).pagesInUse = 7 ∧
    ((suspendFirst (writtenChunks 14)).blockInfo 1).softDelPages = 0 ∧
    ((suspendFirst (writtenChunks 14)).blockInfo 1).seqNumber = 4097 := by
  decide +kernel

end Yaffs
