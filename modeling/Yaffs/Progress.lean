import Yaffs.Sparing

/-!
# Progress of garbage collection

A collection goes over the chunks of its block in steps, with other calls of the core in
between. What it has passed must not be in use, so that at the end of the block there is
nothing left, and no chunk of a live object may go before its copy is there.

gc counts its cursor up behind a chunk it could not copy, and does not look whether a page
could be read. `gc_progress` : as long as neither happens, a collection makes its way.
-/

namespace Yaffs

variable (g : Geometry) (e : Env)

/-! ## gc with reads that fail -/

/-- The page `yaffs_gc_process_chunk` goes by, where `rd` says of which chunks the read
succeeds. The tags are cleared before the read, and its result is not looked at. -/
def gcReadPage (rd : ℕ → Bool) (old : ℕ) (d : BlockDev) : Page :=
  if rd old then (d.nand.flash old).getD ⟨{}, .blank⟩ else ⟨{}, .blank⟩

/-- What `yaffs_gc_process_chunk` does with the page. -/
def gcProcessPage (old : ℕ) (p : Page) (d : Dev) : Dev × Bool :=
  match findByNumber d p.tags.objId with
  | none => (d.mapBlocks (chunkDel g e old true), true)
  | some o =>
    if (d.obj o).deleted ∧ (d.obj o).softDel ∧ p.tags.chunkId ≠ 0 then (gcDropChunk g e o old d, true)
    else if p.tags.chunkId = 0 then gcCopyHdr g e o old p d
    else gcCopyData g e o old p d

/-- `yaffs_gc_process_chunk`. -/
def gcProcessChunkRd (rd : ℕ → Bool) (old : ℕ) (d : Dev) : Dev × Bool :=
  gcProcessPage g e old (gcReadPage rd old d.toBlockDev) d

/-- `gc_chunk++`. -/
def nextGcChunk (d : Dev) : Dev :=
  d.mapBlocks fun b => { b with gc := { b.gc with chunk := b.gc.chunk + 1 } }

/-- Whether the loop of `yaffs_gc_block` goes on. -/
def gcGoesOn (b maxCopies : ℕ) (d : Dev) : Prop :=
  d.gc.chunk < g.chunksPerBlock ∧ (d.blockInfo b).blockState = .collecting ∧ 0 < maxCopies

instance (b maxCopies : ℕ) (d : Dev) : Decidable (gcGoesOn g b maxCopies d) :=
  inferInstanceAs (Decidable (_ ∧ _))

/-- The loop of `yaffs_gc_block`, over the function that processes a chunk. -/
def gcLoop (process : ℕ → Dev → Dev × Bool) (b : ℕ) : ℕ → ℕ → Dev → Dev × Bool
  | 0, _, d => (d, true)
  | n + 1, maxCopies, d =>
    if gcGoesOn g b maxCopies d then
      let old := b * g.chunksPerBlock + d.gc.chunk
      if d.chunkBits old then
        let r := process old d
        if r.2 then gcLoop process b n (maxCopies - 1) (nextGcChunk r.1) else (nextGcChunk r.1, false)
      else gcLoop process b n maxCopies (nextGcChunk d)
    else (d, true)

/-- `P` holds of every chunk the loop processes, in the state in which it does. -/
def EachChunk (process : ℕ → Dev → Dev × Bool) (b : ℕ) (P : ℕ → Dev → Prop) : ℕ → ℕ → Dev → Prop
  | 0, _, _ => True
  | n + 1, maxCopies, d =>
    gcGoesOn g b maxCopies d →
      let old := b * g.chunksPerBlock + d.gc.chunk
      if d.chunkBits old then
        P old d ∧ ((process old d).2 = true →
          EachChunk process b P n (maxCopies - 1) (nextGcChunk (process old d).1))
      else EachChunk process b P n maxCopies (nextGcChunk d)

/-- The copies a step of gc makes at most. -/
def gcMaxCopies (wholeBlock : Bool) : ℕ :=
  if wholeBlock then g.chunksPerBlock else 5

/-- `yaffs_gc_block` before its end : the block is erased, or its chunks are gone over. -/
def gcSweep (rd : ℕ → Bool) (b : ℕ) (wholeBlock : Bool) (d : Dev) : Dev × Bool :=
  let isCheckptBlock := decide ((d.blockInfo b).blockState = .checkpoint)
  let d := d.mapBlocks (gcBlockStart g b)
  if isCheckptBlock || !stillSomeChunks g b d.toBlockDev then
    (d.mapBlocks (blockBecameDirty g e b), true)
  else gcLoop g (gcProcessChunkRd g e rd) b g.chunksPerBlock (gcMaxCopies g wholeBlock) d

/-- `yaffs_gc_block`. -/
def gcBlockRd (rd : ℕ → Bool) (b : ℕ) (wholeBlock : Bool) (d : Dev) : Dev × Bool :=
  let r := gcSweep g e rd b wholeBlock d
  (gcBlockEnd g e b r.1, r.2)

/-- `P` holds of every chunk `yaffs_gc_block` processes. -/
def EachOfBlock (rd : ℕ → Bool) (b : ℕ) (P : ℕ → Dev → Prop) (wholeBlock : Bool) (d : Dev) : Prop :=
  EachChunk g (gcProcessChunkRd g e rd) b P g.chunksPerBlock (gcMaxCopies g wholeBlock)
    (d.mapBlocks (gcBlockStart g b))

/-! ## What other calls do in between -/

/-- A call of the block management on behalf of some function of the core. -/
inductive BlockCall : BlockDev → BlockDev → Prop
  | del {d : BlockDev} (e : Env) {c : ℕ} (m : Bool) : d.chunkBits c = true →
      BlockCall d (chunkDel g e c m d)
  | softDel {d : BlockDev} {c : ℕ} : d.chunkBits c = true → BlockCall d (softDelChunk g c d)
  | write {d : BlockDev} (e : Env) (data : PageData) {t : ExtTags} (useReserver : Bool) :
      t.isDeleted = false → t.objId ≠ objectIdSummary → BlockCall d (writeNewChunk g e data t useReserver d).1
  | shrink {d : BlockDev} {b : ℕ} : BlockCall d (d.modBlock b fun bi => { bi with hasShrinkHdr := true })
  | counts {d d' : BlockDev} (n : ℕ) : CountsOnly d d' → BlockCall d { d' with nObj := n }

/-- No block is in transit. -/
def noTransit (_ : ℕ) (_ : BlockState) : Prop :=
  False

/-- The core is between two calls. -/
structure Settled (d : Dev) : Prop where
  inv : Inv g noTransit d
  clean : CleanList d

/-- Calls of the core that are not gc's : the deletion of objects, of chunks of files, the
writing of others. -/
structure Foreground (d d' : Dev) : Prop where
  calls : Relation.ReflTransGen (BlockCall g) d.toBlockDev d'.toBlockDev
  settled : Settled g d'

/-! ## Runs -/

/-- Runs of gc, step by step, with other calls in between. `ok` is what is required of a
step : its driver, the reads that succeed, whether it is a full one, and its start. -/
inductive GcRun (ok : Env → (ℕ → Bool) → Bool → Dev → Prop) : Dev → Prop
  | start {d : Dev} : Settled g d → d.gc.block = 0 → GcRun ok d
  | choose {d : Dev} (aggressive background : Bool) : GcRun ok d →
      GcRun ok (chooseGcBlock g aggressive background d)
  | collect {d : Dev} (e : Env) (rd : ℕ → Bool) (wholeBlock : Bool) : GcRun ok d → 0 < d.gc.block →
      ok e rd wholeBlock d → GcRun ok (gcBlockRd g e rd d.gc.block wholeBlock d).1
  | foreground {d d' : Dev} : GcRun ok d → Foreground g d d' → GcRun ok d'

/-! ## What gc has to keep -/

/-- Between steps of gc : what it has passed of its block is not in use, it is not at the end
of the block, and the block is full, so that it can be taken up again. -/
structure OnItsWay (d : BlockDev) : Prop where
  full : d.gc.block ≠ 0 → (d.blockInfo d.gc.block).blockState = .full
  passed : d.gc.block ≠ 0 → ∀ i < d.gc.chunk, d.chunkBits (d.gc.block * g.chunksPerBlock + i) = false
  notAtEnd : d.gc.block ≠ 0 → d.gc.chunk < g.chunksPerBlock

/-- The page `p` of chunk `old` has a copy, and the object knows it. -/
def Copied (p : Page) (old : ℕ) (d : Dev) : Prop :=
  ∃ c q, c ≠ old ∧ d.kept c = some q ∧ q.key = p.key ∧ q.data.core = p.data.core ∧
    if p.tags.chunkId = 0 then (d.obj p.tags.objId).hdrChunk = c
    else (d.obj p.tags.objId).file.entry p.tags.chunkId = groupOf g c

/-- Processing the chunk `old` releases no other chunk of its block, and it releases a chunk
of a live object only when that has its copy. -/
structure CopiedFirst (rd : ℕ → Bool) (old : ℕ) (d : Dev) : Prop where
  others : ∀ c, c / g.chunksPerBlock = old / g.chunksPerBlock → c ≠ old → d.chunkBits c = true →
    (gcProcessChunkRd g e rd old d).1.chunkBits c = true
  copied : ∀ p, d.kept old = some p → (d.obj p.tags.objId).softDel = false ∨ p.tags.chunkId = 0 →
    (gcProcessChunkRd g e rd old d).1.chunkBits old = true ∨
    ∃ x m, (gcProcessChunkRd g e rd old d).1 = x.mapBlocks (chunkDel g e old m) ∧
      x.chunkBits old = true ∧ Copied g p old x

/-- A step of gc on its block : no chunk goes before its copy is there, no live object sees
the step, and at its end the block has been erased or retired, or is to be taken up again. -/
structure StepKeeps (rd : ℕ → Bool) (wholeBlock : Bool) (d : Dev) : Prop where
  copied : EachOfBlock g e rd d.gc.block (CopiedFirst g e rd) wholeBlock d
  frame : GcFrame [] [] d (gcBlockRd g e rd d.gc.block wholeBlock d).1
  ended : (((gcSweep g e rd d.gc.block wholeBlock d).1.blockInfo d.gc.block).blockState = .empty ∨
      ((gcSweep g e rd d.gc.block wholeBlock d).1.blockInfo d.gc.block).blockState = .dead) ∧
      (gcBlockRd g e rd d.gc.block wholeBlock d).1.gc.block = 0 ∨
    (gcBlockRd g e rd d.gc.block wholeBlock d).1.gc.block = d.gc.block

/-- In every run whose steps meet `ok`, gc is on its way in every state, and every step that
meets `ok` keeps what it has to. -/
def GcProgress (ok : Env → (ℕ → Bool) → Bool → Dev → Prop) : Prop :=
  ∀ d, GcRun g ok d → OnItsWay g d.toBlockDev ∧
    ∀ e rd wholeBlock, 0 < d.gc.block → ok e rd wholeBlock d → StepKeeps g e rd wholeBlock d

/-! ## The condition -/

/-- The page gc writes in place of chunk `old`, if it makes a copy. -/
def gcCopyPage (old : ℕ) (d : Dev) : Option Page :=
  let p := (d.nand.flash old).getD ⟨{}, .blank⟩
  match findByNumber d p.tags.objId with
  | none => none
  | some o =>
    if (d.obj o).deleted ∧ (d.obj o).softDel ∧ p.tags.chunkId ≠ 0 then none
    else some (if p.tags.chunkId = 0 then gcHdrPage d o p else p)

/-- The chunk can be read, and if it is to be copied `yaffs_write_new_chunk` gets a chunk for it. -/
def CanProcess (rd : ℕ → Bool) (old : ℕ) (d : Dev) : Prop :=
  rd old = true ∧ ∀ q, gcCopyPage old d = some q →
    (writeNewChunk g e q.data q.tags true d.toBlockDev).2 ≠ none

/-- No read and no copy of a step fails. -/
def NoneFails (e : Env) (rd : ℕ → Bool) (wholeBlock : Bool) (d : Dev) : Prop :=
  EachOfBlock g e rd d.gc.block (CanProcess g e rd) wholeBlock d

variable {g e}

theorem gcProcessChunkRd_read {rd : ℕ → Bool} {old : ℕ} (h : rd old = true) (d : Dev) :
    gcProcessChunkRd g e rd old d = gcProcessChunk g e old d := by
  simp only [gcProcessChunkRd, gcReadPage, h, if_true]
  rfl

theorem gcLoop_read {rd : ℕ → Bool} (h : ∀ c, rd c = true) (b n : ℕ) : ∀ (maxCopies : ℕ) (d : Dev),
    gcLoop g (gcProcessChunkRd g e rd) b n maxCopies d = gcBlockLoop g e b n maxCopies d := by
  induction n with
  | zero => exact fun _ _ => rfl
  | succ n ih =>
    intro maxCopies d
    simp only [gcLoop, gcBlockLoop, gcGoesOn, gcProcessChunkRd_read (h _), ih]
    rfl

/-- With reads that succeed this is the gc of the runs of the core. -/
theorem gcBlockRd_read {rd : ℕ → Bool} (h : ∀ c, rd c = true) (b : ℕ) (whole : Bool) (d : Dev) :
    gcBlockRd g e rd b whole d = gcBlock g e b whole d := by
  simp only [gcBlockRd, gcSweep, gcBlock, gcLoop_read h, gcMaxCopies]

/-! ## One chunk -/

section Chunk

variable {T : ℕ → BlockState → Prop} {d x : Dev} {o old : ℕ} {p : Page}

/-- The device `x` is ready for the deletion of chunk `old` : its block is as in `d`, and a
chunk of a live object has its copy. -/
structure ReadyToDelete (g : Geometry) (T : ℕ → BlockState → Prop) (old : ℕ) (d x : Dev) : Prop where
  blk : BlkInv g T x.toBlockDev
  same : SameBlock g (old / g.chunksPerBlock) d.toBlockDev x.toBlockDev
  copied : ∀ p, d.kept old = some p → (d.obj p.tags.objId).softDel = false ∨ p.tags.chunkId = 0 →
    Copied g p old x

/-- gc is at the block of chunk `old`. -/
structure AtChunk (g : Geometry) (old : ℕ) (d : BlockDev) : Prop where
  bit : d.chunkBits old = true
  gcBlock : d.gc.block = old / g.chunksPerBlock
  state : (d.blockInfo (old / g.chunksPerBlock)).blockState.collectable = true

/-- The write of a copy. -/
theorem copyWritten (h : Inv g T d) (hat : AtChunk g old d.toBlockDev) (hp : d.kept old = some p) {q : Page}
    (hkey : q.key = p.key) (hdel : q.tags.isDeleted = p.tags.isDeleted) {c : ℕ} {bd : BlockDev}
    (hr : writeNewChunk g e q.data q.tags true d.toBlockDev = (bd, some c)) :
    BlkInv g T bd ∧ SameBlock g (old / g.chunksPerBlock) d.toBlockDev bd ∧ c ∈ g.chunks ∧ c ≠ old ∧
      ∃ q', bd.kept c = some q' ∧ q'.key = p.key ∧ q'.data = q.data := by
  have hown := h.own.page old p hp
  have hobj : q.tags.objId = p.tags.objId := congrArg Prod.fst hkey
  have hid : q.tags.objId ≠ objectIdSummary := hobj ▸ (kept_eq_some.mp hp).2.2
  have hunmarked := hdel.trans hown.unmarked
  have hsame := writeNewChunk_sameBlock (e := e) h.acc.ready (h.acc.blk.bit_mem old hat.bit) hat.state
    hat.gcBlock q.data hunmarked hid true
  have hspec := writeNewChunk_spec (e := e) h.acc.ready q.data hunmarked hid true
  rw [hr] at hsame hspec
  obtain ⟨hc, -, q', hq', hw⟩ := hspec
  refine ⟨hw.keeps.blk, hsame, hw.mem_chunks (c := c) (p := q') (by simp), ?_, q', by simp [hw.kept], ?_, hq'.data⟩
  · rintro rfl
    rw [hc] at hp
    exact absurd hp (by simp)
  · rw [← hkey]
    exact Prod.ext hq'.objId hq'.chunkId

theorem gcCopyHdr_ready (h : Inv g T d) (hat : AtChunk g old d.toBlockDev) (hp : d.kept old = some p)
    (hkey : p.key = (o, 0)) (hok : (writeNewChunk g e (gcHdrPage d o p).data (gcHdrPage d o p).tags true
      d.toBlockDev).2 ≠ none) : ∃ x m, ReadyToDelete g T old d x ∧
        gcCopyHdr g e o old p d = (x.mapBlocks (chunkDel g e old m), true) := by
  obtain ⟨hpo, hpk⟩ := Prod.mk.inj hkey
  unfold gcCopyHdr
  simp only [Dev.onBlocks]
  rcases hr : writeNewChunk g e (gcHdrPage d o p).data (gcHdrPage d o p).tags true d.toBlockDev with ⟨bd, res⟩
  rw [hr] at hok
  obtain ⟨c, rfl⟩ := Option.ne_none_iff_exists'.mp hok
  obtain ⟨hblk, hsame, -, hne, q, hq, hqkey, hdata⟩ := copyWritten h hat hp (q := gcHdrPage d o p) rfl rfl hr
  refine ⟨({ d with toBlockDev := bd } : Dev).modObj o fun ob => { ob with hdrChunk := c }, true, ?_, rfl⟩
  refine ⟨hblk, hsame, fun p' hp' _ => ⟨c, q, hne, hq, ?_⟩⟩
  obtain rfl := Option.some.inj (hp.symm.trans hp')
  refine ⟨hqkey, by rw [hdata, gcHdrPage_core], ?_⟩
  rw [if_pos hpk, hpo]
  simp [Dev.modObj]

theorem gcCopyData_ready (h : Inv g T d) (hat : AtChunk g old d.toBlockDev) (hp : d.kept old = some p)
    (hpo : p.tags.objId = o) (hk : p.tags.chunkId ≠ 0) (hsoft : (d.obj o).softDel = false)
    (hok : (writeNewChunk g e p.data p.tags true d.toBlockDev).2 ≠ none) :
    ∃ x m, ReadyToDelete g T old d x ∧ gcCopyData g e o old p d = (x.mapBlocks (chunkDel g e old m), true) := by
  have hown := h.own.page old p hp
  rw [hpo] at hown
  obtain ⟨hfile, -, hentry⟩ := hown.data hk
  have hentry := hentry hsoft
  have hhas : (d.obj o).file.Has p.tags.chunkId := by
    refine FileVar.has_of_entry ?_
    rw [hentry]
    exact groupOf_ne_zero hown.mem
  unfold gcCopyData
  simp only [Dev.onBlocks]
  rcases hr : writeNewChunk g e p.data p.tags true d.toBlockDev with ⟨bd, res⟩
  rw [hr] at hok
  obtain ⟨c, rfl⟩ := Option.ne_none_iff_exists'.mp hok
  obtain ⟨hblk, hsame, hmem, hne, q, hq, hqkey, hdata⟩ := copyWritten h hat hp rfl rfl hr
  have hc0 : c ≠ 0 := fun h0 => zero_not_mem_chunks (h0 ▸ hmem)
  simp only [putChunkInFile_has (d := { d with toBlockDev := bd }) (g := g) (e := e) hfile hhas hc0]
  refine ⟨_, true, ⟨hblk, hsame, fun p' hp' _ => ⟨c, q, hne, hq, ?_⟩⟩, rfl⟩
  obtain rfl := Option.some.inj (hp.symm.trans hp')
  refine ⟨hqkey, by rw [hdata], ?_⟩
  rw [if_neg hk, hpo]
  simp [Dev.modObj, FileVar.entry_load hhas]

theorem gcDropChunk_ready (h : Inv g T d) (hp : d.kept old = some p) (hpo : p.tags.objId = o)
    (hk : p.tags.chunkId ≠ 0) (hsoft : (d.obj o).softDel = true) :
    ∃ x m, ReadyToDelete g T old d x ∧ gcDropChunk g e o old d = x.mapBlocks (chunkDel g e old m) := by
  have hblk := h.acc.blk.flags (b := old / g.chunksPerBlock)
    (f := fun bi => { bi with softDelPages := bi.softDelPages - 1 })
    (fun _ => rfl) (fun _ => rfl) (fun _ => rfl) (fun _ => rfl)
  unfold gcDropChunk
  refine ⟨_, false, ⟨?_, ?_, fun p' hp' hlive => ?_⟩, rfl⟩
  · dsimp only
    split_ifs <;> exact { hblk with }
  · dsimp only
    split_ifs <;> exact ⟨rfl, rfl, by simp [Dev.modObj, Dev.mapBlocks, BlockDev.modBlock],
      by simp [Dev.modObj, Dev.mapBlocks, BlockDev.modBlock], fun _ _ => rfl⟩
  · obtain rfl := Option.some.inj (hp.symm.trans hp')
    rw [hpo, hsoft] at hlive
    exact absurd hlive (by simp [hk])

/-- With a chunk to copy to, gc deletes the chunk when it has done what it has to. -/
theorem gcProcessChunk_ready (h : Inv g T d) (hat : AtChunk g old d.toBlockDev)
    (hok : ∀ q, gcCopyPage old d = some q → (writeNewChunk g e q.data q.tags true d.toBlockDev).2 ≠ none) :
    ∃ x m, ReadyToDelete g T old d x ∧ gcProcessChunk g e old d = (x.mapBlocks (chunkDel g e old m), true) := by
  obtain ⟨p, hp⟩ := Option.ne_none_iff_exists'.mp (h.acc.programmed old hat.bit)
  unfold gcProcessChunk
  simp only [gcCopyPage, hp, Option.getD_some] at hok ⊢
  by_cases hsum : p.tags.objId = objectIdSummary
  · have hnone : findByNumber d p.tags.objId = none := by
      unfold findByNumber
      rw [if_neg fun hid => h.own.ids_ne _ hid.1 hsum]
    rw [hnone]
    refine ⟨d, true, ⟨h.acc.blk, ⟨rfl, rfl, rfl, rfl, fun _ _ => rfl⟩, fun q hq _ => ?_⟩, rfl⟩
    obtain ⟨-, hq, hne⟩ := kept_eq_some.mp hq
    exact absurd (Option.some.inj (hp.symm.trans hq) ▸ hsum) hne
  · have hk : d.kept old = some p := kept_eq_some.mpr ⟨hat.bit, hp, hsum⟩
    have hown := h.own.page old p hk
    have hfind : findByNumber d p.tags.objId = some p.tags.objId := by
      unfold findByNumber
      rw [if_pos ⟨hown.id, hown.notFreed⟩]
    simp only [hfind] at hok ⊢
    split_ifs at hok ⊢ with hdrop hhdr
    · obtain ⟨x, m, hready, heq⟩ := gcDropChunk_ready (e := e) h hk rfl hdrop.2.2 hdrop.2.1
      exact ⟨x, m, hready, by rw [heq]⟩
    · exact gcCopyHdr_ready h hat hk (Prod.ext rfl hhdr) (hok _ rfl)
    · refine gcCopyData_ready h hat hk rfl hhdr ?_ (hok _ rfl)
      cases hs : (d.obj p.tags.objId).softDel with
      | false => rfl
      | true => exact absurd ⟨(h.own.soft _ hs).1, hs, hhdr⟩ hdrop

end Chunk

/-! ## The deletion -/

section Sweep

variable {T : ℕ → BlockState → Prop} {b old : ℕ}

/-- gc is at work on block `b` : what it has passed is not in use, but some of it is. -/
structure Collecting (g : Geometry) (b : ℕ) (d : BlockDev) : Prop where
  gcBlock : d.gc.block = b
  state : (d.blockInfo b).blockState = .collecting
  noShrink : (d.blockInfo b).hasShrinkHdr = false
  inUse : ¬NoBits g b d.chunkBits
  passed : ∀ i < d.gc.chunk, d.chunkBits (b * g.chunksPerBlock + i) = false

/-- Block `b` has been erased or retired, and gc has left it. -/
def Finished (b : ℕ) (d : BlockDev) : Prop :=
  ((d.blockInfo b).blockState = .empty ∨ (d.blockInfo b).blockState = .dead) ∧ d.gc.block = 0

variable {d d' : BlockDev}

theorem Collecting.notAtEnd (h : Collecting g b d) : d.gc.chunk < g.chunksPerBlock := by
  by_contra hge
  refine h.inUse fun c hc => ?_
  have hlt := Nat.mod_lt c (chunksPerBlock_pos (g := g))
  have hbit := h.passed (c % g.chunksPerBlock) (by omega)
  rwa [← hc, Nat.mul_comm, Nat.div_add_mod] at hbit

theorem Collecting.of_sameBlock (h : Collecting g b d) (hs : SameBlock g b d d') : Collecting g b d' where
  gcBlock := hs.gcBlock.trans h.gcBlock
  state := hs.state.trans h.state
  noShrink := hs.shrink.trans h.noShrink
  inUse hno := h.inUse fun c hc => (hs.bits c hc).symm.trans (hno c hc)
  passed i hi := by
    have hlt := h.notAtEnd
    rw [hs.gcChunk] at hi
    rw [hs.bits _ (chunk_div (by omega))]
    exact h.passed i hi

/-- The block that loses its last chunk goes, any other is still being collected. -/
theorem Collecting.chunkDel (h : Collecting g b d) (hblk : BlkInv g T d) (hbit : d.chunkBits old = true)
    (hdiv : old / g.chunksPerBlock = b) (m : Bool) :
    Finished b (chunkDel g e old m d) ∨ Collecting g b (chunkDel g e old m d) := by
  have hspec := chunkDel_spec (e := e) hblk hbit m
  obtain ⟨hrel, hinfo⟩ := markAndRelease_spec (e := e) hblk hbit m
  have heq := chunkDel_eq (e := e) hblk hbit m
  have hgc : (releasedChunk g e old m d).gc.block = b := by rw [releasedChunk_gc, h.gcBlock]
  have hmem := hblk.bit_mem old hbit
  change DeletedChunk g T old d (releasedChunk g e old m d) at hrel
  change (releasedChunk g e old m d).blockInfo (old / g.chunksPerBlock) = _ at hinfo
  rw [hdiv] at hinfo hmem heq
  split_ifs at heq with hdirty
  · left
    have hzero : ((releasedChunk g e old m d).blockInfo b).pagesInUse = 0 := by
      simp only [BlockInfo.becameDirty, Bool.and_eq_true, decide_eq_true_eq] at hdirty
      exact hdirty.1.1.1
    have hcol : ((releasedChunk g e old m d).blockInfo b).blockState.collectable = true := by
      rw [hinfo, h.state]
      rfl
    have hno : NoBits g b (releasedChunk g e old m d).chunkBits := by
      rw [← countChunkBits_eq_zero, ← hrel.blk.pages b hmem, hzero]
    have herased := blockBecameDirty_spec (e := e) hrel.blk hmem hcol hno
    rw [heq]
    refine ⟨herased.state, ?_⟩
    rw [blockBecameDirty_gc, GcCursor.drop_block, hgc, if_pos rfl]
  · right
    have hbits : ∀ c, (Yaffs.chunkDel g e old m d).chunkBits c = true → d.chunkBits c = true := by
      intro c hc
      rw [hspec.quiet.bits] at hc
      by_cases hco : c = old
      · simp [BlockDev.clearChunkBit, hco] at hc
      · simpa [BlockDev.clearChunkBit, hco] using hc
    have hstate : ((releasedChunk g e old m d).blockInfo b).blockState = .collecting := by
      rw [hinfo]
      exact h.state
    have hshrink : ((releasedChunk g e old m d).blockInfo b).hasShrinkHdr = false := by
      rw [hinfo]
      exact h.noShrink
    refine ⟨by rw [heq, hgc], by rw [heq, hstate], by rw [heq, hshrink], fun hno => hdirty ?_, fun i hi => ?_⟩
    · have hzero := hspec.blk.pages b hmem
      rw [countChunkBits_eq_zero.mpr hno, heq] at hzero
      simp [BlockInfo.becameDirty, hzero, hstate, hshrink]
    · have hchunk : (Yaffs.chunkDel g e old m d).gc.chunk = d.gc.chunk := hspec.quiet.gcChunk
      have hpassed := h.passed i (hchunk ▸ hi)
      cases hb : (Yaffs.chunkDel g e old m d).chunkBits (b * g.chunksPerBlock + i) with
      | false => rfl
      | true => exact absurd ((hbits _ hb).symm.trans hpassed) (by simp)

/-! ## The loop -/

variable {rd : ℕ → Bool} {x : Dev}

theorem Collecting.next (h : Collecting g b x.toBlockDev)
    (hbit : x.chunkBits (b * g.chunksPerBlock + x.gc.chunk) = false) :
    Collecting g b (nextGcChunk x).toBlockDev where
  gcBlock := h.gcBlock
  state := h.state
  noShrink := h.noShrink
  inUse := h.inUse
  passed i hi := by
    rcases Nat.lt_succ_iff_lt_or_eq.mp hi with hi | rfl
    · exact h.passed i hi
    · exact hbit

theorem nextGcChunk_collected (h : Inv g T x) : Collected g T [] [] x (nextGcChunk x) :=
  Collected.setGc h { x.gc with chunk := x.gc.chunk + 1 } (Or.inl rfl) (Or.inl rfl)

theorem Collecting.atChunk (h : Collecting g b d) (hbit : d.chunkBits (b * g.chunksPerBlock + d.gc.chunk) = true) :
    AtChunk g (b * g.chunksPerBlock + d.gc.chunk) d := by
  have hdiv := chunk_div (b := b) h.notAtEnd
  refine ⟨hbit, by rw [hdiv, h.gcBlock], ?_⟩
  rw [hdiv, h.state]
  rfl

/-- A block that is finished has no chunk to process, and the loop ends. -/
theorem Finished.not_goesOn {k : ℕ} (h : Finished b x.toBlockDev) : ¬gcGoesOn g b k (nextGcChunk x) := by
  intro hgo
  have hst : (x.blockInfo b).blockState = .collecting := hgo.2.1
  rcases h.1 with h0 | h0 <;> exact absurd (h0.symm.trans hst) (by decide)

theorem gcLoop_of_not_goesOn {process : ℕ → Dev → Dev × Bool} {n k : ℕ} (h : ¬gcGoesOn g b k x) :
    gcLoop g process b n k x = (x, true) := by
  cases n with
  | zero => rfl
  | succ n => rw [gcLoop, if_neg h]

theorem eachChunk_of_not_goesOn {process : ℕ → Dev → Dev × Bool} {P : ℕ → Dev → Prop} {n k : ℕ}
    (h : ¬gcGoesOn g b k x) : EachChunk g process b P n k x := by
  cases n with
  | zero => trivial
  | succ n => exact fun hgo => absurd hgo h

/-- What processing the chunk at the cursor comes to. -/
structure Processed (g : Geometry) (e : Env) (T : ℕ → BlockState → Prop) (rd : ℕ → Bool) (b : ℕ) (x : Dev) :
    Prop where
  ok : (gcProcessChunkRd g e rd (b * g.chunksPerBlock + x.gc.chunk) x).2 = true
  collected : Collected g T [] [] x (gcProcessChunkRd g e rd (b * g.chunksPerBlock + x.gc.chunk) x).1
  copied : CopiedFirst g e rd (b * g.chunksPerBlock + x.gc.chunk) x
  ended : Finished b (gcProcessChunkRd g e rd (b * g.chunksPerBlock + x.gc.chunk) x).1.toBlockDev ∨
    Collecting g b (nextGcChunk (gcProcessChunkRd g e rd (b * g.chunksPerBlock + x.gc.chunk) x).1).toBlockDev

theorem processed (h : Inv g T x) (hcol : Collecting g b x.toBlockDev)
    (hbit : x.chunkBits (b * g.chunksPerBlock + x.gc.chunk) = true)
    (hok : CanProcess g e rd (b * g.chunksPerBlock + x.gc.chunk) x) : Processed g e T rd b x := by
  have hdiv := chunk_div (b := b) hcol.notAtEnd
  set old := b * g.chunksPerBlock + x.gc.chunk with hold
  have hat : AtChunk g old x.toBlockDev := hcol.atChunk hbit
  obtain ⟨y, m, hready, heq⟩ := gcProcessChunk_ready (e := e) h hat hok.2
  have hread := gcProcessChunkRd_read (g := g) (e := e) hok.1 x
  have hsame := hready.same
  rw [hdiv] at hsame
  have hybit : y.chunkBits old = true := (hsame.bits old hdiv).trans hbit
  have hdel := chunkDel_spec (e := e) hready.blk hybit m
  constructor <;> simp only [← hold, hread]
  · rw [heq]
  · exact gcProcessChunk_collected h hbit
  · refine ⟨fun c hc hne hcbit => ?_, fun p hp hlive => Or.inr ⟨y, m, ?_, hybit, hready.copied p hp hlive⟩⟩
    · rw [hread, heq]
      simp only [Dev.mapBlocks, hdel.quiet.bits, BlockDev.clearChunkBit, Function.update_of_ne hne]
      exact (hsame.bits c (hc.trans hdiv)).trans hcbit
    · rw [hread, heq]
  · rw [heq]
    refine ((hcol.of_sameBlock hsame).chunkDel hready.blk hybit hdiv m).imp id fun hc => hc.next ?_
    have hchunk : (chunkDel g e old m y.toBlockDev).gc.chunk = x.gc.chunk :=
      hdel.quiet.gcChunk.trans hsame.gcChunk
    simp only [Dev.mapBlocks, hchunk, ← hold, hdel.quiet.bits, BlockDev.clearChunkBit, Function.update_self]

/-- The loop of gc, when none of its copies fails. -/
theorem gcLoop_progress (n : ℕ) : ∀ (maxCopies : ℕ) (x : Dev), Inv g T x → Collecting g b x.toBlockDev →
    EachChunk g (gcProcessChunkRd g e rd) b (CanProcess g e rd) n maxCopies x →
    let r := gcLoop g (gcProcessChunkRd g e rd) b n maxCopies x
    Collected g T [] [] x r.1 ∧ (Finished b r.1.toBlockDev ∨ Collecting g b r.1.toBlockDev) ∧
      EachChunk g (gcProcessChunkRd g e rd) b (CopiedFirst g e rd) n maxCopies x := by
  induction n with
  | zero => exact fun _ x h hcol _ => ⟨Collected.refl h, Or.inr hcol, trivial⟩
  | succ n ih =>
    intro maxCopies x h hcol hok
    rw [gcLoop, EachChunk]
    by_cases hgo : gcGoesOn g b maxCopies x
    · have hok := hok hgo
      simp only [hgo, if_true, true_implies]
      by_cases hbit : x.chunkBits (b * g.chunksPerBlock + x.gc.chunk) = true
      · simp only [hbit, if_true] at hok ⊢
        have hone := processed h hcol hbit hok.1
        have hrest := hok.2 hone.ok
        have hnext := hone.collected.trans (nextGcChunk_collected hone.collected.inv)
        simp only [hone.ok, if_true, true_implies]
        rcases hone.ended with hfin | hcol'
        · rw [gcLoop_of_not_goesOn hfin.not_goesOn]
          exact ⟨hnext, Or.inl hfin, hone.copied, eachChunk_of_not_goesOn hfin.not_goesOn⟩
        · obtain ⟨hc, hend, heach⟩ := ih _ _ hnext.inv hcol' hrest
          exact ⟨hnext.trans hc, hend, hone.copied, heach⟩
      · simp only [if_neg hbit] at hok ⊢
        have hnext := nextGcChunk_collected h
        obtain ⟨hc, hend, heach⟩ := ih maxCopies _ hnext.inv (hcol.next (by simpa using hbit)) hok
        exact ⟨hnext.trans hc, hend, heach⟩
    · simp only [hgo, if_false, false_implies, and_true]
      exact ⟨Collected.refl h, Or.inr hcol⟩

/-- gc gets no chunk for the copy it is to make : the chunk stays in use. -/
theorem gcProcessChunk_fails (h : Inv g T x) (hat : AtChunk g old x.toBlockDev) {q : Page}
    (hq : gcCopyPage old x = some q) (hnone : (writeNewChunk g e q.data q.tags true x.toBlockDev).2 = none) :
    (gcProcessChunk g e old x).2 = false ∧
      SameBlock g (old / g.chunksPerBlock) x.toBlockDev (gcProcessChunk g e old x).1.toBlockDev := by
  obtain ⟨p, hp⟩ := Option.ne_none_iff_exists'.mp (h.acc.programmed old hat.bit)
  have hwrite : ∀ q : Page, q.key = p.key → q.tags.isDeleted = p.tags.isDeleted →
      p.tags.objId ∈ x.ids → SameBlock g (old / g.chunksPerBlock) x.toBlockDev
        (writeNewChunk g e q.data q.tags true x.toBlockDev).1 := by
    intro q hkey hdel hid
    have hobj : q.tags.objId = p.tags.objId := congrArg Prod.fst hkey
    have hk : x.kept old = some p := kept_eq_some.mpr ⟨hat.bit, hp, h.own.ids_ne _ hid⟩
    exact writeNewChunk_sameBlock h.acc.ready (h.acc.blk.bit_mem old hat.bit) hat.state hat.gcBlock q.data
      (hdel.trans (h.own.page old p hk).unmarked) (hobj ▸ h.own.ids_ne _ hid) true
  unfold gcProcessChunk
  simp only [gcCopyPage, hp, Option.getD_some, findByNumber] at hq ⊢
  by_cases hheld : p.tags.objId ∈ x.ids ∧ (x.obj p.tags.objId).deferredFree = false
  · by_cases hdrop : (x.obj p.tags.objId).deleted = true ∧ (x.obj p.tags.objId).softDel = true ∧ p.tags.chunkId ≠ 0
    · simp [hheld, hdrop] at hq
    · rw [if_pos hheld] at hq ⊢
      dsimp only at hq ⊢
      rw [if_neg hdrop, Option.some.injEq] at hq
      rw [if_neg hdrop]
      subst hq
      split_ifs at hnone ⊢
      · simp only [gcCopyHdr, Dev.onBlocks, hnone]
        exact ⟨trivial, hwrite _ rfl rfl hheld.1⟩
      · simp only [gcCopyData, Dev.onBlocks, hnone]
        exact ⟨trivial, hwrite _ rfl rfl hheld.1⟩
  · simp [hheld] at hq

/-- The loop of gc, when it cannot make a copy : it passes the chunk, which stays in use. -/
theorem gcLoop_fails (hrd : ∀ c, rd c = true) (n : ℕ) : ∀ (maxCopies : ℕ) (x : Dev), Inv g T x →
    Collecting g b x.toBlockDev →
    ¬EachChunk g (gcProcessChunkRd g e rd) b (CanProcess g e rd) n maxCopies x →
    let r := gcLoop g (gcProcessChunkRd g e rd) b n maxCopies x
    (r.1.blockInfo b).blockState = .collecting ∧ r.1.gc.block = b ∧
      ∃ i < r.1.gc.chunk, r.1.chunkBits (b * g.chunksPerBlock + i) = true := by
  induction n with
  | zero => exact fun _ _ _ _ hnot => absurd trivial hnot
  | succ n ih =>
    intro maxCopies x h hcol hnot
    rw [EachChunk] at hnot
    rw [gcLoop]
    by_cases hgo : gcGoesOn g b maxCopies x
    · simp only [hgo, if_true, true_implies] at hnot ⊢
      by_cases hbit : x.chunkBits (b * g.chunksPerBlock + x.gc.chunk) = true
      · simp only [hbit, if_true] at hnot ⊢
        by_cases hok : CanProcess g e rd (b * g.chunksPerBlock + x.gc.chunk) x
        · have hone := processed h hcol hbit hok
          simp only [hone.ok, if_true, true_implies, hok, true_and] at hnot ⊢
          rcases hone.ended with hfin | hcol'
          · exact absurd (eachChunk_of_not_goesOn hfin.not_goesOn) hnot
          · exact ih _ _ (hone.collected.trans (nextGcChunk_collected hone.collected.inv)).inv hcol' hnot
        · simp only [CanProcess, hrd, true_and, not_forall, not_not] at hok
          obtain ⟨q, hq, hnone⟩ := hok
          obtain ⟨hfail, hsame⟩ := gcProcessChunk_fails h (hcol.atChunk hbit) hq hnone
          have hdiv := chunk_div (b := b) hcol.notAtEnd
          rw [hdiv] at hsame
          simp only [gcProcessChunkRd_read (hrd _), hfail, Bool.false_eq_true, if_false]
          refine ⟨hsame.state.trans hcol.state, hsame.gcBlock.trans hcol.gcBlock, x.gc.chunk, ?_, ?_⟩
          · exact Nat.lt_succ_of_le hsame.gcChunk.ge
          · exact (hsame.bits _ hdiv).trans hbit
      · simp only [if_neg hbit] at hnot ⊢
        exact ih maxCopies _ (nextGcChunk_collected h).inv (hcol.next (by simpa using hbit)) hnot
    · exact absurd (fun hg => absurd hg hgo) hnot

/-! ## A step of gc -/

/-- Summary pages are released, and nothing else of a block changes. -/
theorem summaryGc_shrinks (d : BlockDev) : (summaryGc g b d).gc = d.gc ∧
    (∀ c, (summaryGc g b d).chunkBits c = true → d.chunkBits c = true) ∧
    ∀ b', ((summaryGc g b d).blockInfo b').hasShrinkHdr = (d.blockInfo b').hasShrinkHdr := by
  have hfold : ∀ (l : List ℕ) (y : BlockDev), y.gc = d.gc ∧
      (∀ c, y.chunkBits c = true → d.chunkBits c = true) ∧
      (∀ b', (y.blockInfo b').hasShrinkHdr = (d.blockInfo b').hasShrinkHdr) →
      let z := l.foldl (fun d page =>
        if d.chunkBits (b * g.chunksPerBlock + page) then
          releaseChunk b (b * g.chunksPerBlock + page) d else d) y
      z.gc = d.gc ∧ (∀ c, z.chunkBits c = true → d.chunkBits c = true) ∧
        ∀ b', (z.blockInfo b').hasShrinkHdr = (d.blockInfo b').hasShrinkHdr := by
    intro l
    induction l with
    | nil => exact fun y hy => hy
    | cons i l ih =>
      intro y hy
      rw [List.foldl_cons]
      refine ih _ ?_
      split_ifs
      · refine ⟨hy.1, fun c hc => hy.2.1 c ?_, fun b' => ?_⟩
        · by_cases hci : c = b * g.chunksPerBlock + i
          · simp [releaseChunk, BlockDev.clearChunkBit, BlockDev.modBlock, hci] at hc
          · simpa [releaseChunk, BlockDev.clearChunkBit, BlockDev.modBlock, hci] using hc
        · rw [← hy.2.2 b']
          by_cases hbb : b' = b <;> simp [releaseChunk, BlockDev.clearChunkBit, BlockDev.modBlock, hbb]
      · exact hy
  unfold summaryGc
  split_ifs
  · exact hfold _ d ⟨rfl, fun _ hc => hc, fun _ => rfl⟩
  · exact ⟨rfl, fun _ hc => hc, fun _ => rfl⟩

theorem gcBlockStart_collecting (hs : (d.blockInfo b).blockState = .full) (hgc : d.gc.block = b)
    (hpassed : ∀ i < d.gc.chunk, d.chunkBits (b * g.chunksPerBlock + i) = false)
    (hst : ((gcBlockStart g b d).blockInfo b).blockState = .collecting)
    (hno : ¬NoBits g b (gcBlockStart g b d).chunkBits) : Collecting g b (gcBlockStart g b d) := by
  have heq : gcBlockStart g b d = summaryGc g b
      { (d.setState b .collecting).modBlock b fun bi => { bi with hasShrinkHdr := false } with
        gc := { d.gc with disable := true } } := by
    unfold gcBlockStart
    simp only [hs, if_true]
    rfl
  obtain ⟨hg, hbits, hshrink⟩ := summaryGc_shrinks (g := g) (b := b)
    { (d.setState b .collecting).modBlock b fun bi => { bi with hasShrinkHdr := false } with
      gc := { d.gc with disable := true } }
  rw [← heq] at hg hbits hshrink
  refine ⟨by rw [hg]; exact hgc, hst, ?_, hno, fun i hi => ?_⟩
  · rw [hshrink]
    simp [BlockDev.modBlock]
  · rw [hg] at hi
    cases hb : (gcBlockStart g b d).chunkBits (b * g.chunksPerBlock + i) with
    | false => rfl
    | true => exact absurd ((hbits _ hb).symm.trans (hpassed i hi)) (by simp)

/-- A block without chunks in use has none to process. -/
theorem eachChunk_of_noBits {process : ℕ → Dev → Dev × Bool} {P : ℕ → Dev → Prop} (n : ℕ) :
    ∀ (maxCopies : ℕ) (x : Dev), NoBits g b x.chunkBits → EachChunk g process b P n maxCopies x := by
  induction n with
  | zero => exact fun _ _ _ => trivial
  | succ n ih =>
    intro maxCopies x hno
    rw [EachChunk]
    intro hgo
    have hbit := hno _ (chunk_div (b := b) hgo.1)
    simp only [hbit, Bool.false_eq_true, if_false]
    exact ih maxCopies _ hno

/-- A sweep starts with a block that has no chunk in use, and erases it, or it goes over the
chunks of the block. -/
inductive SweepCases (g : Geometry) (e : Env) (rd : ℕ → Bool) (b : ℕ) (whole : Bool) (x y : Dev) : Prop
  | erase : NoBits g b y.chunkBits → gcSweep g e rd b whole x = (y.mapBlocks (blockBecameDirty g e b), true) →
      SweepCases g e rd b whole x y
  | loop : Collecting g b y.toBlockDev → gcSweep g e rd b whole x =
      gcLoop g (gcProcessChunkRd g e rd) b g.chunksPerBlock (gcMaxCopies g whole) y → SweepCases g e rd b whole x y

/-- What holds when gc starts a step on block `b`. -/
structure AtStart (g : Geometry) (T : ℕ → BlockState → Prop) (b : ℕ) (x : Dev) : Prop where
  inv : Inv g T x
  mem : b ∈ g.blocks
  full : (x.blockInfo b).blockState = .full
  gcBlock : x.gc.block = b
  passed : ∀ i < x.gc.chunk, x.chunkBits (b * g.chunksPerBlock + i) = false

theorem AtStart.gcBlock_start (h : AtStart g T b x) : (x.mapBlocks (gcBlockStart g b)).gc.block = b := by
  change (gcBlockStart g b x.toBlockDev).gc.block = b
  unfold gcBlockStart
  rw [(summaryGc_shrinks _).1]
  dsimp only
  rw [if_pos h.full]
  exact h.gcBlock

theorem AtStart.cases (h : AtStart g T b x) (e : Env) (rd : ℕ → Bool) (whole : Bool) :
    SweepCases g e rd b whole x (x.mapBlocks (gcBlockStart g b)) := by
  obtain ⟨-, hst⟩ := gcBlockStart_collected h.inv h.mem h.full
  have hcol := gcBlockStart_collecting (d := x.toBlockDev) h.full h.gcBlock h.passed hst
  by_cases hsome : stillSomeChunks g b (x.mapBlocks (gcBlockStart g b)).toBlockDev = false
  · refine .erase (stillSomeChunks_eq_false.mp hsome) ?_
    simp [gcSweep, h.full, hsome]
  · refine .loop (hcol fun hno => hsome (stillSomeChunks_eq_false.mpr hno)) ?_
    simp [gcSweep, h.full, hsome]

/-- Erased or not, the block comes to the end of the sweep as it should. -/
theorem gcSweep_progress (h : AtStart g T b x) (whole : Bool)
    (hok : EachOfBlock g e rd b (CanProcess g e rd) whole x) :
    Collected g (orCollecting T b) [] [] x (gcSweep g e rd b whole x).1 ∧
      (Finished b (gcSweep g e rd b whole x).1.toBlockDev ∨
        Collecting g b (gcSweep g e rd b whole x).1.toBlockDev) ∧
      EachOfBlock g e rd b (CopiedFirst g e rd) whole x := by
  obtain ⟨hstart, hst⟩ := gcBlockStart_collected h.inv h.mem h.full
  have hg := h.gcBlock_start
  have hcases := h.cases e rd whole
  unfold EachOfBlock at hok ⊢
  generalize x.mapBlocks (gcBlockStart g b) = y at *
  rcases hcases with ⟨hno, heq⟩ | ⟨hcol, heq⟩ <;> rw [heq]
  · have hstate : (y.blockInfo b).blockState.collectable = true := by rw [hst]; rfl
    obtain ⟨hacc, hkept, -⟩ := hstart.inv.acc.erased (e := e) h.mem hstate hno
    have herased := blockBecameDirty_spec (e := e) hstart.inv.acc.blk h.mem hstate hno
    refine ⟨hstart.trans (Collected.setBlocks hstart.inv hacc hkept), Or.inl ⟨herased.state, ?_⟩, ?_⟩
    · simp only [Dev.mapBlocks]
      rw [blockBecameDirty_gc, GcCursor.drop_block, hg, if_pos rfl]
    · exact eachChunk_of_noBits _ _ y hno
  · obtain ⟨hloop, hend, heach⟩ := gcLoop_progress g.chunksPerBlock (gcMaxCopies g whole) y hstart.inv hcol hok
    exact ⟨hstart.trans hloop, hend, heach⟩

theorem notCollecting_noTransit : NotCollecting noTransit :=
  fun _ h => h

/-- gc's block is full between its steps. -/
theorem Settled.full (h : Settled g x) (hne : x.gc.block ≠ 0) :
    x.gc.block ∈ g.blocks ∧ (x.blockInfo x.gc.block).blockState = .full := by
  obtain ⟨hb, hs⟩ := h.inv.acc.blk.cands _ hne (Or.inl rfl)
  exact ⟨hb, h.inv.acc.blk.full notCollecting_noTransit hb hs⟩

theorem OnItsWay.of_settled (h : Settled g x)
    (hpassed : x.gc.block ≠ 0 → ∀ i < x.gc.chunk, x.chunkBits (x.gc.block * g.chunksPerBlock + i) = false)
    (hend : x.gc.block ≠ 0 → x.gc.chunk < g.chunksPerBlock) : OnItsWay g x.toBlockDev :=
  ⟨fun hne => (h.full hne).2, hpassed, hend⟩

theorem Settled.atStart (h : Settled g x) (hway : OnItsWay g x.toBlockDev) (hpos : 0 < x.gc.block) :
    AtStart g noTransit x.gc.block x :=
  ⟨h.inv, (h.full hpos.ne').1, (h.full hpos.ne').2, rfl, hway.passed hpos.ne'⟩

theorem gcBlockEnd_of_collecting (hs : (x.blockInfo b).blockState = .collecting) :
    (gcBlockEnd g e b x).gc.block = x.gc.block ∧ (gcBlockEnd g e b x).gc.chunk = x.gc.chunk ∧
      (gcBlockEnd g e b x).chunkBits = x.chunkBits := by
  unfold gcBlockEnd
  dsimp only
  rw [if_pos hs]
  exact ⟨rfl, rfl, rfl⟩

theorem gcBlockEnd_of_not_collecting (hs : (x.blockInfo b).blockState ≠ .collecting) :
    (gcBlockEnd g e b x).gc.block = 0 := by
  unfold gcBlockEnd
  dsimp only
  rw [if_neg hs]
  rfl

/-- A step of gc of which no read and no copy fails. -/
theorem gcBlockRd_progress (h : Settled g x) (hway : OnItsWay g x.toBlockDev) (hpos : 0 < x.gc.block)
    (whole : Bool) (hok : NoneFails g e rd whole x) :
    Settled g (gcBlockRd g e rd x.gc.block whole x).1 ∧
      OnItsWay g (gcBlockRd g e rd x.gc.block whole x).1.toBlockDev ∧ StepKeeps g e rd whole x := by
  have hat := h.atStart hway hpos
  obtain ⟨hsweep, hend, heach⟩ := gcSweep_progress hat whole hok
  have hlast := gcBlockEnd_collected (e := e) hsweep.inv hat.mem (hsweep.clean h.clean)
  have hall := hsweep.trans hlast
  have hsettled : Settled g (gcBlockRd g e rd x.gc.block whole x).1 := ⟨hall.inv, hall.clean h.clean⟩
  rcases hend with hfin | hcol
  · have hnot : ((gcSweep g e rd x.gc.block whole x).1.blockInfo x.gc.block).blockState ≠ .collecting := by
      rcases hfin.1 with h0 | h0 <;> rw [h0] <;> decide
    have hzero : (gcBlockRd g e rd x.gc.block whole x).1.gc.block = 0 := gcBlockEnd_of_not_collecting hnot
    exact ⟨hsettled, OnItsWay.of_settled hsettled (fun hne => absurd hzero hne) fun hne => absurd hzero hne,
      heach, hall.frame, Or.inl ⟨hfin.1, hzero⟩⟩
  · obtain ⟨hblock, hchunk, hbits⟩ := gcBlockEnd_of_collecting (g := g) (e := e) hcol.state
    have hsame : (gcBlockRd g e rd x.gc.block whole x).1.gc.block = x.gc.block := hblock.trans hcol.gcBlock
    refine ⟨hsettled, OnItsWay.of_settled hsettled (fun _ i hi => ?_) fun _ => ?_, heach, hall.frame, Or.inr hsame⟩
    · rw [hsame]
      exact (congrFun hbits _).trans (hcol.passed i (hchunk ▸ hi))
    · exact hchunk.trans_lt hcol.notAtEnd

/-- With reads that succeed, gc stays on its way exactly when no copy fails. -/
theorem gcBlockRd_onItsWay_iff (h : Settled g x) (hway : OnItsWay g x.toBlockDev) (hpos : 0 < x.gc.block)
    (hrd : ∀ c, rd c = true) (whole : Bool) :
    OnItsWay g (gcBlockRd g e rd x.gc.block whole x).1.toBlockDev ↔ NoneFails g e rd whole x := by
  constructor
  · intro hafter
    by_contra hnot
    have hat := h.atStart hway hpos
    obtain ⟨hstart, -⟩ := gcBlockStart_collected h.inv hat.mem hat.full
    unfold NoneFails EachOfBlock at hnot
    rcases hat.cases e rd whole with ⟨hno, -⟩ | ⟨hcol, heq⟩
    · exact hnot (eachChunk_of_noBits _ _ _ hno)
    · obtain ⟨hst, hgc, i, hi, hbit⟩ := gcLoop_fails hrd _ _ _ hstart.inv hcol hnot
      rw [← heq] at hst hgc hi hbit
      obtain ⟨hblock, hchunk, hbits⟩ := gcBlockEnd_of_collecting (g := g) (e := e) hst
      have hsame : (gcBlockRd g e rd x.gc.block whole x).1.gc.block = x.gc.block := hblock.trans hgc
      have hne : (gcBlockRd g e rd x.gc.block whole x).1.gc.block ≠ 0 := by
        rw [hsame]
        exact hpos.ne'
      have hpassed := hafter.passed hne i (hi.trans_eq hchunk.symm)
      rw [hsame] at hpassed
      exact absurd (hpassed.symm.trans ((congrFun hbits _).trans hbit)) (by simp)
  · exact fun hok => (gcBlockRd_progress h hway hpos whole hok).2.1

end Sweep

/-! ## Between the steps -/

section Between

variable {T : ℕ → BlockState → Prop} {d d' d'' : BlockDev}

/-- gc has left its block, or is where it was and no chunk of its block has come into use. -/
structure Between (g : Geometry) (d d' : BlockDev) : Prop where
  chunk : d'.gc.chunk = d.gc.chunk
  block : d'.gc.block = 0 ∨ d'.gc.block = d.gc.block
  bits : d'.gc.block ≠ 0 → ∀ c, c / g.chunksPerBlock = d'.gc.block → d'.chunkBits c = true → d.chunkBits c = true

theorem Between.refl (d : BlockDev) : Between g d d :=
  ⟨rfl, Or.inr rfl, fun _ _ _ hc => hc⟩

theorem Between.trans (h : Between g d d') (h' : Between g d' d'') : Between g d d'' where
  chunk := h'.chunk.trans h.chunk
  block := by
    rcases h'.block with hb | hb
    · exact Or.inl hb
    · exact h.block.imp hb.trans hb.trans
  bits hne c hc hbit := by
    have hsame := h'.block.resolve_left hne
    exact h.bits (hsame ▸ hne) c (hc.trans hsame) (h'.bits hne c hc hbit)

theorem Between.onItsWay {x : Dev} (h : Between g d x.toBlockDev) (hx : Settled g x) (hd : OnItsWay g d) :
    OnItsWay g x.toBlockDev := by
  refine OnItsWay.of_settled hx (fun hne i hi => ?_) fun hne => ?_
  · have hsame := h.block.resolve_left hne
    have hlt := hd.notAtEnd (hsame ▸ hne)
    have hpassed := hd.passed (hsame ▸ hne) i (h.chunk ▸ hi)
    rw [← hsame] at hpassed
    rw [h.chunk] at hi
    cases hb : x.chunkBits (x.gc.block * g.chunksPerBlock + i) with
    | false => rfl
    | true => exact absurd ((h.bits hne _ (chunk_div (by omega)) hb).symm.trans hpassed) (by simp)
  · exact h.chunk.trans_lt (hd.notAtEnd (h.block.resolve_left hne ▸ hne))

/-- gc does not see a step that leaves its cursor and no chunk comes into use with. -/
theorem Between.of_same (hgc : d'.gc = d.gc) (hbits : d'.chunkBits = d.chunkBits) : Between g d d' :=
  ⟨by rw [hgc], Or.inr (by rw [hgc]), fun _ c _ hc => by rwa [hbits] at hc⟩

theorem OpenInv.of_flags (h : OpenInv g d) {b : ℕ} {f : BlockInfo → BlockInfo}
    (hf : ∀ bi, (f bi).hasSummary = bi.hasSummary) : OpenInv g (d.modBlock b f) where
  page_lt := h.page_lt
  clear := h.clear
  noSummary b' hb' := by
    have hsum := h.noSummary b' hb'
    simp only [BlockDev.modBlock, Function.update_apply]
    split_ifs with hbb
    · rw [hf, ← hbb, hsum]
    · exact hsum

theorem OpenInv.of_quiet (h : OpenInv g d) (hq : Quiet g (fun _ => False) d d') : OpenInv g d' where
  page_lt b hb := by
    rw [hq.alloc] at hb ⊢
    exact h.page_lt b hb
  clear b hb c hc hp := by
    rw [hq.alloc] at hb hp
    rw [hq.bits]
    exact h.clear b hb c hc hp
  noSummary b hb := by
    rw [hq.alloc] at hb
    rw [hq.info b id]
    exact h.noSummary b hb

/-- What a call keeps. -/
structure CallKeeps (g : Geometry) (T : ℕ → BlockState → Prop) (d d' : BlockDev) : Prop where
  between : Between g d d'
  blk : BlkInv g T d'
  opn : OpenInv g d'

theorem chunkDel_callKeeps (h : BlkInv g T d) (ho : OpenInv g d) {c : ℕ} (hc : d.chunkBits c = true) (m : Bool) :
    CallKeeps g T d (chunkDel g e c m d) := by
  have hspec := chunkDel_spec (e := e) h hc m
  refine ⟨⟨hspec.quiet.gcChunk, ?_, fun _ c' _ hbit => ?_⟩, hspec.blk, hspec.opn h ho⟩
  · exact (chunkDel_gcBlock h hc m).symm.imp And.left id
  · rw [hspec.quiet.bits] at hbit
    by_cases hcc : c' = c
    · simp [BlockDev.clearChunkBit, hcc] at hbit
    · simpa [BlockDev.clearChunkBit, hcc] using hbit

theorem softDelChunk_callKeeps (h : BlkInv g T d) (ho : OpenInv g d) {c : ℕ} (hc : d.chunkBits c = true) :
    CallKeeps g T d (softDelChunk g c d) := by
  have hblk := h.flags (b := c / g.chunksPerBlock) (f := fun bi => { bi with softDelPages := bi.softDelPages + 1 })
    (fun _ => rfl) (fun _ => rfl) (fun _ => rfl) (fun _ => rfl)
  have hopn := ho.of_flags (b := c / g.chunksPerBlock)
    (f := fun bi => { bi with softDelPages := bi.softDelPages + 1 }) fun _ => rfl
  unfold softDelChunk
  dsimp only
  have hgc : (d.modBlock (c / g.chunksPerBlock) fun bi => { bi with softDelPages := bi.softDelPages + 1 }).gc = d.gc :=
    rfl
  have hbits : (d.modBlock (c / g.chunksPerBlock)
    fun bi => { bi with softDelPages := bi.softDelPages + 1 }).chunkBits = d.chunkBits := rfl
  generalize d.modBlock (c / g.chunksPerBlock) (fun bi => { bi with softDelPages := bi.softDelPages + 1 }) = y at *
  have hy : BlkInv g T { y with nFreeChunks := y.nFreeChunks + 1 } := { hblk with }
  have hquiet := updateOldestDirtySeq_quiet (g := g) (d := { y with nFreeChunks := y.nFreeChunks + 1 })
    (b := c / g.chunksPerBlock) fun _ => False
  refine ⟨Between.of_same ((updateOldestDirtySeq_gc _).trans hgc) (hquiet.bits.trans hbits),
    hy.updateOldest_of_bit ((congrFun hbits c).trans hc), OpenInv.of_quiet ?_ hquiet⟩
  exact ⟨hopn.page_lt, hopn.clear, hopn.noSummary⟩

theorem writeNewChunk_callKeeps (h : BlkInv g T d) (ho : OpenInv g d) (data : PageData) {t : ExtTags}
    (ht : t.isDeleted = false) (hid : t.objId ≠ objectIdSummary) (useReserver : Bool) :
    CallKeeps g T d (writeNewChunk g e data t useReserver d).1 := by
  have hready : Ready g T anyBlock d := ⟨h, ho, fun _ _ => trivial⟩
  have hblock := (writeNewChunk_spares (e := e) hready data ht hid useReserver).gcBlock
  have hwrote : ∃ K, Wrote g T anyBlock d (writeNewChunk g e data t useReserver d).1 K := by
    have hspec := writeNewChunk_spec (e := e) hready data ht hid useReserver
    cases hr : (writeNewChunk g e data t useReserver d).2 with
    | none =>
      rw [hr] at hspec
      exact ⟨_, hspec⟩
    | some c =>
      rw [hr] at hspec
      obtain ⟨-, -, p, -, hw⟩ := hspec
      exact ⟨_, hw⟩
  obtain ⟨K, hw⟩ := hwrote
  refine ⟨⟨hw.keeps.frame.gcChunk, hblock.symm.imp And.left id, fun hne c hc hbit => ?_⟩, hw.keeps.blk, hw.opn⟩
  have hgc := hblock.resolve_right fun h0 => hne h0.1
  obtain ⟨hb, hs⟩ := h.cands d.gc.block (hgc ▸ hne) (Or.inl rfl)
  have hsame := writeNewChunk_sameBlock (e := e) hready hb hs rfl data ht hid useReserver
  rwa [hsame.bits c (hc.trans hgc)] at hbit

/-- A call of the block management keeps its invariant, and gc on its way. -/
theorem BlockCall.keeps (hcall : BlockCall g d d') (h : BlkInv g T d) (ho : OpenInv g d) :
    CallKeeps g T d d' := by
  cases hcall with
  | del e m hc => exact chunkDel_callKeeps h ho hc m
  | softDel hc => exact softDelChunk_callKeeps h ho hc
  | write e data useReserver ht hid => exact writeNewChunk_callKeeps h ho data ht hid useReserver
  | shrink =>
    exact ⟨Between.of_same rfl rfl, h.flags (fun _ => rfl) (fun _ => rfl) (fun _ => rfl) (fun _ => rfl),
      ho.of_flags fun _ => rfl⟩
  | counts n hcount =>
    obtain ⟨m, t, rfl⟩ := hcount
    exact ⟨Between.of_same rfl rfl, { h with }, { ho with }⟩

theorem Foreground.between {x y : Dev} (h : Foreground g x y) (hx : Settled g x) :
    Between g x.toBlockDev y.toBlockDev := by
  have hcalls : ∀ z, Relation.ReflTransGen (BlockCall g) x.toBlockDev z →
      CallKeeps g noTransit x.toBlockDev z := by
    intro z hz
    induction hz with
    | refl => exact ⟨Between.refl _, hx.inv.acc.blk, hx.inv.acc.opn⟩
    | tail _ hcall ih =>
      have hnext := hcall.keeps ih.blk ih.opn
      exact ⟨ih.between.trans hnext.between, hnext.blk, hnext.opn⟩
  exact (hcalls _ h.calls).between

/-! ## The choice of a block -/

theorem chooseGcBlock_settled {x : Dev} (h : Settled g x) (aggressive background : Bool) :
    Settled g (chooseGcBlock g aggressive background x) :=
  let hcol := chooseGcBlock_collected h.inv aggressive background
  ⟨hcol.inv, hcol.clean h.clean⟩

/-- A block that has been chosen is taken up at its start. -/
theorem chooseGcBlock_cases (aggressive background : Bool) (x : Dev) :
    (chooseGcBlock g aggressive background x).gc.chunk = 0 ∨
      Between g x.toBlockDev (chooseGcBlock g aggressive background x).toBlockDev := by
  unfold chooseGcBlock
  dsimp only
  by_cases hzero : x.gc.block < 1
  · left
    split_ifs <;> first | rfl | (exfalso; simp_all [Dev.mapBlocks])
  · right
    simp only [Dev.mapBlocks, hzero, decide_false, Bool.false_and, Bool.false_eq_true, if_false]
    exact ⟨rfl, Or.inr rfl, fun _ _ _ hc => hc⟩

theorem chooseGcBlock_onItsWay {x : Dev} (h : Settled g x) (hway : OnItsWay g x.toBlockDev)
    (aggressive background : Bool) :
    OnItsWay g (chooseGcBlock g aggressive background x).toBlockDev := by
  have hsettled := chooseGcBlock_settled h aggressive background
  rcases chooseGcBlock_cases aggressive background x with hzero | hsame
  · refine OnItsWay.of_settled hsettled (fun _ i hi => ?_) fun _ => ?_
    · rw [hzero] at hi
      exact absurd hi (Nat.not_lt_zero i)
    · rw [hzero]
      exact chunksPerBlock_pos
  · exact hsame.onItsWay hsettled hway

end Between

/-! ## A deletion in between -/

section Deletion

variable {T : ℕ → BlockState → Prop} {d : Dev} {o : ℕ}

/-- The calls by which the block management of `d` becomes that of `d'`. -/
abbrev Calls (g : Geometry) : BlockDev → BlockDev → Prop :=
  Relation.ReflTransGen (BlockCall g)

theorem Calls.one {d d' : BlockDev} (h : BlockCall g d d') : Calls g d d' :=
  Relation.ReflTransGen.single h

/-- The new header takes the place of the old one, whether or not it leaves the object clean. -/
theorem replaceHdr_calls {bd : BlockDev} {c : ℕ} {q : Page} (h : Inv g T d) (hc : d.kept c = none)
    (hw : Wrote g T anyBlock d.toBlockDev bd (Function.update d.kept c (some q)))
    (hwrite : Calls g d.toBlockDev bd) :
    let x := replaceHdr g e o (d.obj o).hdrChunk c { d with toBlockDev := bd }
    let y := if objCacheDirty x o then x else x.modObj o fun ob => { ob with dirty := false }
    Calls g d.toBlockDev y.toBlockDev := by
  have hreplace : Calls g d.toBlockDev
      (replaceHdr g e o (d.obj o).hdrChunk c { d with toBlockDev := bd }).toBlockDev := by
    unfold replaceHdr
    dsimp only
    split_ifs with hprev
    · obtain ⟨p, hp, -⟩ := h.own.hdr o hprev.ne'
      have hne : (d.obj o).hdrChunk ≠ c := by
        intro heq
        rw [heq, hc] at hp
        exact absurd hp (by simp)
      have hbit : bd.chunkBits (d.obj o).hdrChunk = true := by
        refine Accounts.bit_of_kept (p := p) ?_
        rw [hw.kept, Function.update_of_ne hne, hp]
      exact hwrite.tail (.del e true hbit)
    · exact hwrite
  dsimp only
  split_ifs <;> exact hreplace

theorem updateOhWith_calls (h : Inv g T d) (ho : Held d o) (name : Option Name) (force isShrink : Bool)
    (shadows : ℕ) :
    Calls g d.toBlockDev (updateOhWith g e (fun d => d) o name force isShrink shadows d).1.toBlockDev := by
  unfold updateOhWith
  by_cases hfake : (d.obj o).fake = true ∧ o ≠ objectIdRoot ∧ force = false
  · rw [if_pos hfake]
  · rw [if_neg hfake]
    simp only [Dev.onBlocks]
    generalize objHdr d o name isShrink shadows = oh
    generalize decide (0 < (d.obj o).hdrChunk) = reserve
    have hid : (hdrTags o oh).objId ≠ objectIdSummary := h.own.ids_ne o ho.id
    have hwrite : Calls g d.toBlockDev (writeNewChunk g e (.hdr oh) (hdrTags o oh) reserve d.toBlockDev).1 :=
      Calls.one (.write e _ reserve rfl hid)
    have hspec := writeNewChunk_spec (e := e) h.acc.ready (.hdr oh) (t := hdrTags o oh) rfl hid reserve
    split
    · exact hwrite
    · next c hsome =>
      rw [hsome] at hspec
      obtain ⟨hc, -, q, -, hw⟩ := hspec
      have hreplace := replaceHdr_calls (e := e) (o := o) h hc hw hwrite
      cases isShrink
      · exact hreplace
      · exact hreplace.tail .shrink

/-- The deletion of an object without data is one of the calls that may come in between. -/
theorem genericObjDelWith_foreground (h : Settled g d) (ho : Doomed d o) (hs : (d.obj o).softDel = false) :
    Foreground g d (genericObjDelWith g e (fun d => d) o d) := by
  have hdel := genericObjDelWith_deleted (e := e) collects_id h.inv (Or.inl rfl) ho
  refine ⟨?_, hdel.inv, hdel.clean hs h.clean⟩
  have hend : ∀ x : Dev, Inv g noTransit x → Calls g d.toBlockDev x.toBlockDev →
      Calls g d.toBlockDev (freeObj o ((x.mapBlocks (chunkDel g e (x.obj o).hdrChunk true)).modObj o
        fun ob => { ob with hdrChunk := 0 })).toBlockDev := by
    intro x hx hcalls
    have hdrop : Calls g d.toBlockDev (chunkDel g e (x.obj o).hdrChunk true x.toBlockDev) := by
      by_cases h0 : (x.obj o).hdrChunk = 0
      · rw [h0, chunkDel_zero]
        exact hcalls
      · obtain ⟨p, hp, -⟩ := hx.own.hdr o h0
        exact hcalls.tail (.del e true (Accounts.bit_of_kept hp))
    unfold freeObj
    split_ifs
    · exact hdrop
    · exact hdrop.tail (.counts _ (CountsOnly.refl _))
  have hinval := invalidateFileCache_collected (o := o) h.inv
  have hstart : Calls g d.toBlockDev (invalidateFileCache o d).toBlockDev := Relation.ReflTransGen.refl
  have hdoom : Doomed (invalidateFileCache o d) o := ⟨⟨ho.id, ho.notFreed⟩, ho.noData⟩
  have hremove : ∀ x : Dev, Inv g noTransit x → Calls g d.toBlockDev x.toBlockDev →
      Inv g noTransit (removeObjFromDir o x) ∧ Calls g d.toBlockDev (removeObjFromDir o x).toBlockDev := by
    intro x hx hcalls
    have hmoved := removeObjFromDir_moved o x
    exact ⟨hmoved.inv hx, by rw [hmoved.toBlockDev]; exact hcalls⟩
  unfold genericObjDelWith
  generalize invalidateFileCache o d = y at *
  dsimp only
  split_ifs
  · have hname := changeObjNameWith_collected (e := e) collects_id hinval.inv (Or.inl rfl) hdoom.toHeld
      (some objectIdDeleted) deletedName false 0
    have hcalls : Calls g d.toBlockDev (changeObjNameWith g e (fun d => d) o (some objectIdDeleted)
        deletedName false 0 y).1.toBlockDev := by
      rcases changeObjNameWith_cases (g := g) (e := e) (fun d => d) o (some objectIdDeleted) deletedName false 0 y
        with heq | ⟨z, del, hz, heq⟩
      · rw [heq]
        exact hstart
      · rw [heq]
        refine hstart.trans ?_
        rw [← hz.toBlockDev]
        exact updateOhWith_calls (hz.inv hinval.inv) (hz.held hdoom.toHeld) _ _ _ _
    obtain ⟨hinv, hcalls⟩ := hremove _ hname.inv hcalls
    exact hend _ hinv hcalls
  · obtain ⟨hinv, hcalls⟩ := hremove y hinval.inv hstart
    exact hend _ hinv hcalls

end Deletion

/-! ## Runs of which no step fails -/

theorem GcRun.onItsWay {d : Dev} (h : GcRun g (NoneFails g) d) : Settled g d ∧ OnItsWay g d.toBlockDev := by
  induction h with
  | start hset hzero =>
    exact ⟨hset, OnItsWay.of_settled hset (fun hne => absurd hzero hne) fun hne => absurd hzero hne⟩
  | choose aggressive background _ ih =>
    exact ⟨chooseGcBlock_settled ih.1 _ _, chooseGcBlock_onItsWay ih.1 ih.2 _ _⟩
  | collect e rd whole _ hpos hok ih =>
    obtain ⟨hset, hway, -⟩ := gcBlockRd_progress ih.1 ih.2 hpos whole hok
    exact ⟨hset, hway⟩
  | foreground _ hfore ih => exact ⟨hfore.settled, (hfore.between ih.1).onItsWay hfore.settled ih.2⟩

/-- As long as no read and no copy of gc fails, gc is on its way and keeps what it has to. -/
theorem gc_progress (g : Geometry) : GcProgress g (NoneFails g) := by
  intro d hrun
  obtain ⟨hset, hway⟩ := hrun.onItsWay
  refine ⟨hway, fun e rd whole hpos hok => ?_⟩
  exact (gcBlockRd_progress hset hway hpos whole hok).2.2

/-! ## A copy that fails -/

/-- A device of 6 blocks of 2 chunks, without block summaries. -/
def tinyGeometry : Geometry where
  toParam := { sampleGeometry.toParam with
    chunksPerBlock := 2, endBlock := 6, disableSummary := true, wrAttempts := 1 }
  two_le_chunksPerBlock := by decide
  two_le_nReservedBlocks := by decide
  startBlock_pos := by decide
  endBlock_gt := by decide
  chunkGrpSize_le := by decide
  objHdrSize_le := by decide
  chunks_lt := by decide

/-- Every write fails. -/
def noWriteEnv : Env :=
  { okEnv with writeOk := fun _ => false }

/-- The headers of `os` are written. -/
def writeHdrs (os : List ℕ) (d : Dev) : Dev :=
  os.foldl (fun d o => (updateOh tinyGeometry okEnv o none true false 0 d).1) d

/-- The header of `lost+found` has been written twice, so that its first chunk is free. -/
def wornDev : Dev :=
  writeHdrs [objectIdLostNFound, objectIdRoot, objectIdLostNFound] (freshDev tinyGeometry fun _ => false)

theorem initialIds_held (o : ℕ) (ho : o ∈ (freshDev tinyGeometry fun _ => false).ids) :
    Held (freshDev tinyGeometry fun _ => false) o ∧
      ((freshDev tinyGeometry fun _ => false).obj o).softDel = false :=
  ⟨⟨ho, (initialObj_plain o).2.2.2.2⟩, (initialObj_plain o).2.2.2.1⟩

theorem writeHdrs_settled (os : List ℕ) : ∀ d : Dev, Settled tinyGeometry d →
    (∀ o ∈ os, Held d o ∧ (d.obj o).softDel = false) → Settled tinyGeometry (writeHdrs os d) := by
  induction os with
  | nil => exact fun d h _ => h
  | cons o os ih =>
    intro d h hos
    obtain ⟨ho, hs⟩ := hos o (by simp)
    have hcol := updateOh_collected (e := okEnv) notCollecting_noTransit h.inv h.clean hs ho none true false 0
    refine ih _ ⟨hcol.inv, hcol.clean h.clean⟩ fun o' ho' => ?_
    obtain ⟨hheld, hsoft⟩ := hos o' (by simp [ho'])
    exact ⟨hcol.frame.held hheld (by simp) hsoft, (hcol.frame.soft o' (by simp)).trans hsoft⟩

theorem wornDev_settled : Settled tinyGeometry wornDev := by
  refine writeHdrs_settled _ _ ⟨freshDev_inv _ _ _, fun o ho => by simp [freshDev] at ho⟩ fun o ho => ?_
  refine initialIds_held o ?_
  change o ∈ [objectIdLostNFound, objectIdRoot, objectIdDeleted, objectIdUnlinked]
  simp only [List.mem_cons] at ho ⊢
  tauto

/-- gc has gone over the block of the root's header, and could not copy it. -/
def stuckDev : Dev :=
  (gcBlockRd tinyGeometry noWriteEnv (fun _ => true) 1 true (chooseGcBlock tinyGeometry true false wornDev)).1

/-- One copy that fails, and gc is at the end of its block with a chunk of it in use. -/
theorem gcProgress_fails : ¬GcProgress tinyGeometry fun _ _ _ _ => True := by
  intro h
  have hblock : (chooseGcBlock tinyGeometry true false wornDev).gc.block = 1 := by decide +kernel
  have hrun : GcRun tinyGeometry (fun _ _ _ _ => True) stuckDev := by
    have hstart : GcRun tinyGeometry (fun _ _ _ _ => True) wornDev := .start wornDev_settled (by decide +kernel)
    have hstep := GcRun.collect noWriteEnv (fun _ => true) true (.choose true false hstart)
      (by rw [hblock]; decide) trivial
    rwa [hblock] at hstep
  exact absurd ((h stuckDev hrun).1.notAtEnd (by decide +kernel)) (by decide +kernel)

end Yaffs
