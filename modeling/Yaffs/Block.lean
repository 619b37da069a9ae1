import Yaffs.Device

/-!
# Blocks and pages

The part of the core that manages blocks and pages, function by function : the
driver wrappers of `yaffs_nand.c`, checkpoint invalidation, block erasure and
retirement, chunk deletion, allocation, block summaries and the write loop of
`yaffs_write_new_chunk`.

Counters that are only reported (`n_page_writes`, `n_erasures`, ...) are left out.
-/

namespace Yaffs

/-- A C `int` kept as an integer, read as `u32`. -/
def u32 (z : ℤ) : ℕ :=
  (z % 2 ^ 32).toNat

/-! ## Driver calls -/

/-- `write_chunk_tags_fn`. -/
def driverWrite (e : Env) (c : ℕ) (p : Page) (d : BlockDev) : BlockDev × Bool :=
  let ok := e.writeOk d.nand.calls
  ({ d with nand := { d.nand with
      flash := Function.update d.nand.flash c (if ok then some p else e.leavesPage d.nand.calls)
      trace := .program c p.tags ok :: d.nand.trace
      calls := d.nand.calls + 1 } }, ok)

/-- `yaffs_erase_block`. -/
def eraseBlock (g : Param) (e : Env) (b : ℕ) (d : BlockDev) : BlockDev × Bool :=
  let ok := e.eraseOk d.nand.calls
  ({ d with nand := { d.nand with
      flash := fun c =>
        if c / g.chunksPerBlock = b then (if ok then none else e.leavesChunk d.nand.calls c)
        else d.nand.flash c
      trace := .erase b ok :: d.nand.trace
      calls := d.nand.calls + 1 } }, ok)

/-- `drv_mark_bad_fn`. -/
def driverMarkBad (e : Env) (b : ℕ) (d : BlockDev) : BlockDev × Bool :=
  let ok := e.markOk d.nand.calls
  ({ d with nand := { d.nand with
      markedBad := Function.update d.nand.markedBad b (ok || d.nand.markedBad b)
      trace := .markBad b ok :: d.nand.trace
      calls := d.nand.calls + 1 } }, ok)

/-- `yaffs_mark_bad`. -/
def markBad (g : Geometry) (e : Env) (b : ℕ) (d : BlockDev) : BlockDev × Bool :=
  if g.disableBadBlockMarking then (d, true) else driverMarkBad e b d

/-- A driver read whose success is checked. -/
def driverRead (e : Env) (d : BlockDev) : BlockDev × Bool :=
  ({ d with nand := { d.nand with calls := d.nand.calls + 1 } }, e.readOk d.nand.calls)

/-! ## Checkpoint invalidation -/

/-- The body of the loop of `yaffs_checkpt_erase`. -/
def checkptEraseBlock (g : Param) (e : Env) (d : BlockDev) (b : ℕ) : BlockDev :=
  if (d.blockInfo b).blockState = .checkpoint then
    let r := eraseBlock g e b d
    if r.2 then
      let d := r.1.setState b .empty
      { d with
        nErasedBlocks := d.nErasedBlocks + 1
        nFreeChunks := d.nFreeChunks + g.chunksPerBlock }
    else (driverMarkBad e b r.1).1.setState b .dead
  else d

/-- `yaffs_checkpt_erase`. -/
def checkptErase (g : Param) (e : Env) (d : BlockDev) : BlockDev :=
  { g.blocks.foldl (checkptEraseBlock g e) d with blocksInCheckpt := 0 }

/-- `yaffs2_checkpt_invalidate`. -/
def checkptInvalidate (g : Geometry) (e : Env) (d : BlockDev) : BlockDev :=
  if d.isCheckpointed ∨ 0 < d.blocksInCheckpt then
    checkptErase g e { d with isCheckpointed := false }
  else d

/-! ## The oldest dirty block -/

/-- `pages_in_use - soft_del_pages` as `u32`. -/
def BlockInfo.pagesUsed (bi : BlockInfo) : ℕ :=
  u32 (bi.pagesInUse - bi.softDelPages)

/-- The body of the loop of `yaffs_calc_oldest_dirty_seq`, over `(seq, block_no)`. -/
def oldestDirtyStep (g : Geometry) (d : BlockDev) (acc : ℕ × ℕ) (b : ℕ) : ℕ × ℕ :=
  let bi := d.blockInfo b
  if bi.blockState = .full ∧ bi.pagesUsed < g.chunksPerBlock ∧ bi.seqNumber < acc.1 then
    (bi.seqNumber, b)
  else acc

/-- `yaffs_calc_oldest_dirty_seq`. -/
def calcOldestDirtySeq (g : Geometry) (d : BlockDev) : BlockDev :=
  if g.isYaffs2 then
    let r := g.blocks.foldl (oldestDirtyStep g d) (d.seqNumber + 1, 0)
    if r.2 ≠ 0 then { d with oldestDirtySeq := r.1, oldestDirtyBlock := r.2 } else d
  else d

/-- `yaffs2_find_oldest_dirty_seq`. -/
def findOldestDirtySeq (g : Geometry) (d : BlockDev) : BlockDev :=
  if g.isYaffs2 ∧ d.oldestDirtySeq = 0 then calcOldestDirtySeq g d else d

/-- `yaffs2_clear_oldest_dirty_seq`. -/
def clearOldestDirtySeq (g : Geometry) (b : ℕ) (d : BlockDev) : BlockDev :=
  if g.isYaffs2 ∧ (d.blockInfo b).seqNumber = d.oldestDirtySeq then
    { d with oldestDirtySeq := 0, oldestDirtyBlock := 0 }
  else d

/-- `yaffs2_update_oldest_dirty_seq`. -/
def updateOldestDirtySeq (g : Geometry) (b : ℕ) (d : BlockDev) : BlockDev :=
  if g.isYaffs2 ∧ d.oldestDirtySeq ≠ 0 ∧ (d.blockInfo b).seqNumber < d.oldestDirtySeq then
    { d with oldestDirtySeq := (d.blockInfo b).seqNumber, oldestDirtyBlock := b }
  else d

/-- `yaffs_block_ok_for_gc`. -/
def blockOkForGc (g : Geometry) (b : ℕ) (d : BlockDev) : BlockDev × Bool :=
  if g.isYaffs2 ∧ (d.blockInfo b).hasShrinkHdr then
    let d := findOldestDirtySeq g d
    (d, decide ((d.blockInfo b).seqNumber ≤ d.oldestDirtySeq))
  else (d, true)

/-! ## Erasure and retirement -/

/-- `yaffs_clear_chunk_bits`. -/
def clearChunkBits (g : Geometry) (b : ℕ) (d : BlockDev) : BlockDev :=
  { d with chunkBits := fun c => if c / g.chunksPerBlock = b then false else d.chunkBits c }

/-- The page `yaffs_retire_block` leaves in a block the driver cannot mark bad. -/
def badBlockMarker : Page :=
  ⟨{ seqNumber := sequenceBadBlock }, .blank⟩

/-- How `yaffs_retire_block` marks the block : by the driver, else by a page of its own. -/
def markRetired (g : Geometry) (e : Env) (b : ℕ) (d : BlockDev) : BlockDev :=
  let r := markBad g e b d
  if r.2 then r.1
  else
    let r := eraseBlock g e b r.1
    if r.2 then (driverWrite e (b * g.chunksPerBlock) badBlockMarker r.1).1 else r.1

/-- `yaffs_retire_block`. -/
def retireBlock (g : Geometry) (e : Env) (b : ℕ) (d : BlockDev) : BlockDev :=
  (markRetired g e b (clearOldestDirtySeq g b (checkptInvalidate g e d))).modBlock b fun bi =>
    { bi with blockState := .dead, gcPrioritise := false, needsRetiring := false }

/-- The end of `yaffs_block_became_dirty` : the erased block is clean. -/
def cleanBlock (g : Geometry) (b : ℕ) (d : BlockDev) : BlockDev :=
  let d := d.modBlock b fun bi =>
    { bi with
      blockState := .empty, seqNumber := 0, pagesInUse := 0, softDelPages := 0
      hasShrinkHdr := false, skipErasedCheck := true, gcPrioritise := false
      hasSummary := false }
  clearChunkBits g b { d with nErasedBlocks := d.nErasedBlocks + 1 }

/-- The block is no longer collected nor a candidate for it. -/
def GcCursor.drop (b : ℕ) (gc : GcCursor) : GcCursor :=
  let gc := if b = gc.block then { gc with block := 0 } else gc
  if b = gc.dirtiest then { gc with dirtiest := 0, pagesInUse := 0 } else gc

/-- The block is out of service, waiting for its erasure. -/
def becomeDirty (g : Geometry) (b : ℕ) (d : BlockDev) : BlockDev :=
  let d := (clearOldestDirtySeq g b d).setState b .dirty
  { d with gc := d.gc.drop b }

/-- A block that needs retiring is not erased. -/
def eraseUnlessRetiring (g : Geometry) (e : Env) (b : ℕ) (d : BlockDev) : BlockDev × Bool :=
  if (d.blockInfo b).needsRetiring then (d, false) else eraseBlock g e b (checkptInvalidate g e d)

/-- `yaffs_block_became_dirty`. The check of the erasure only traces and is left out. -/
def blockBecameDirty (g : Geometry) (e : Env) (b : ℕ) (d : BlockDev) : BlockDev :=
  let r := eraseUnlessRetiring g e b (becomeDirty g b d)
  if r.2 then cleanBlock g b r.1
  else retireBlock g e b { r.1 with nFreeChunks := r.1.nFreeChunks - g.chunksPerBlock }

/-! ## Chunk deletion -/

/-- The deletion mark yaffs1 programs into a page, leaving its data. -/
def markDeleted (e : Env) (c : ℕ) (d : BlockDev) : BlockDev :=
  let old := (d.nand.flash c).getD ⟨{}, .blank⟩
  (driverWrite e c ⟨{ old.tags with isDeleted := true, chunkUsed := true }, old.data⟩ d).1

/-- The mark of a deleted page, when the device makes one. -/
def markIfNeeded (g : Geometry) (e : Env) (c : ℕ) (markFlash : Bool) (d : BlockDev) : BlockDev :=
  if !g.isYaffs2 && markFlash &&
      (d.blockInfo (c / g.chunksPerBlock)).blockState != .collecting then markDeleted e c d
  else d

/-- The page leaves the management area. -/
def releaseChunk (b c : ℕ) (d : BlockDev) : BlockDev :=
  let d := (d.clearChunkBit c).modBlock b fun bi => { bi with pagesInUse := bi.pagesInUse - 1 }
  { d with nFreeChunks := d.nFreeChunks + 1 }

/-- The states in which `yaffs_chunk_del` releases a page. -/
def BlockState.holdsChunks (s : BlockState) : Bool :=
  s = .allocating || s = .full || s = .needsScan || s = .collecting

/-- The test of `yaffs_chunk_del` for a block that became dirty. -/
def BlockInfo.becameDirty (bi : BlockInfo) : Bool :=
  bi.pagesInUse = 0 && !bi.hasShrinkHdr && bi.blockState != .allocating &&
    bi.blockState != .needsScan

/-- `yaffs_chunk_del`. -/
def chunkDel (g : Geometry) (e : Env) (c : ℕ) (markFlash : Bool) (d : BlockDev) : BlockDev :=
  if c = 0 then d
  else
    let b := c / g.chunksPerBlock
    let d := markIfNeeded g e c markFlash (updateOldestDirtySeq g b d)
    if (d.blockInfo b).blockState.holdsChunks then
      let d := releaseChunk b c d
      if (d.blockInfo b).becameDirty then blockBecameDirty g e b d else d
    else d

/-- `yaffs_soft_del_chunk`. -/
def softDelChunk (g : Geometry) (c : ℕ) (d : BlockDev) : BlockDev :=
  let b := c / g.chunksPerBlock
  let d := d.modBlock b fun bi => { bi with softDelPages := bi.softDelPages + 1 }
  updateOldestDirtySeq g b { d with nFreeChunks := d.nFreeChunks + 1 }

/-! ## Allocation -/

/-- `sizeof` the records of the checkpoint stream. -/
def checkptValiditySize : ℕ := 16
def checkptDevSize : ℕ := 36
def blockInfoSize : ℕ := 8
def checkptObjSize : ℕ := 32

/-- `dev->chunk_bit_stride`. -/
def Param.chunkBitStride (p : Param) : ℕ :=
  (p.chunksPerBlock + 7) / 8

/-- `dev->checkpoint_blocks_required`, which every change of the object and tnode
counts has recomputed. -/
def checkpointBlocksRequired (g : Geometry) (d : BlockDev) : ℕ :=
  if g.checkptRequired then
    let devBlocks := g.endBlock - g.startBlock + 1
    let nBytes := checkptValiditySize + checkptDevSize + devBlocks * blockInfoSize +
      devBlocks * g.chunkBitStride + (checkptObjSize + 4) * d.nObj +
      (g.tnodeSize + 4) * d.nTnodes + checkptValiditySize + 4
    nBytes / (g.dataBytesPerChunk * g.chunksPerBlock) + 3
  else 0

/-- `yaffs_calc_checkpt_blocks_required`. -/
def calcCheckptBlocksRequired (g : Geometry) (d : BlockDev) : ℕ :=
  if g.isYaffs2 then checkpointBlocksRequired g d - d.blocksInCheckpt else 0

/-- `yaffs_check_alloc_available`. -/
def checkAllocAvailable (g : Geometry) (nChunks : ℕ) (d : BlockDev) : Bool :=
  let reservedChunks := (g.nReservedBlocks + calcCheckptBlocksRequired g d) * g.chunksPerBlock
  decide (((reservedChunks + nChunks : ℕ) : ℤ) < d.nFreeChunks)

/-- Take the empty block `b` for allocation. -/
def takeBlock (b : ℕ) (d : BlockDev) : BlockDev :=
  let d := { d with seqNumber := d.seqNumber + 1, nErasedBlocks := d.nErasedBlocks - 1 }
  d.modBlock b fun bi => { bi with blockState := .allocating, seqNumber := d.seqNumber }

/-- The block behind `alloc_block_finder`. -/
def Param.nextBlock (p : Param) (b : ℕ) : ℕ :=
  if b + 1 < p.startBlock ∨ p.endBlock < b + 1 then p.startBlock else b + 1

/-- The loop of `yaffs_find_alloc_block`. -/
def findAllocBlockLoop (g : Geometry) : ℕ → BlockDev → BlockDev × Option ℕ
  | 0, d => (d, none)
  | n + 1, d =>
    let b := g.nextBlock d.alloc.blockFinder
    let d := { d with alloc := { d.alloc with blockFinder := b } }
    if (d.blockInfo b).blockState = .empty then (takeBlock b d, some b)
    else findAllocBlockLoop g n d

/-- `yaffs_find_alloc_block`. -/
def findAllocBlock (g : Geometry) (d : BlockDev) : BlockDev × Option ℕ :=
  if d.nErasedBlocks < 1 then (d, none)
  else findAllocBlockLoop g (g.endBlock + 1 - g.startBlock) d

/-- Start a new allocation block if there is none. -/
def ensureAllocBlock (g : Geometry) (d : BlockDev) : BlockDev :=
  if d.alloc.block = none then
    let r := findAllocBlock g d
    { r.1 with alloc := { r.1.alloc with block := r.2, page := 0 } }
  else d

/-- The allocation block `b` is full. -/
def closeBlock (b : ℕ) (d : BlockDev) : BlockDev :=
  let d := d.setState b .full
  { d with alloc := { d.alloc with block := none } }

/-- The page at the allocation cursor comes into use. -/
def usePage (g : Geometry) (b : ℕ) (d : BlockDev) : BlockDev :=
  let d' := (d.setChunkBit (b * g.chunksPerBlock + d.alloc.page)).modBlock b fun bi =>
    { bi with pagesInUse := bi.pagesInUse + 1 }
  { d' with
    alloc := { d.alloc with page := d.alloc.page + 1 }, nFreeChunks := d.nFreeChunks - 1 }

/-- The next page of the allocation block `b`, which is closed when that was its last. -/
def takePage (g : Geometry) (b : ℕ) (d : BlockDev) : BlockDev × ℕ :=
  let d' := usePage g b d
  (if g.chunksPerBlock ≤ d'.alloc.page then closeBlock b d' else d',
    b * g.chunksPerBlock + d.alloc.page)

/-- `yaffs_alloc_chunk`. -/
def allocChunk (g : Geometry) (useReserver : Bool) (d : BlockDev) : BlockDev × Option ℕ :=
  let d := ensureAllocBlock g d
  if !useReserver && !checkAllocAvailable g 1 d then
    ({ d with allocFailures := d.allocFailures + 1 }, none)
  else
    match d.alloc.block with
    | some b => ((takePage g b d).1, some (takePage g b d).2)
    | none => ({ d with allocFailures := d.allocFailures + 1 }, none)

/-- `yaffs_skip_rest_of_block`. -/
def skipRestOfBlock (d : BlockDev) : BlockDev :=
  match d.alloc.block with
  | some b => if 0 < b ∧ (d.blockInfo b).blockState = .allocating then closeBlock b d else d
  | none => d

/-- `yaffs_get_erased_chunks`. -/
def getErasedChunks (g : Geometry) (d : BlockDev) : ℤ :=
  d.nErasedBlocks * g.chunksPerBlock +
    match d.alloc.block with
    | some b => if 0 < b then (g.chunksPerBlock : ℤ) - d.alloc.page else 0
    | none => 0

/-! ## Summaries -/

/-- `extra_obj_type` as the number stored on flash. -/
def ObjType.toNat : ObjType → ℕ
  | .unknown => 0
  | .file => 1
  | .symlink => 2
  | .directory => 3
  | .hardlink => 4
  | .special => 5
  | .other n => n

/-- `yaffs_check_tags_extra_packable`. -/
def ExtTags.extraPackable (t : ExtTags) : Bool :=
  t.chunkId = 0 && t.extraAvailable &&
    !(t.extraObjType = .file && (t.extraFileSize >>> 31) != 0)

/-- `yaffs_pack_tags2_tags_only`, without the sequence number. -/
def packTags2TagsOnly (t : ExtTags) : SummaryTags :=
  if t.extraPackable then
    { chunkId := 0x80000000 ||| t.extraParentId |||
        (if t.extraIsShrink then 0x40000000 else 0) |||
        (if t.extraShadows then 0x20000000 else 0)
      objId := (t.objId &&& 0x0fffffff) ||| (t.extraObjType.toNat <<< 28)
      nBytes :=
        if t.extraObjType = .hardlink then t.extraEquivId
        else if t.extraObjType = .file then t.extraFileSize % 2 ^ 32
        else 0 }
  else { objId := t.objId, chunkId := t.chunkId, nBytes := t.nBytes }

/-- Sum of the four bytes of a `u32`. -/
def u32ByteSum (n : ℕ) : ℕ :=
  n % 256 + n / 2 ^ 8 % 256 + n / 2 ^ 16 % 256 + n / 2 ^ 24 % 256

/-- `dev->sum_tags` as an array. -/
def summaryArray (g : Geometry) (d : BlockDev) : List SummaryTags :=
  (List.range g.chunksPerSummary).map d.sumTags

/-- `yaffs_summary_sum`. -/
def summarySum (g : Geometry) (d : BlockDev) : ℕ :=
  ((summaryArray g d).map fun st =>
    u32ByteSum st.objId + u32ByteSum st.chunkId + u32ByteSum st.nBytes).sum % 2 ^ 32

/-- `yaffs_summary_clear`. -/
def summaryClear (d : BlockDev) : BlockDev :=
  { d with sumTags := fun _ => {} }

/-- What `yaffs_wr_chunk_tags_nand` puts into the tags. -/
def stampTags (d : BlockDev) (t : ExtTags) : ExtTags :=
  { t with seqNumber := d.seqNumber, chunkUsed := true }

/-- A written summary page enters the management area. -/
def countSummaryChunk (b c : ℕ) (d : BlockDev) : BlockDev :=
  let d := (d.setChunkBit c).modBlock b fun bi => { bi with pagesInUse := bi.pagesInUse + 1 }
  { d with nFreeChunks := d.nFreeChunks - 1 }

/-- The loop of `yaffs_summary_write`. The page goes to `yaffs_wr_chunk_tags_nand`,
whose `yaffs_summary_add` ignores the pages of a summary. -/
def summaryWriteLoop (g : Geometry) (e : Env) (b : ℕ) (hdr : SummaryHeader)
    (st : List SummaryTags) : ℕ → ℕ → ℕ → ℕ → ℕ → BlockDev → BlockDev × Bool
  | 0, _, _, _, _, d => (d, true)
  | n + 1, chunkInBlock, chunkId, offset, nBytes, d =>
    let thisTx := min nBytes (g.dataBytesPerChunk - summaryHeaderSize)
    let tags := stampTags d
      { objId := objectIdSummary, chunkId := chunkId, nBytes := thisTx + summaryHeaderSize }
    let c := b * g.chunksPerBlock + chunkInBlock
    let r := driverWrite e c ⟨tags, .summary hdr st offset thisTx⟩ d
    if r.2 then
      let d := countSummaryChunk b c r.1
      if nBytes - thisTx = 0 then (d, true)
      else summaryWriteLoop g e b hdr st n (chunkInBlock + 1) (chunkId + 1) (offset + thisTx)
        (nBytes - thisTx) d
    else (r.1, false)

/-- `yaffs_summary_write`, for the allocation block `b`. -/
def summaryWrite (g : Geometry) (e : Env) (b : ℕ) (d : BlockDev) : BlockDev :=
  let hdr : SummaryHeader := ⟨1, b, (d.blockInfo b).seqNumber, summarySum g d⟩
  let r := summaryWriteLoop g e b hdr (summaryArray g d) (g.chunksPerBlock - g.chunksPerSummary)
    g.chunksPerSummary 1 0 (summaryTagsSize * g.chunksPerSummary) d
  if r.2 then r.1.modBlock b fun bi => { bi with hasSummary := true } else r.1

/-- `yaffs_summary_add`. -/
def summaryAdd (g : Geometry) (e : Env) (t : ExtTags) (c : ℕ) (d : BlockDev) : BlockDev :=
  let page := c % g.chunksPerBlock
  if g.hasSummaries && decide (page < g.chunksPerSummary) then
    let d := { d with sumTags := Function.update d.sumTags page (packTags2TagsOnly t) }
    if page + 1 = g.chunksPerSummary then
      skipRestOfBlock (summaryClear (summaryWrite g e (c / g.chunksPerBlock) d))
    else d
  else d

/-- `yaffs_summary_gc` : the summary pages of the block leave the management area. -/
def summaryGc (g : Geometry) (b : ℕ) (d : BlockDev) : BlockDev :=
  if (d.blockInfo b).hasSummary then
    (List.range' g.chunksPerSummary (g.chunksPerBlock - g.chunksPerSummary)).foldl
      (fun d page =>
        let c := b * g.chunksPerBlock + page
        if d.chunkBits c then releaseChunk b c d else d) d
  else d

/-! ## Writing a chunk -/

/-- `yaffs_wr_chunk_tags_nand`. -/
def wrChunkTagsNand (g : Geometry) (e : Env) (c : ℕ) (data : PageData) (t : ExtTags)
    (d : BlockDev) : BlockDev × Bool :=
  let t := stampTags d t
  let r := driverWrite e c ⟨t, data⟩ d
  (summaryAdd g e t c r.1, r.2)

/-- `yaffs_check_ff` of the data area. -/
def PageData.isFF : PageData → Bool
  | .blank => true
  | .bytes bs => bs.all (· = 0xff)
  | _ => false

/-- `yaffs_check_chunk_erased`. -/
def checkChunkErased (e : Env) (c : ℕ) (d : BlockDev) : BlockDev × Bool :=
  let r := driverRead e d
  (r.1, r.2 && match d.nand.flash c with
    | none => true
    | some p => p.data.isFF && !p.tags.chunkUsed)

/-- `yaffs_verify_chunk_written`. -/
def verifyChunkWritten (e : Env) (c : ℕ) (data : PageData) (t : ExtTags) (d : BlockDev) :
    BlockDev × Bool :=
  let r := driverRead e d
  (r.1, r.2 && match d.nand.flash c with
    | none => false
    | some p => p.data = data && p.tags.objId = t.objId && p.tags.chunkId = t.chunkId &&
        p.tags.nBytes = t.nBytes)

/-- `yaffs_handle_chunk_error`. The strike counter has three bits. -/
def handleChunkError (b : ℕ) (d : BlockDev) : BlockDev :=
  if (d.blockInfo b).gcPrioritise then d
  else
    let d := d.modBlock b fun bi =>
      let strikes := (bi.chunkErrorStrikes + 1) % 8
      { bi with
        gcPrioritise := true
        chunkErrorStrikes := strikes
        needsRetiring := bi.needsRetiring || decide (3 < strikes) }
    { d with gc := { d.gc with hasPendingPrioritised := true } }

/-- `yaffs_handle_chunk_wr_error`. -/
def handleChunkWrError (g : Geometry) (e : Env) (c : ℕ) (erasedOk : Bool) (d : BlockDev) :
    BlockDev :=
  let b := c / g.chunksPerBlock
  let d := handleChunkError b d
  let d := if erasedOk then d.modBlock b fun bi => { bi with needsRetiring := true } else d
  skipRestOfBlock (chunkDel g e c true d)

/-- How one round of the loop of `yaffs_write_new_chunk` ends. -/
inductive Attempt
  | noSpace
  | retry
  | written (chunk : ℕ)
  deriving DecidableEq, Repr

/-- The erased check of a round, made unless the block is known to be clean. -/
def erasedCheck (g : Geometry) (e : Env) (c : ℕ) (d : BlockDev) : BlockDev × Bool :=
  let b := c / g.chunksPerBlock
  let d := if g.alwaysCheckErased then d.modBlock b fun bi => { bi with skipErasedCheck := false }
    else d
  if (d.blockInfo b).skipErasedCheck then (d, true) else checkChunkErased e c d

/-- Program an allocated chunk, and read it back unless the block is known to be clean. -/
def programChunk (g : Geometry) (e : Env) (c : ℕ) (data : PageData) (t : ExtTags)
    (d : BlockDev) : BlockDev × Bool :=
  let r := wrChunkTagsNand g e c data t d
  if (r.1.blockInfo (c / g.chunksPerBlock)).skipErasedCheck then r
  else verifyChunkWritten e c data t r.1

/-- One round of the loop of `yaffs_write_new_chunk`. -/
def writeAttempt (g : Geometry) (e : Env) (data : PageData) (t : ExtTags) (useReserver : Bool)
    (d : BlockDev) : BlockDev × Attempt :=
  match allocChunk g useReserver d with
  | (d, none) => (d, .noSpace)
  | (d, some c) =>
    let b := c / g.chunksPerBlock
    let r := erasedCheck g e c d
    if r.2 then
      let erasedOk := !(r.1.blockInfo b).skipErasedCheck
      let r := programChunk g e c data t r.1
      if r.2 then (r.1.modBlock b fun bi => { bi with skipErasedCheck := true }, .written c)
      else (handleChunkWrError g e c erasedOk r.1, .retry)
    else (skipRestOfBlock (chunkDel g e c true r.1), .retry)

/-- A bound on the rounds of the loop of `yaffs_write_new_chunk`. Every round that is tried
again has used up an allocation block, and a block can be allocated again only so often. -/
def writeRounds (g : Geometry) : ℕ :=
  8 * g.blocks.length + 1

/-- The loop of `yaffs_write_new_chunk`. -/
def writeNewChunkLoop (g : Geometry) (e : Env) (data : PageData) (t : ExtTags)
    (useReserver : Bool) : ℕ → ℕ → BlockDev → BlockDev × Option ℕ
  | 0, _, d => (d, none)
  | n + 1, attempts, d =>
    match writeAttempt g e data t useReserver d with
    | (d, .noSpace) => (d, none)
    | (d, .written c) => (d, some c)
    | (d, .retry) =>
      if g.wrAttempts = 0 ∨ attempts + 1 ≤ g.wrAttempts then
        writeNewChunkLoop g e data t useReserver n (attempts + 1) d
      else (d, none)

/-- `yaffs_write_new_chunk`. -/
def writeNewChunk (g : Geometry) (e : Env) (data : PageData) (t : ExtTags) (useReserver : Bool)
    (d : BlockDev) : BlockDev × Option ℕ :=
  writeNewChunkLoop g e data t useReserver (writeRounds g) 0 (checkptInvalidate g e d)

end Yaffs
