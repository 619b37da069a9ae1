import Yaffs.Namespace

/-!
# Writing a checkpoint

The writer of `yaffs_checkptrw.c` and the stream `yaffs2_wr_checkpt_data` sends through it.
The writer takes its bytes from memory one at a time : the block table, which it changes
itself when it takes a block, is read while it is being written. A record is therefore
given by its length and by the function that reads its bytes from the device.

Serial numbers and `n_bg_deletions` are written as zero, and structures are laid out for a
little-endian machine.
-/

namespace Yaffs

section

variable (g : Param) (e : Env)

/-! ## The writer -/

/-- `sizeof(struct yaffs_checkpt_chunk_hdr)`. -/
def checkptHdrSize : ℕ := 16

/-- `yaffs2_checkpt_init_chunk_hdr`, on a buffer just filled with zeros. -/
def checkptInitChunkHdr (d : BlockDev) : BlockDev :=
  let cp := d.checkpt
  { d with checkpt :=
      { cp with
        byteOffs := checkptHdrSize
        bufferHdr := ⟨checkpointVersion, cp.pageSeq, cp.sum, cp.xor.toNat⟩
        buffer := List.replicate (g.dataBytesPerChunk - checkptHdrSize) 0 } }

/-- `yaffs2_checkpt_space_ok`. -/
def checkptSpaceOk (d : BlockDev) : Bool :=
  decide ((g.nReservedBlocks : ℤ) < d.nErasedBlocks)

/-- `yaffs2_checkpt_find_erased_block`. -/
def checkptFindErasedBlock (d : BlockDev) : BlockDev :=
  let found :=
    match d.checkpt.nextBlock with
    | some next =>
      if next ≤ g.endBlock ∧ (g.nReservedBlocks : ℤ) < d.nErasedBlocks then
        (List.range' next (g.endBlock + 1 - next)).find? fun b =>
          decide ((d.blockInfo b).blockState = .empty)
      else none
    | none => none
  { d with checkpt := { d.checkpt with nextBlock := found.map (· + 1), curBlock := found } }

/-- `yaffs2_checkpt_open`, for writing. -/
def checkptOpen (d : BlockDev) : BlockDev × Bool :=
  let d := { d with checkpt := { d.checkpt with openWrite := true } }
  if checkptSpaceOk g d then
    let d := { d with checkpt :=
      { d.checkpt with
        pageSeq := 0, byteCount := 0, sum := 0, xor := 0
        curBlock := none, curChunk := 0, nextBlock := some g.startBlock } }
    (checkptErase g e (checkptInitChunkHdr g d), true)
  else (d, false)

/-- The tags of a checkpoint page, of which the writer leaves some fields as they are in `t`;
`chunk_used` is one that no page stores. -/
def checkptTags (t : ExtTags) (cp : CheckptCursor) : ExtTags :=
  { t with
    chunkUsed := false
    isDeleted := false
    objId := cp.nextBlock.getD (2 ^ 32 - 1)
    chunkId := cp.pageSeq + 1
    seqNumber := sequenceCheckpointData
    nBytes := g.dataBytesPerChunk }

/-- A block becomes a checkpoint block with its first page. -/
def checkptTakeBlock (b : ℕ) (d : BlockDev) : BlockDev :=
  if d.checkpt.curChunk = 0 then
    { d.setState b .checkpoint with blocksInCheckpt := d.blocksInCheckpt + 1 }
  else d

/-- The cursor moves behind the page it wrote. -/
def CheckptCursor.advance (cp : CheckptCursor) : CheckptCursor :=
  if g.chunksPerBlock ≤ cp.curChunk + 1 then
    { cp with pageSeq := cp.pageSeq + 1, curChunk := 0, curBlock := none }
  else { cp with pageSeq := cp.pageSeq + 1, curChunk := cp.curChunk + 1 }

/-- `yaffs2_checkpt_flush_buffer`, which does not look at the outcome of its write. -/
def checkptFlushBuffer (d : BlockDev) : BlockDev × Bool :=
  let d :=
    if d.checkpt.curBlock = none then
      let d := checkptFindErasedBlock g d
      { d with checkpt := { d.checkpt with curChunk := 0 } }
    else d
  match d.checkpt.curBlock with
  | none => (d, false)
  | some b =>
    let cp := d.checkpt
    let page : Page := ⟨checkptTags g (e.unsetTags d.nand.calls) cp, .checkpt cp.bufferHdr cp.buffer⟩
    let d := (driverWrite e (b * g.chunksPerBlock + cp.curChunk) page (checkptTakeBlock b d)).1
    (checkptInitChunkHdr g { d with checkpt := cp.advance g }, true)

/-- Put one byte into the buffer. -/
def CheckptCursor.put (cp : CheckptCursor) (x : UInt8) : CheckptCursor :=
  { cp with
    buffer := cp.buffer.set (cp.byteOffs - checkptHdrSize) x
    sum := (cp.sum + x.toNat) % 2 ^ 32
    xor := cp.xor ^^^ x
    byteOffs := cp.byteOffs + 1
    byteCount := cp.byteCount + 1 }

/-- The loop of `yaffs2_checkpt_wr`, from byte `i` of the record on; `false` when not all
bytes were taken. -/
def checkptWrLoop (byteAt : BlockDev → ℕ → UInt8) : ℕ → ℕ → BlockDev → BlockDev × Bool
  | 0, _, d => (d, true)
  | n + 1, i, d =>
    let d := { d with checkpt := d.checkpt.put (byteAt d i) }
    if g.dataBytesPerChunk ≤ d.checkpt.byteOffs then
      let r := checkptFlushBuffer g e d
      if r.2 then checkptWrLoop byteAt n (i + 1) r.1 else (r.1, decide (n = 0))
    else checkptWrLoop byteAt n (i + 1) d

/-- A record of the stream : its length, and how its bytes are read from the device. -/
structure CheckptRecord where
  size : ℕ
  byteAt : BlockDev → ℕ → UInt8

/-- `yaffs2_checkpt_wr`. -/
def checkptWr (r : CheckptRecord) (d : BlockDev) : BlockDev × Bool :=
  checkptWrLoop g e r.byteAt r.size 0 d

/-- Write records until one is not taken whole. -/
def checkptWrAll : List CheckptRecord → BlockDev → BlockDev × Bool
  | [], d => (d, true)
  | r :: rs, d =>
    let q := checkptWr g e r d
    if q.2 then checkptWrAll rs q.1 else q

/-- The blocks a reader has found become checkpoint blocks. -/
def checkptMarkRead (d : BlockDev) (b : ℕ) : BlockDev :=
  if g.startBlock ≤ b ∧ b ≤ g.endBlock ∧ (d.blockInfo b).blockState = .empty then
    d.setState b .checkpoint
  else d

/-- `yaffs_checkpt_close`. -/
def checkptClose (d : BlockDev) : BlockDev :=
  let d :=
    if d.checkpt.openWrite then
      if d.checkpt.byteOffs ≠ checkptHdrSize then (checkptFlushBuffer g e d).1 else d
    else (d.checkpt.blockList.take d.blocksInCheckpt).foldl (checkptMarkRead g) d
  { d with
    nFreeChunks := d.nFreeChunks - (d.blocksInCheckpt * g.chunksPerBlock : ℕ)
    nErasedBlocks := d.nErasedBlocks - d.blocksInCheckpt }

end

variable (g : Geometry) (e : Env)

/-! ## The stream -/

/-- The four bytes of a `u32`. -/
def u32Bytes (n : ℕ) : List UInt8 :=
  [UInt8.ofNat n, UInt8.ofNat (n / 2 ^ 8), UInt8.ofNat (n / 2 ^ 16), UInt8.ofNat (n / 2 ^ 24)]

/-- A record whose bytes are known before it is written. -/
def CheckptRecord.ofBytes (bs : List UInt8) : CheckptRecord :=
  ⟨bs.length, fun _ i => bs.getD i 0⟩

/-- A record of `u32`s. -/
def CheckptRecord.ofWords (ws : List ℕ) : CheckptRecord :=
  .ofBytes (ws.flatMap u32Bytes)

/-- `YAFFS_MAGIC`. -/
def yaffsMagic : ℕ := 0x5941ff53

/-- `yaffs2_wr_checkpt_validity_marker`. -/
def validityRecord (head : ℕ) : CheckptRecord :=
  .ofWords [checkptValiditySize, yaffsMagic, checkpointVersion, head]

/-- `struct yaffs_checkpt_dev`. -/
def devRecord (d : Dev) : CheckptRecord :=
  .ofWords
    [checkptDevSize, u32 d.nErasedBlocks, d.alloc.block.getD (2 ^ 32 - 1),
      d.alloc.page, u32 d.nFreeChunks, u32 d.nDeletedFiles, u32 d.nUnlinkedFiles, 0, d.seqNumber]

/-- `block_state` as a number. -/
def BlockState.toNat : BlockState → ℕ
  | .unknown => 0
  | .scanning => 1
  | .needsScan => 2
  | .empty => 3
  | .allocating => 4
  | .full => 5
  | .dirty => 6
  | .checkpoint => 7
  | .collecting => 8
  | .dead => 9

/-- The bit fields of `struct yaffs_block_info` in one word. -/
def BlockInfo.word (bi : BlockInfo) : ℕ :=
  u32 bi.softDelPages % 2 ^ 10 + 2 ^ 10 * (u32 bi.pagesInUse % 2 ^ 10) +
    2 ^ 20 * bi.blockState.toNat + 2 ^ 24 * bi.needsRetiring.toNat +
    2 ^ 25 * bi.skipErasedCheck.toNat + 2 ^ 26 * bi.gcPrioritise.toNat +
    2 ^ 27 * (bi.chunkErrorStrikes % 8) + 2 ^ 30 * bi.hasSummary.toNat +
    2 ^ 31 * bi.hasShrinkHdr.toNat

/-- `dev->block_info`. -/
def blockInfoRecord : CheckptRecord where
  size := (g.endBlock - g.startBlock + 1) * blockInfoSize
  byteAt d i :=
    let bi := d.blockInfo (g.startBlock + i / blockInfoSize)
    (u32Bytes bi.word ++ u32Bytes bi.seqNumber).getD (i % blockInfoSize) 0

/-- `dev->chunk_bits`. -/
def chunkBitsRecord : CheckptRecord where
  size := (g.endBlock - g.startBlock + 1) * g.chunkBitStride
  byteAt d i :=
    let b := g.startBlock + i / g.chunkBitStride
    let bit (j : ℕ) : ℕ :=
      let page := 8 * (i % g.chunkBitStride) + j
      if page < g.chunksPerBlock ∧ d.chunkBits (b * g.chunksPerBlock + page) then 2 ^ j else 0
    UInt8.ofNat ((List.range 8).map bit).sum

/-- `yaffs2_obj_checkpt_obj`. -/
def objRecord (o : ℕ) (ob : Obj) : CheckptRecord :=
  let bits := ob.variantType.toNat + 2 ^ 3 * ob.deleted.toNat + 2 ^ 4 * ob.softDel.toNat +
    2 ^ 5 * ob.unlinked.toNat + 2 ^ 6 * ob.fake.toNat + 2 ^ 7 * ob.renameAllowed.toNat +
    2 ^ 8 * ob.unlinkAllowed.toNat
  let size :=
    if ob.variantType = .file then ob.file.fileSize
    else if ob.variantType = .hardlink then ob.equivId
    else 0
  .ofWords [checkptObjSize, o, ob.parent.getD 0, ob.hdrChunk, bits, u32 ob.nDataChunks,
    size % 2 ^ 32, size / 2 ^ 32]

/-- The end of the list of objects. -/
def endRecord : CheckptRecord :=
  .ofWords (checkptObjSize :: List.replicate 7 (2 ^ 32 - 1))

/-- The bytes of a level-0 tnode, a string of groups of `tnode_width` bits. -/
def tnodeBytes (t : Tnode 0) : List UInt8 :=
  let bits := ((List.finRange 16).map fun i => (t.group i) * 2 ^ (g.tnodeWidth * i)).sum
  (List.range g.tnodeSize).map fun i => UInt8.ofNat (bits / 2 ^ (8 * i))

/-- `yaffs2_checkpt_tnode_worker`. -/
def tnodeRecords : (n : ℕ) → Tnode n → ℕ → List CheckptRecord
  | 0, t, off => [.ofWords [off * 16], .ofBytes (tnodeBytes g t)]
  | n + 1, t, off => (List.finRange 8).flatMap fun i =>
    match t.internal i with
    | some t' => tnodeRecords n t' (off * 8 + i)
    | none => []

/-- `yaffs2_wr_checkpt_tnodes`. -/
def fileRecords (f : FileVar) : List CheckptRecord :=
  (f.top.elim [] fun t => tnodeRecords g f.topLevel t 0) ++ [.ofWords [2 ^ 32 - 1]]

/-- The records of one object in `yaffs2_wr_checkpt_objs`. -/
def objRecords (o : ℕ) (ob : Obj) : List CheckptRecord :=
  if ob.deferredFree then []
  else objRecord o ob :: if ob.variantType = .file then fileRecords g ob.file else []

/-- `yaffs2_wr_checkpt_objs`. -/
def objsRecords (d : Dev) : List CheckptRecord :=
  ((List.range nObjectBuckets).flatMap fun b =>
    (d.ids.filter fun o => o % nObjectBuckets = b).flatMap fun o => objRecords g o (d.obj o)) ++
  [endRecord]

/-- `yaffs2_get_checkpt_sum`. -/
def checkptSum (d : BlockDev) : ℕ :=
  (d.checkpt.sum * 2 ^ 8 % 2 ^ 32) ||| d.checkpt.xor.toNat

/-- `yaffs2_wr_checkpt_sum`. -/
def sumRecord (d : BlockDev) : CheckptRecord :=
  .ofWords [checkptSum d]

/-- The records of `yaffs2_wr_checkpt_data` up to the sum. -/
def checkptRecords (d : Dev) : List CheckptRecord :=
  [validityRecord 1, devRecord d, blockInfoRecord g, chunkBitsRecord g] ++ objsRecords g d ++
    [validityRecord 0]

/-- `yaffs2_wr_checkpt_data`. -/
def wrCheckptData (d : Dev) : Dev :=
  let r := if g.checkptRequired then d.onBlocks (checkptOpen g e) else (d, false)
  let r := if r.2 then r.1.onBlocks (checkptWrAll g e (checkptRecords g r.1)) else r
  let r := if r.2 then r.1.onBlocks fun b => checkptWr g e (sumRecord b) b else r
  r.1.mapBlocks fun b => { checkptClose g e b with isCheckpointed := r.2 }

/-- `yaffs_checkpoint_save`. -/
def checkpointSave (d : Dev) : Dev :=
  if d.isCheckpointed then d else wrCheckptData g e (d.mapBlocks (checkptInvalidate g e))

end Yaffs
