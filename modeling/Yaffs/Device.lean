import Mathlib.Algebra.Ring.Int.Defs
import Mathlib.Algebra.Ring.Nat
import Mathlib.Data.List.Range
import Mathlib.Data.Int.Basic
import Mathlib.Logic.Function.Basic

/-!
# The device

The parameters of a device (`struct yaffs_param`), what one page of flash holds,
and the part of `struct yaffs_dev` that manages blocks and pages : the block
table, the chunk bitmap, the allocation and gc cursors, the checkpoint cursor and
the counters.

Blocks and chunks carry the core's internal numbers, so block `0` and chunk `0`
never name flash and stand for "none", as in the source. `Env` answers the calls
the core makes on the driver : its `n`-th answer is the outcome of the `n`-th
call. Reads return what the page holds; `Env.readOk` says whether the read that
checks an erased or a freshly written page also reports success.
-/

namespace Yaffs

/-! ## Parameters -/

/-- `struct yaffs_param`, with the block range and the chunk size the core works with. -/
structure Param where
  isYaffs2 : Bool
  inbandTags : Bool
  /-- `data_bytes_per_chunk`, the chunk size without the inband tags. -/
  dataBytesPerChunk : ℕ
  chunksPerBlock : ℕ
  /-- `internal_start_block`. -/
  startBlock : ℕ
  /-- `internal_end_block`. -/
  endBlock : ℕ
  nReservedBlocks : ℕ
  nCaches : ℕ
  cacheBypassAligned : Bool
  wideTnodesDisabled : Bool
  disableSoftDel : Bool
  disableSummary : Bool
  disableBadBlockMarking : Bool
  alwaysCheckErased : Bool
  skipCheckptRd : Bool
  skipCheckptWr : Bool
  deferedDirUpdate : Bool
  refreshPeriod : ℕ
  /-- `yaffs_wr_attempts`, `0` for no limit. -/
  wrAttempts : ℕ
  deriving DecidableEq, Repr

/-- The loop of `calc_shifts_ceiling`, over the 32 bits of its argument. -/
def calcShiftsLoop : ℕ → ℕ → ℕ → ℕ → ℕ
  | 0, _, extraBits, shifts => if extraBits = 0 then shifts else shifts + 1
  | n + 1, x, extraBits, shifts =>
    if x ≤ 1 then (if extraBits = 0 then shifts else shifts + 1)
    else calcShiftsLoop n (x / 2) (extraBits + x % 2) (shifts + 1)

/-- `calc_shifts_ceiling` : the shifts of a power of two not below `x`. -/
def calcShiftsCeiling (x : ℕ) : ℕ :=
  calcShiftsLoop 32 x 0 0

/-- `sizeof(struct yaffs_summary_tags)`. -/
def summaryTagsSize : ℕ := 12

/-- `sizeof(struct yaffs_summary_header)`. -/
def summaryHeaderSize : ℕ := 16

namespace Param

variable (p : Param)

/-- Bits needed for a chunk number, rounded up to even for wide tnodes. -/
def chunkNumberBits : ℕ :=
  let bits := calcShiftsCeiling (p.chunksPerBlock * (p.endBlock + 1))
  if p.wideTnodesDisabled then bits else bits + bits % 2

/-- `dev->tnode_width`. -/
def tnodeWidth : ℕ :=
  if p.wideTnodesDisabled then 16 else max 16 p.chunkNumberBits

/-- `dev->chunk_grp_bits`: the low bits of a chunk number a level-0 tnode drops. -/
def chunkGrpBits : ℕ :=
  p.chunkNumberBits - p.tnodeWidth

/-- `dev->chunk_grp_size`. -/
def chunkGrpSize : ℕ :=
  2 ^ p.chunkGrpBits

/-- `dev->tnode_size`, with eight-byte pointers. -/
def tnodeSize : ℕ :=
  max (p.tnodeWidth * 16 / 8) 64

/-- The blocks of the device, in order. -/
def blocks : List ℕ :=
  List.range' p.startBlock (p.endBlock + 1 - p.startBlock)

/-- `dev->sum_tags` is allocated: the device keeps block summaries. -/
def hasSummaries : Bool :=
  p.isYaffs2 && !p.disableSummary

/-- `dev->chunks_per_summary`. -/
def chunksPerSummary : ℕ :=
  p.chunksPerBlock - (p.chunksPerBlock * summaryTagsSize + p.dataBytesPerChunk - 1) /
    (p.dataBytesPerChunk - summaryHeaderSize)

/-- `yaffs2_checkpt_required`, for a device mounted writable. -/
def checkptRequired : Bool :=
  p.isYaffs2 && !p.skipCheckptWr && decide (60 ≤ p.endBlock - p.startBlock + 1)

end Param

/-- `sizeof(struct yaffs_obj_hdr)`. -/
def objHdrSize : ℕ := 512

/-- A device `yaffs_guts_ll_init` and `yaffs_guts_initialise` accept. -/
structure Geometry extends Param where
  two_le_chunksPerBlock : 2 ≤ chunksPerBlock
  two_le_nReservedBlocks : 2 ≤ nReservedBlocks
  startBlock_pos : 1 ≤ startBlock
  endBlock_gt : startBlock + nReservedBlocks + 2 < endBlock
  /-- The chunk group fits a block ("chunk group too large" otherwise). -/
  chunkGrpSize_le : toParam.chunkGrpSize ≤ chunksPerBlock
  /-- An object header fits a chunk. -/
  objHdrSize_le : objHdrSize ≤ dataBytesPerChunk
  /-- Chunk numbers are C `int`s. -/
  chunks_lt : chunksPerBlock * (endBlock + 1) < 2 ^ 31

instance : CoeOut Geometry Param :=
  ⟨Geometry.toParam⟩

/-! ## Pages -/

/-- `enum yaffs_obj_type`, with the numbers found on flash that are of no type. -/
inductive ObjType
  | unknown
  | file
  | symlink
  | directory
  | hardlink
  | special
  | other (n : ℕ)
  deriving DecidableEq, Repr

/-- A name : its characters without the terminating zero. -/
abbrev Name := List Char

/-- `struct yaffs_ext_tags`. -/
structure ExtTags where
  chunkUsed : Bool := false
  objId : ℕ := 0
  chunkId : ℕ := 0
  nBytes : ℕ := 0
  isDeleted : Bool := false
  seqNumber : ℕ := 0
  extraAvailable : Bool := false
  extraParentId : ℕ := 0
  extraIsShrink : Bool := false
  extraShadows : Bool := false
  extraObjType : ObjType := .unknown
  extraFileSize : ℕ := 0
  extraEquivId : ℕ := 0
  deriving DecidableEq, Repr

/-- `struct yaffs_obj_hdr`. -/
structure ObjHdr where
  type : ObjType
  parentObjId : ℕ
  name : Name
  fileSize : ℕ := 0
  equivId : ℕ := 0
  aliasName : Name := []
  shadowsObj : ℕ := 0
  inbandShadowedObjId : ℕ := 0
  isShrink : Bool := false
  deriving DecidableEq, Repr

/-- `struct yaffs_summary_tags`. -/
structure SummaryTags where
  objId : ℕ := 0
  chunkId : ℕ := 0
  nBytes : ℕ := 0
  deriving DecidableEq, Repr

/-- `struct yaffs_summary_header`. -/
structure SummaryHeader where
  version : ℕ
  block : ℕ
  seq : ℕ
  sum : ℕ
  deriving DecidableEq, Repr

/-- `struct yaffs_checkpt_chunk_hdr`. -/
structure CheckptChunkHdr where
  version : ℕ
  seq : ℕ
  sum : ℕ
  xor : ℕ
  deriving DecidableEq, Repr

/-- The data area of a page, by what was put there. -/
inductive PageData
  | bytes (bs : List UInt8)
  | hdr (oh : ObjHdr)
  /-- `len` bytes of the array `tags`, from byte `offset`. -/
  | summary (hdr : SummaryHeader) (tags : List SummaryTags) (offset len : ℕ)
  | checkpt (hdr : CheckptChunkHdr) (payload : List UInt8)
  /-- Every byte `0xff`. -/
  | blank
  deriving DecidableEq, Repr

/-- A page that has been programmed. -/
structure Page where
  tags : ExtTags
  data : PageData
  deriving DecidableEq, Repr

/-- A call of the core on the driver, with the driver's answer. -/
inductive NandCall
  | program (chunk : ℕ) (tags : ExtTags) (ok : Bool)
  | erase (block : ℕ) (ok : Bool)
  | markBad (block : ℕ) (ok : Bool)
  deriving DecidableEq, Repr

/-- `YAFFS_OBJECTID_SUMMARY`. -/
def objectIdSummary : ℕ := 0x10

/-- `YAFFS_SEQUENCE_CHECKPOINT_DATA`. -/
def sequenceCheckpointData : ℕ := 0x21

/-- `YAFFS_SEQUENCE_BAD_BLOCK`. -/
def sequenceBadBlock : ℕ := 0xffff0000

/-- `YAFFS_CHECKPOINT_VERSION`. -/
def checkpointVersion : ℕ := 8

/-- What the driver and the allocator answer to each call of the core. -/
structure Env where
  writeOk : ℕ → Bool
  /-- What a failing page write leaves in the page. -/
  leavesPage : ℕ → Option Page
  /-- A failing write leaves no deletion mark. -/
  leavesPage_unmarked : ∀ n p, leavesPage n = some p → p.tags.isDeleted = false
  eraseOk : ℕ → Bool
  /-- What a failing erasure leaves in a chunk of the block. -/
  leavesChunk : ℕ → ℕ → Option Page
  markOk : ℕ → Bool
  readOk : ℕ → Bool
  /-- Memory for an object, a tnode or a string. -/
  allocOk : ℕ → Bool
  /-- `gc_control_fn` permits gc. -/
  gcPermitted : ℕ → Bool
  /-- What the tags of a checkpoint page hold before its writer sets some of their fields. -/
  unsetTags : ℕ → ExtTags := fun _ => {}

/-- Every driver and allocator call succeeds. -/
structure Env.Succeeds (e : Env) : Prop where
  writeOk : ∀ n, e.writeOk n = true
  eraseOk : ∀ n, e.eraseOk n = true
  markOk : ∀ n, e.markOk n = true
  readOk : ∀ n, e.readOk n = true
  allocOk : ∀ n, e.allocOk n = true

/-! ## Block management -/

/-- `enum yaffs_block_state`. -/
inductive BlockState
  | unknown
  | scanning
  | needsScan
  | empty
  | allocating
  | full
  | dirty
  | checkpoint
  | collecting
  | dead
  deriving DecidableEq, Repr

/-- `struct yaffs_block_info`. -/
structure BlockInfo where
  softDelPages : ℤ := 0
  pagesInUse : ℤ := 0
  blockState : BlockState := .unknown
  needsRetiring : Bool := false
  skipErasedCheck : Bool := false
  gcPrioritise : Bool := false
  chunkErrorStrikes : ℕ := 0
  hasSummary : Bool := false
  hasShrinkHdr : Bool := false
  seqNumber : ℕ := 0
  deriving DecidableEq, Repr

/-- The checkpoint stream's place on flash. `curBlock` and `nextBlock` are `none`
for the source's `-1`; the buffer is the part behind the chunk header. -/
structure CheckptCursor where
  pageSeq : ℕ := 0
  byteCount : ℕ := 0
  byteOffs : ℕ := 0
  bufferHdr : CheckptChunkHdr := ⟨0, 0, 0, 0⟩
  buffer : List UInt8 := []
  openWrite : Bool := false
  curBlock : Option ℕ := none
  curChunk : ℕ := 0
  nextBlock : Option ℕ := none
  blockList : List ℕ := []
  maxBlocks : ℕ := 0
  sum : ℕ := 0
  xor : UInt8 := 0
  deriving DecidableEq, Repr

/-- The flash, as the driver presents it, and the calls made on the driver. -/
structure Nand where
  /-- What each chunk of flash holds, `none` when it is erased. -/
  flash : ℕ → Option Page
  /-- Blocks marked bad on flash. -/
  markedBad : ℕ → Bool
  /-- The driver calls made so far, the latest first. -/
  trace : List NandCall
  /-- Number of driver and allocator calls answered so far. -/
  calls : ℕ

/-- The `alloc_*` fields of `struct yaffs_dev`. -/
structure AllocCursor where
  /-- `alloc_block`, `none` for `-1`. -/
  block : Option ℕ
  page : ℕ
  blockFinder : ℕ
  deriving DecidableEq, Repr

/-- The `gc_*` fields of `struct yaffs_dev`. -/
structure GcCursor where
  disable : Bool
  blockFinder : ℕ
  dirtiest : ℕ
  pagesInUse : ℕ
  notDone : ℕ
  block : ℕ
  chunk : ℕ
  skip : ℕ
  refreshSkip : ℕ
  hasPendingPrioritised : Bool
  deriving DecidableEq, Repr

/-- The block and page management of `struct yaffs_dev`, with the flash under it. -/
structure BlockDev where
  nand : Nand
  blockInfo : ℕ → BlockInfo
  /-- `dev->chunk_bits`, by chunk number. -/
  chunkBits : ℕ → Bool
  nErasedBlocks : ℤ
  nFreeChunks : ℤ
  alloc : AllocCursor
  /-- Number of calls of `yaffs_alloc_chunk` that found no chunk. -/
  allocFailures : ℕ
  seqNumber : ℕ
  oldestDirtySeq : ℕ
  oldestDirtyBlock : ℕ
  gc : GcCursor
  isCheckpointed : Bool
  blocksInCheckpt : ℕ
  checkpt : CheckptCursor
  nObj : ℕ
  nTnodes : ℕ
  /-- `dev->sum_tags`, by page in the block being allocated. -/
  sumTags : ℕ → SummaryTags

namespace BlockDev

variable (d : BlockDev)

/-- Change the block info of `b`. -/
def modBlock (b : ℕ) (f : BlockInfo → BlockInfo) : BlockDev :=
  { d with blockInfo := Function.update d.blockInfo b (f (d.blockInfo b)) }

/-- `bi->block_state = s`. -/
def setState (b : ℕ) (s : BlockState) : BlockDev :=
  d.modBlock b fun bi => { bi with blockState := s }

/-- `yaffs_set_chunk_bit`. -/
def setChunkBit (c : ℕ) : BlockDev :=
  { d with chunkBits := Function.update d.chunkBits c true }

/-- `yaffs_clear_chunk_bit`. -/
def clearChunkBit (c : ℕ) : BlockDev :=
  { d with chunkBits := Function.update d.chunkBits c false }

/-- The page a chunk in use holds. -/
def live (c : ℕ) : Option Page :=
  if d.chunkBits c then d.nand.flash c else none

/-- The page of a chunk in use that is not part of a block summary. -/
def kept (c : ℕ) : Option Page :=
  (d.live c).filter fun p => p.tags.objId ≠ objectIdSummary

end BlockDev

end Yaffs
