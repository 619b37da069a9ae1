import Yaffs.Checkpt

/-!
# Runs of the core

The calls the interfaces above make on the core, and the device as it is mounted on blank
flash. A call on an object the interface could not have got hold of is no call : the guards
of `step` are what path look-up and open handles give.
-/

namespace Yaffs

variable (g : Geometry) (e : Env)

/-! ## Calls -/

/-- A call on the core. -/
inductive Op
  | create (type : ObjType) (parent : ℕ) (name : Name) (aliasStr : Name)
  | link (parent : ℕ) (name : Name) (target : ℕ)
  | rename (oldDir : ℕ) (oldName : Name) (newDir : ℕ) (newName : Name)
  | unlink (o : ℕ)
  | openInode (i o : ℕ)
  | closeInode (o : ℕ)
  | read (o offset n : ℕ)
  | write (o offset : ℕ) (data : List UInt8) (writeThrough : Bool)
  | resize (o size : ℕ)
  | setAttribs (o : ℕ)
  | flush (o : ℕ) (dataSync discardCache : Bool)
  | flushAll (discard : Bool)
  | updateDirs
  | bgGc
  | save
  deriving DecidableEq, Repr

/-- The object can be reached : it is in the hash table and not deleted. -/
def reachable (d : Dev) (o : ℕ) : Bool :=
  (findByNumber d o).isSome && !(d.obj o).deleted

/-- The object can be reached by a path. -/
def named (d : Dev) (o : ℕ) : Bool :=
  reachable d o && !(d.obj o).unlinked

/-- A directory that can be reached by a path. -/
def namedDir (d : Dev) (o : ℕ) : Bool :=
  named d o && (d.obj o).variantType = .directory && o != objectIdUnlinked && o != objectIdDeleted

/-- The object is a file with data to read or to write. -/
def openFile (d : Dev) (o : ℕ) : Bool :=
  reachable d o && (d.obj o).variantType = .file

/-- The types `yaffs_create_obj` is called with, but for hard links. -/
def ObjType.creatable : ObjType → Bool
  | .file | .directory | .symlink | .special => true
  | _ => false

/-- Whether the interface can make the call. -/
def Op.allowed (d : Dev) : Op → Bool
  | .create type parent name _ =>
    type.creatable && namedDir d parent && decide (name.length ≤ maxNameLength)
  | .link parent name target =>
    namedDir d parent && named d target && decide (name.length ≤ maxNameLength) &&
      (getEquivalentObj d target).any fun q => named d q && (d.obj q).variantType != .directory
  | .rename oldDir _ newDir _ => namedDir d oldDir && namedDir d newDir
  | .unlink o => named d o
  | .openInode _ o => named d o && (d.obj o).variantType != .hardlink
  | .closeInode o => reachable d o && (d.obj o).myInode.isSome
  | .read o _ _ => openFile d o
  | .write o offset data _ => openFile d o && decide (offset + data.length ≤ g.maxFileSize)
  | .resize o size => openFile d o && decide (size ≤ g.maxFileSize)
  | .setAttribs o => reachable d o
  | .flush o _ _ => reachable d o
  | _ => true

/-- The core's part of a call. -/
def Op.exec (d : Dev) : Op → Dev
  | .create type parent name aliasStr => (createObj g e type parent name 0 aliasStr d).1
  | .link parent name target => (linkObj g e parent name target d).1
  | .rename oldDir oldName newDir newName => (renameObj g e oldDir (some oldName) newDir newName d).1
  | .unlink o => (unlinkObj g e o d).1
  | .openInode i o => hookInode i o d
  | .closeInode o => releaseInode g e o d
  | .read o offset n => (fileRd g e o offset n d).1
  | .write o offset data writeThrough => (wrFile g e o data offset writeThrough d).1
  | .resize o size => (resizeFile g e o size d).1
  | .setAttribs o => (updateOh g e o none true false 0 (d.modObj o fun ob => { ob with dirty := true })).1
  | .flush o dataSync discardCache => (flushFile g e o dataSync discardCache d).1
  | .flushAll discard => flushWholeCache g e discard d
  | .updateDirs => updateDirtyDirs g e d
  | .bgGc => checkGc g e true d
  | .save => checkpointSave g e d

/-- One call. -/
def step (d : Dev) (op : Op) : Dev :=
  if op.allowed g d then op.exec g e d else d

/-- A sequence of calls. -/
def run (d : Dev) (ops : List Op) : Dev :=
  ops.foldl (step g e) d

/-! ## Mounting blank flash -/

/-- The checkpoint cursor after `yaffs2_checkpt_restore` found no checkpoint; it is still
zero when no restore was tried. -/
def mountedCursor : CheckptCursor :=
  if g.isYaffs2 && !g.skipCheckptRd then
    { byteOffs := g.dataBytesPerChunk
      maxBlocks := (g.endBlock - g.startBlock) / 16 + 2 }
  else { curBlock := some 0, nextBlock := some 0 }

/-- `YAFFS_LOWEST_SEQUENCE_NUMBER`. -/
def lowestSequenceNumber : ℕ := 0x1000

/-- The blocks of blank flash. -/
def blankBlock (bad : ℕ → Bool) (b : ℕ) : BlockInfo :=
  if b ∈ g.blocks then { blockState := if bad b then .dead else .empty } else {}

/-- Number of blocks that are not bad. -/
def nGoodBlocks (bad : ℕ → Bool) : ℕ :=
  g.blocks.countP fun b => !bad b

/-- The block management of a device mounted on blank flash, whose blocks `bad` are bad. -/
def blankBlocks (bad : ℕ → Bool) : BlockDev where
  nand := { flash := fun _ => none, markedBad := bad, trace := [], calls := 0 }
  blockInfo := blankBlock g bad
  chunkBits := fun _ => false
  nErasedBlocks := nGoodBlocks g bad
  nFreeChunks := (nGoodBlocks g bad * g.chunksPerBlock : ℕ)
  alloc := ⟨none, 0, 0⟩
  allocFailures := 0
  seqNumber := lowestSequenceNumber
  oldestDirtySeq := 0
  oldestDirtyBlock := 0
  gc := ⟨false, 0, 0, 0, 0, 0, 0, 0, 0, true⟩
  isCheckpointed := false
  blocksInCheckpt := 0
  checkpt := mountedCursor g
  nObj := 4
  nTnodes := 0
  sumTags := fun _ => {}

/-- The directories `yaffs_create_initial_dir` makes. -/
def initialObj (o : ℕ) : Obj :=
  if o = objectIdRoot then
    { variantType := .directory, fake := true, children := [objectIdLostNFound] }
  else if o = objectIdLostNFound then
    { variantType := .directory, fake := true, parent := some objectIdRoot }
  else if o = objectIdUnlinked ∨ o = objectIdDeleted then
    { variantType := .directory, fake := true }
  else {}

/-- A device mounted on blank flash, whose blocks `bad` are bad. -/
def freshDev (bad : ℕ → Bool) : Dev where
  toBlockDev := blankBlocks g bad
  obj := initialObj
  ids := [objectIdLostNFound, objectIdRoot, objectIdDeleted, objectIdUnlinked]
  bucketFinder := 0
  cache := List.replicate g.nCaches { data := zeroChunk g }
  cacheLastUse := 0
  gcCleanupList := []
  nUnlinkedFiles := 0
  nDeletedFiles := 0
  dirtyDirs := []

/-! ## A sample device -/

/-- A yaffs2 device of 64 blocks of 16 chunks, with summaries, a cache of two chunks and soft
deletion. -/
def sampleGeometry : Geometry where
  isYaffs2 := true
  inbandTags := false
  dataBytesPerChunk := 512
  chunksPerBlock := 16
  startBlock := 1
  endBlock := 64
  nReservedBlocks := 2
  nCaches := 2
  cacheBypassAligned := false
  wideTnodesDisabled := false
  disableSoftDel := false
  disableSummary := false
  disableBadBlockMarking := false
  alwaysCheckErased := false
  skipCheckptRd := false
  skipCheckptWr := false
  deferedDirUpdate := false
  refreshPeriod := 0
  wrAttempts := 0
  two_le_chunksPerBlock := by decide
  two_le_nReservedBlocks := by decide
  startBlock_pos := by decide
  endBlock_gt := by decide
  chunkGrpSize_le := by decide
  objHdrSize_le := by decide
  chunks_lt := by decide

/-- A device of four million blocks of 512 chunks, whose tnodes need 32 bits for a chunk. -/
def wideGeometry : Geometry where
  isYaffs2 := true
  inbandTags := false
  dataBytesPerChunk := 2048
  chunksPerBlock := 512
  startBlock := 1
  endBlock := 4000000
  nReservedBlocks := 5
  nCaches := 10
  cacheBypassAligned := false
  wideTnodesDisabled := false
  disableSoftDel := false
  disableSummary := false
  disableBadBlockMarking := false
  alwaysCheckErased := false
  skipCheckptRd := false
  skipCheckptWr := false
  deferedDirUpdate := false
  refreshPeriod := 0
  wrAttempts := 0
  two_le_chunksPerBlock := by decide
  two_le_nReservedBlocks := by decide
  startBlock_pos := by decide
  endBlock_gt := by decide
  chunkGrpSize_le := by decide
  objHdrSize_le := by decide
  chunks_lt := by decide

/-- Every call of the core succeeds. -/
def okEnv : Env where
  writeOk _ := true
  leavesPage _ := none
  leavesPage_unmarked _ _ h := by simp at h
  eraseOk _ := true
  leavesChunk _ _ := none
  markOk _ := true
  readOk _ := true
  allocOk _ := true
  gcPermitted _ := true

/-- A driver whose first two page writes fail. -/
def shakyEnv : Env :=
  { okEnv with writeOk := fun n => decide (2 ≤ n), leavesPage := fun _ => none
               leavesPage_unmarked := fun _ _ h => by simp at h }

/-- The sample device after the calls `ops`. -/
def sampleRun (ops : List Op) : Dev :=
  run sampleGeometry okEnv (freshDev sampleGeometry fun _ => false) ops

end Yaffs
