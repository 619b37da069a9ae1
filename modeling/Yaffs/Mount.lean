import Yaffs.Scan

/-!
# Mounting a device

`yaffs_guts_initialise` : the scan, or the checkpoint when one can be read, and the passes that
clean up behind it. What a checkpoint holds is not parsed; mounting takes the device it yields as
it is.
-/

namespace Yaffs

variable (g : Geometry) (e : Env) (m : MountParam)

/-! ## Cleaning up -/

/-- `yaffs_strip_deleted_objs`. -/
def stripDeletedObjs (d : Dev) : Dev :=
  if m.readOnly then d
  else
    let del := fun (d : Dev) (o : ℕ) => (delObj g e o d).1
    let d := (d.obj objectIdUnlinked).children.foldl del d
    (d.obj objectIdDeleted).children.foldl del d

/-- `yaffs_has_null_parent`. -/
def hasNullParent (o : ℕ) : Bool :=
  o = objectIdDeleted || o = objectIdUnlinked || o = objectIdRoot

/-- The loop of `yaffs_fix_hanging_objs` that follows the parents, with `depth_limit`. -/
def followParents (d : Dev) : ℕ → ℕ → ℕ
  | 0, p => p
  | n + 1, p =>
    if p = objectIdRoot then p
    else
      match (d.obj p).parent with
      | some q => if (d.obj q).variantType = .directory then followParents d n q else p
      | none => p

/-- The test of `yaffs_fix_hanging_objs` on one object. -/
def isHanging (d : Dev) (o : ℕ) : Bool :=
  if hasNullParent o then false
  else
    match (d.obj o).parent with
    | none => true
    | some p =>
      if (d.obj p).variantType ≠ .directory then true
      else if hasNullParent p then false
      else followParents d 100 p != objectIdRoot

/-- The body of the loop of `yaffs_fix_hanging_objs`. -/
def fixHangingStep (d : Dev) (o : ℕ) : Dev :=
  if isHanging d o then addObjToDir objectIdLostNFound o d else d

/-- The objects of the hash table, bucket by bucket. -/
def bucketOrder (ids : List ℕ) : List ℕ :=
  (List.range nObjectBuckets).flatMap fun i => ids.filter fun o => o % nObjectBuckets = i

/-- `yaffs_fix_hanging_objs`. -/
def fixHangingObjs (d : Dev) : Dev :=
  if m.readOnly then d else (bucketOrder d.ids).foldl fixHangingStep d

/-- `yaffs_del_dir_contents`, down to a depth of `n`. -/
def delDirContents : ℕ → ℕ → Dev → Dev
  | 0, _, d => d
  | n + 1, dir, d =>
    (d.obj dir).children.foldl
      (fun d o =>
        let d := if (d.obj o).variantType = .directory then delDirContents n o d else d
        (unlinkObj g e o d).1) d

/-- `yaffs_empty_l_n_f`. No directory lies deeper than there are objects. -/
def emptyLNF (d : Dev) : Dev :=
  delDirContents g e d.ids.length objectIdLostNFound d

/-- `yaffs_guts_cleanup`, which empties lost+found on a read-only device too. -/
def gutsCleanup (d : Dev) : Dev :=
  let d := fixHangingObjs m (stripDeletedObjs g e m d)
  if m.emptyLostNFound then emptyLNF g e d else d

/-! ## Details of objects -/

/-- `yaffs_check_obj_details_loaded`. -/
def checkObjDetailsLoaded (s : ScanDev) (o : ℕ) : ScanDev :=
  if (s.scanObj o).lazyLoaded ∧ 0 < (s.obj o).hdrChunk then
    let r := s.onDev fun d => d.onBlocks (rdChunkTagsNand g m.reader (d.obj o).hdrChunk)
    if r.2.ok then
      let oh := r.2.data.objHdr
      let s := (r.1.modScan o fun q => { q with lazyLoaded := false }).mapDev fun d =>
        d.modObj o fun ob => setObjName o oh.name ob
      if (s.obj o).variantType = .symlink then
        let q := s.onDev (cloneStr e oh.aliasName)
        q.1.mapDev fun d => d.modObj o fun ob => { ob with aliasName := q.2 }
      else s
    else r.1
  else s

/-- The core calls `yaffs_check_obj_details_loaded` before it goes by what an object is called; here
all objects are loaded when they have been found. -/
def loadDetails (s : ScanDev) : ScanDev :=
  s.ids.foldl (checkObjDetailsLoaded g e m) s

/-! ## Initialising -/

/-- The block management before the scan. What `yaffs_guts_initialise` does not set is as the device
had it. -/
def mountBlocks (old : BlockDev) : BlockDev :=
  { old with
    blockInfo := fun _ => {}
    chunkBits := fun _ => false
    nErasedBlocks := 0
    nFreeChunks := 0
    alloc := { old.alloc with block := none }
    oldestDirtySeq := 0
    oldestDirtyBlock := 0
    gc := { old.gc with disable := false, blockFinder := 0, block := 0, hasPendingPrioritised := true }
    isCheckpointed := false
    nObj := 4
    nTnodes := 0
    sumTags := fun _ => {} }

/-- The directories `yaffs_create_initial_dir` makes; lost+found can be hidden. -/
def mountObj (o : ℕ) : Obj :=
  if o = objectIdRoot ∧ m.hideLostNFound then { initialObj o with children := [] } else initialObj o

/-- The device before the scan. -/
def mountDev (old : BlockDev) : ScanDev where
  toBlockDev := mountBlocks old
  obj := mountObj m
  ids := [objectIdLostNFound, objectIdRoot, objectIdDeleted, objectIdUnlinked]
  bucketFinder := 0
  cache := List.replicate g.nCaches { data := zeroChunk g }
  cacheLastUse := 0
  gcCleanupList := []
  nUnlinkedFiles := 0
  nDeletedFiles := 0
  dirtyDirs := []
  scanObj := fun _ => {}
  hardList := []
  shadowFixers := []

/-- The scan of a device. -/
def scanDev (old : BlockDev) : ScanDev × Bool :=
  if g.isYaffs2 then scanBackwards g e m (mountDev g m old) else scanForwards g e m (mountDev g m old)

/-- The end of `yaffs_guts_initialise` : aborted checkpoint data is erased. -/
def cleanCheckpt (d : Dev) : Dev :=
  if d.isCheckpointed = false ∧ 0 < d.blocksInCheckpt then d.mapBlocks (checkptInvalidate g e) else d

/-- `yaffs_guts_initialise`, of a device that is `old` in memory and on flash, with the device the
checkpoint yields if it can be read. -/
def gutsInitialise (old : BlockDev) (restored : Option Dev) : Dev × Bool :=
  match restored with
  | some d => (cleanCheckpt g e (gutsCleanup g e m d), true)
  | none =>
    let r := scanDev g e m old
    let d := gutsCleanup g e m (loadDetails g e m r.1).toDev
    if r.2 then (cleanCheckpt g e d, true) else (d, false)

end Yaffs
