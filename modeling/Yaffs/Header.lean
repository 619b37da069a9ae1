import Yaffs.Object

/-!
# Object headers, deletion and garbage collection

`yaffs_update_oh`, the renaming and the deletion of objects, which write headers, and
garbage collection. Writing a header first runs a gc, and a gc may finish the deletion of a
file; it has gc disabled by then, so that the cycle ends there. The functions below the gc
take the gc to run as the argument `gc`; the gc runs them with none.
-/

namespace Yaffs

variable (g : Geometry) (e : Env)

/-! ## Headers -/

/-- `yaffs_obj_cache_dirty`. -/
def objCacheDirty (d : Dev) (o : ℕ) : Bool :=
  d.cache.any fun c => c.object = some o && c.dirty

/-- `yaffs_invalidate_file_cache`. -/
def invalidateFileCache (o : ℕ) (d : Dev) : Dev :=
  { d with cache := d.cache.map fun c => if c.object = some o then { c with object := none } else c }

/-- The object header `yaffs_update_oh` writes. -/
def objHdr (d : Dev) (o : ℕ) (name : Option Name) (isShrink : Bool) (shadows : ℕ) : ObjHdr :=
  let ob := d.obj o
  let parentObjId := ob.parent.getD 0
  { type := ob.variantType
    parentObjId := parentObjId
    name :=
      match name with
      | some (c :: cs) => (c :: cs).take (maxNameLength - 1)
      | _ => if 0 < ob.hdrChunk then hdrName d ob.hdrChunk else []
    fileSize :=
      if ob.variantType = .file ∧ parentObjId ≠ objectIdDeleted ∧ parentObjId ≠ objectIdUnlinked then
        ob.file.storedSize
      else 0
    equivId := if ob.variantType = .hardlink then ob.equivId else 0xffffffff
    aliasName :=
      if ob.variantType = .symlink then
        (ob.aliasName.getD "no alias".toList).take maxAliasLength
      else []
    shadowsObj := shadows
    inbandShadowedObjId := shadows
    isShrink := isShrink }

/-- The tags `yaffs_update_oh` writes with it. -/
def hdrTags (o : ℕ) (oh : ObjHdr) : ExtTags :=
  { objId := o
    chunkId := 0
    extraAvailable := true
    extraParentId := oh.parentObjId
    extraFileSize := oh.fileSize
    extraIsShrink := oh.isShrink
    extraEquivId := oh.equivId
    extraShadows := decide (0 < oh.shadowsObj)
    extraObjType := oh.type }

/-- The new header chunk takes the place of the old one. -/
def replaceHdr (o prev c : ℕ) (d : Dev) : Dev :=
  let d := d.modObj o fun ob => { ob with hdrChunk := c }
  if 0 < prev then d.mapBlocks (chunkDel g e prev true) else d

/-- `yaffs_update_oh`, which returns the new header chunk, or `0` for a fake object. -/
def updateOhWith (gc : Dev → Dev) (o : ℕ) (name : Option Name) (force isShrink : Bool)
    (shadows : ℕ) (d : Dev) : Dev × Option ℕ :=
  if (d.obj o).fake ∧ o ≠ objectIdRoot ∧ force = false then (d, some 0)
  else
    let d := gc d
    let prev := (d.obj o).hdrChunk
    let oh := objHdr d o name isShrink shadows
    let r := d.onBlocks (writeNewChunk g e (.hdr oh) (hdrTags o oh) (decide (0 < prev)))
    match r.2 with
    | none => (r.1, none)
    | some c =>
      let d := replaceHdr g e o prev c r.1
      let d := if objCacheDirty d o then d else d.modObj o fun ob => { ob with dirty := false }
      let d :=
        if isShrink then
          d.mapBlocks fun b => b.modBlock (c / g.chunksPerBlock) fun bi => { bi with hasShrinkHdr := true }
        else d
      (d, some c)

/-- `yaffs_change_obj_name`. -/
def changeObjNameWith (gc : Dev → Dev) (o : ℕ) (newDir : Option ℕ) (newName : Name) (force : Bool)
    (shadows : ℕ) (d : Dev) : Dev × Bool :=
  match newDir.or (d.obj o).parent with
  | none => (d, false)
  | some dir =>
    let unlinkOp := decide (dir = objectIdUnlinked)
    let delOp := decide (dir = objectIdDeleted)
    if !(unlinkOp || delOp || force || decide (0 < shadows) || (findByName d dir newName).isNone) ||
        (d.obj dir).variantType != .directory then (d, false)
    else
      let d := d.modObj o fun ob => { setObjName o newName ob with dirty := true }
      let d := addObjToDir dir o d
      let d := if unlinkOp then d.modObj o fun ob => { ob with unlinked := true } else d
      let r := updateOhWith g e gc o (some newName) false delOp shadows d
      (r.1, r.2.isSome)

/-- `yaffs_update_parent`, of no object when it is passed a null pointer. -/
def updateParentWith (gc : Dev → Dev) (dir : Option ℕ) (d : Dev) : Dev :=
  match dir with
  | none => d
  | some o =>
    let d := d.modObj o fun ob => { ob with dirty := true }
    if g.deferedDirUpdate then
      if o ∈ d.dirtyDirs then d else { d with dirtyDirs := o :: d.dirtyDirs }
    else (updateOhWith g e gc o none false false 0 d).1

/-! ## Deletion -/

/-- `yaffs_free_obj`. -/
def freeObj (o : ℕ) (d : Dev) : Dev :=
  if (d.obj o).myInode.isSome then d.modObj o fun ob => { ob with deferredFree := true }
  else { unhashObj o d with nObj := d.nObj - 1 }

/-- `yaffs_handle_defered_free`. -/
def handleDeferedFree (o : ℕ) (d : Dev) : Dev :=
  if (d.obj o).deferredFree then freeObj o d else d

/-- `YAFFS` names of the objects in the fake directories. -/
def deletedName : Name := "deleted".toList
def unlinkedName : Name := "unlinked".toList

/-- `yaffs_generic_obj_del`. -/
def genericObjDelWith (gc : Dev → Dev) (o : ℕ) (d : Dev) : Dev :=
  let d := invalidateFileCache o d
  let d :=
    if g.isYaffs2 ∧ (d.obj o).parent ≠ some objectIdDeleted then
      (changeObjNameWith g e gc o (some objectIdDeleted) deletedName false 0 d).1
    else d
  let d := removeObjFromDir o d
  let d := d.mapBlocks (chunkDel g e (d.obj o).hdrChunk true)
  let d := d.modObj o fun ob => { ob with hdrChunk := 0 }
  freeObj o d

/-- Free the top tnode of a file. -/
def freeTop (o : ℕ) (d : Dev) : Dev :=
  (d.mapBlocks freeTnode).modFile o fun f => { f with top := none }

/-- `yaffs_soft_del_file`. -/
def softDelFileWith (gc : Dev → Dev) (o : ℕ) (d : Dev) : Dev :=
  if (d.obj o).deleted = false ∨ (d.obj o).variantType ≠ .file ∨ (d.obj o).softDel then d
  else if (d.obj o).nDataChunks ≤ 0 then genericObjDelWith g e gc o (freeTop o d)
  else
    let r := (d.obj o).file.softDel g (groupBase g) d.toBlockDev
    { d with toBlockDev := r.1 }.modObj o fun ob => { ob with file := r.2, softDel := true }

/-! ## Collecting a block -/

/-- What `yaffs_gc_process_chunk` makes of an object header : its shrink and shadow marks
have done their work. -/
def gcObjHdr (d : Dev) (o : ℕ) (oh : ObjHdr) : ObjHdr :=
  { oh with
    isShrink := false
    shadowsObj := 0
    inbandShadowedObjId := 0
    fileSize := if (d.obj o).variantType = .file then (d.obj o).file.storedSize else oh.fileSize }

/-- The page `yaffs_gc_process_chunk` writes for the header of `o`. -/
def gcHdrPage (d : Dev) (o : ℕ) (p : Page) : Page where
  tags :=
    { p.tags with
      extraIsShrink := false
      extraShadows := false
      extraFileSize :=
        if (d.obj o).variantType = .file then (d.obj o).file.storedSize else p.tags.extraFileSize }
  data :=
    match p.data with
    | .hdr oh => .hdr (gcObjHdr d o oh)
    | data => data

/-- gc drops a chunk of a soft-deleted file. -/
def gcDropChunk (o old : ℕ) (d : Dev) : Dev :=
  let d := d.mapBlocks fun b =>
    { b.modBlock (old / g.chunksPerBlock) fun bi => { bi with softDelPages := bi.softDelPages - 1 } with
      nFreeChunks := b.nFreeChunks - 1 }
  let d := d.modObj o fun ob => { ob with nDataChunks := ob.nDataChunks - 1 }
  let d := if (d.obj o).nDataChunks ≤ 0 then { d with gcCleanupList := d.gcCleanupList ++ [o] } else d
  d.mapBlocks (chunkDel g e old false)

/-- gc copies the header of `o`. -/
def gcCopyHdr (o old : ℕ) (p : Page) (d : Dev) : Dev × Bool :=
  let p := gcHdrPage d o p
  let r := d.onBlocks (writeNewChunk g e p.data p.tags true)
  match r.2 with
  | none => (r.1, false)
  | some c =>
    ((r.1.modObj o fun ob => { ob with hdrChunk := c }).mapBlocks (chunkDel g e old true), true)

/-- gc copies a data chunk of `o`. -/
def gcCopyData (o old : ℕ) (p : Page) (d : Dev) : Dev × Bool :=
  let r := d.onBlocks (writeNewChunk g e p.data p.tags true)
  match r.2 with
  | none => (r.1, false)
  | some c => ((putChunkInFile g e o p.tags.chunkId c r.1).1.mapBlocks (chunkDel g e old true), true)

/-- `yaffs_gc_process_chunk`. -/
def gcProcessChunk (old : ℕ) (d : Dev) : Dev × Bool :=
  let p := (d.nand.flash old).getD ⟨{}, .blank⟩
  match findByNumber d p.tags.objId with
  | none => (d.mapBlocks (chunkDel g e old true), true)
  | some o =>
    if (d.obj o).deleted ∧ (d.obj o).softDel ∧ p.tags.chunkId ≠ 0 then (gcDropChunk g e o old d, true)
    else if p.tags.chunkId = 0 then gcCopyHdr g e o old p d
    else gcCopyData g e o old p d

/-- The loop of `yaffs_gc_block`, which counts `gc_chunk` up even when the copy failed. -/
def gcBlockLoop (b : ℕ) : ℕ → ℕ → Dev → Dev × Bool
  | 0, _, d => (d, true)
  | n + 1, maxCopies, d =>
    if d.gc.chunk < g.chunksPerBlock ∧ (d.blockInfo b).blockState = .collecting ∧ 0 < maxCopies then
      let old := b * g.chunksPerBlock + d.gc.chunk
      let next := fun d : Dev => d.mapBlocks fun b => { b with gc := { b.gc with chunk := b.gc.chunk + 1 } }
      if d.chunkBits old then
        let r := gcProcessChunk g e old d
        if r.2 then gcBlockLoop b n (maxCopies - 1) (next r.1) else (next r.1, false)
      else gcBlockLoop b n maxCopies (next d)
    else (d, true)

/-- `yaffs_still_some_chunks`. -/
def stillSomeChunks (b : ℕ) (d : BlockDev) : Bool :=
  (List.range g.chunksPerBlock).any fun i => d.chunkBits (b * g.chunksPerBlock + i)

/-- The deletion of one file whose last chunk gc has dropped. -/
def gcCleanUp (d : Dev) (o : ℕ) : Dev :=
  match findByNumber d o with
  | none => d
  | some o =>
    let d := genericObjDelWith g e (fun d => d) o (freeTop o d)
    { d with nDeletedFiles := d.nDeletedFiles - 1 }

/-- `yaffs_gc_block` starts on block `b`. -/
def gcBlockStart (b : ℕ) (d : BlockDev) : BlockDev :=
  let d := if (d.blockInfo b).blockState = .full then d.setState b .collecting else d
  let d := d.modBlock b fun bi => { bi with hasShrinkHdr := false }
  summaryGc g b { d with gc := { d.gc with disable := true } }

/-- The end of `yaffs_gc_block`. -/
def gcBlockEnd (b : ℕ) (d : Dev) : Dev :=
  let d :=
    if (d.blockInfo b).blockState = .collecting then d.mapBlocks fun bd => bd.setState b .full
    else
      let d := d.gcCleanupList.foldl (gcCleanUp g e) d
      { d.mapBlocks fun bd => { bd with gc := { bd.gc with block := 0, chunk := 0 } } with
        gcCleanupList := [] }
  d.mapBlocks fun bd => { bd with gc := { bd.gc with disable := false } }

/-- `yaffs_gc_block`. -/
def gcBlock (b : ℕ) (wholeBlock : Bool) (d : Dev) : Dev × Bool :=
  let isCheckptBlock := decide ((d.blockInfo b).blockState = .checkpoint)
  let d := d.mapBlocks (gcBlockStart g b)
  let r :=
    if isCheckptBlock || !stillSomeChunks g b d.toBlockDev then
      (d.mapBlocks (blockBecameDirty g e b), true)
    else gcBlockLoop g e b g.chunksPerBlock (if wholeBlock then g.chunksPerBlock else 5) d
  (gcBlockEnd g e b r.1, r.2)

end Yaffs
