import Yaffs.Summary
import Yaffs.Run

/-!
# Scanning the flash

`yaffs2_scan_backwards` and `yaffs1_scan`, which build the objects, the block table and the
chunk bitmap from the tags and headers on flash.

An object is kept under its number. There can be several objects with the number `0`, since
`yaffs_find_or_create_by_number` never looks for it : these are kept under multiples of 256 from
`2 ^ 32` on, which lie in the same hash bucket.
-/

namespace Yaffs

/-! ## Mounting -/

/-- What the driver says of a block when it is queried. -/
inductive BlockQuery
  | dead
  | empty
  | needsScan (seqNumber : ℕ)
  deriving DecidableEq, Repr

/-- `block_state` of a block queried. -/
def BlockQuery.blockState : BlockQuery → BlockState
  | .dead => .dead
  | .empty => .empty
  | .needsScan _ => .needsScan

/-- `seq_number` of a block queried. -/
def BlockQuery.seqNumber : BlockQuery → ℕ
  | .needsScan n => n % 2 ^ 32
  | _ => 0

/-- How a device is mounted, and what the driver answers while it is. -/
structure MountParam where
  readOnly : Bool
  disableLazyLoad : Bool
  emptyLostNFound : Bool
  hideLostNFound : Bool
  /-- `use_header_file_size`, which yaffs2 sets. -/
  useHeaderFileSize : Bool
  reader : Reader
  query : ℕ → BlockQuery
  /-- The words the source leaves without a value : `seq_number` in `yaffs_summary_fetch`, and the
  serial number of a chunk `yaffs_find_chunk_in_file` does not read. -/
  stale : ℕ

/-- What only mounting uses of `struct yaffs_obj`. -/
structure ScanObj where
  valid : Bool := false
  lazyLoaded : Bool := false
  serial : ℕ := 0
  deriving DecidableEq, Repr

/-- A device being scanned. -/
structure ScanDev extends Dev where
  scanObj : ℕ → ScanObj
  /-- `hard_list`, the latest first. -/
  hardList : List ℕ
  /-- `shadow_fixers`, as `(obj_id, shadowed_id)`, the latest first. -/
  shadowFixers : List (ℕ × ℕ)

namespace ScanDev

variable (s : ScanDev)

/-- Run a step of the core. -/
def onDev {α : Type} (f : Dev → Dev × α) : ScanDev × α :=
  ({ s with toDev := (f s.toDev).1 }, (f s.toDev).2)

/-- Run a step of the core that returns nothing. -/
def mapDev (f : Dev → Dev) : ScanDev :=
  { s with toDev := f s.toDev }

/-- Run a step of the block management that returns nothing. -/
def mapBlk (f : BlockDev → BlockDev) : ScanDev :=
  s.mapDev fun d => d.mapBlocks f

/-- Change what the scan knows of `o`. -/
def modScan (o : ℕ) (f : ScanObj → ScanObj) : ScanDev :=
  { s with scanObj := Function.update s.scanObj o (f (s.scanObj o)) }

end ScanDev

/-! ## Objects by number -/

/-- The least place of an object with the number `0`. -/
def zeroNumber : ℕ := 2 ^ 32

/-- `obj_id` of the object kept under `o`. -/
def objNumber (o : ℕ) : ℕ :=
  if o < zeroNumber then o else 0

/-- `yaffs_find_by_number`. -/
def findNumber (d : Dev) (n : ℕ) : Option ℕ :=
  if n = 0 then d.ids.find? fun o => decide (zeroNumber ≤ o) else findByNumber d n

/-- The number under which `yaffs_new_obj` keeps an object, from its argument as a C `int`. -/
def newNumber (n : ℕ) (d : Dev) : Dev × ℕ :=
  if n = 0 then (d, newObjIdLoop d.ids d.ids.length (zeroNumber - nObjectBuckets))
  else if n < 2 ^ 31 then (d, n)
  else newObjId d

section

variable (g : Geometry) (e : Env)

/-- `yaffs_new_obj`, for an object kept under `o`. -/
def newObjAt (o : ℕ) (type : ObjType) (d : Dev) : Dev × Option ℕ :=
  let r := if type = .file then d.onBlocks (getTnode e) else (d, true)
  if r.2 then
    let q := allocEmptyObj e o r.1
    if q.2 then (initObj g o type q.1, some o)
    else (if type = .file then q.1.mapBlocks freeTnode else q.1, none)
  else (r.1, none)

/-- `yaffs_find_or_create_by_number`. -/
def findOrCreateByNumber (n : ℕ) (type : ObjType) (s : ScanDev) : ScanDev × Option ℕ :=
  let found := if 0 < n ∧ n < 2 ^ 31 then findByNumber s.toDev n else none
  match found with
  | some o => (s, some o)
  | none =>
    let r := s.onDev (newNumber n)
    let q := r.1.onDev (newObjAt g e r.2 type)
    (q.1.modScan r.2 fun _ => {}, q.2)

/-! ## Chunks of a file -/

/-- `yaffs_put_chunk_in_file`, scanning backwards : a chunk that is there already is the newer. -/
def putChunkBackwards (o k c : ℕ) (d : Dev) : Dev × Bool :=
  if (d.obj o).variantType ≠ .file then (d.mapBlocks (chunkDel g e c true), true)
  else
    let r := (d.obj o).file.addFind e k d.toBlockDev
    let d := { d with toBlockDev := r.1 }.modFile o fun _ => r.2.1
    if r.2.2 then
      if groupBase g ((d.obj o).file.entry k) = 0 then
        let d := d.modObj o fun ob => { ob with nDataChunks := ob.nDataChunks + 1 }
        (d.modFile o fun f => f.load k (groupOf g c), true)
      else (d.mapBlocks (chunkDel g e c true), true)
    else (d, false)

/-- The serial number `yaffs_put_chunk_in_file` has of the chunk it found : it is not read when
there is no group to look through. -/
def existingSerial (m : MountParam) (c : ℕ) (d : Dev) : ℕ :=
  if g.chunkGrpSize = 1 then m.stale else (m.reader d.nand.calls c).serialNumber

/-- `yaffs_put_chunk_in_file`, scanning forwards, where of two chunks the serial numbers tell the
newer one. -/
def putChunkForwards (m : MountParam) (o k c : ℕ) (d : Dev) : Dev × Bool :=
  if (d.obj o).variantType ≠ .file then (d.mapBlocks (chunkDel g e c true), true)
  else
    let r := (d.obj o).file.addFind e k d.toBlockDev
    let d := { d with toBlockDev := r.1 }.modFile o fun _ => r.2.1
    if r.2.2 then
      let load := fun d : Dev => d.modFile o fun f => f.load k (groupOf g c)
      if groupBase g ((d.obj o).file.entry k) = 0 then
        (load (d.modObj o fun ob => { ob with nDataChunks := ob.nDataChunks + 1 }), true)
      else
        let r := d.onBlocks (rdChunkTagsNand g m.reader c)
        match findChunkInFile g r.1 o k with
        | none => (load r.1, true)
        | some old =>
          if (existingSerial g m old r.1 + 1) % 4 = r.2.serialNumber then
            (load (r.1.mapBlocks (chunkDel g e old true)), true)
          else (r.1.mapBlocks (chunkDel g e c true), true)
    else (d, false)

/-! ## Objects that change -/

/-- `yaffs_empty_dir_to_dir`. -/
def emptyDirToDir (src dst : ℕ) (d : Dev) : Dev :=
  (d.obj src).children.foldl (fun d o => addObjToDir dst o d) d

/-- `yaffs_retype_obj` tears down the old variant. -/
def tearDown (o : ℕ) (d : Dev) : Dev :=
  match (d.obj o).variantType with
  | .file => freeTop o (resizeFile g e o 0 d).1
  | .directory => cleanDir o (emptyDirToDir o objectIdLostNFound d)
  | .hardlink => unlinkRing o d
  | _ => d

/-- `yaffs_retype_obj`. -/
def retypeObj (o : ℕ) (type : ObjType) (d : Dev) : Dev :=
  (tearDown g e o d).modObj o fun ob =>
    { ob with
      variantType := type, file := {}, children := [], equivId := 0, equivObj := none, aliasName := none }

/-- `yaffs_handle_shadowed_obj`, scanning backwards. -/
def handleShadowedObj (n : ℕ) (s : ScanDev) : ScanDev :=
  if (findByNumber s.toDev n).isSome then s
  else
    let r := findOrCreateByNumber g e n .file s
    match r.2 with
    | none => r.1
    | some o =>
      let s := r.1.mapDev fun d =>
        (addObjToDir objectIdUnlinked o (d.modObj o fun ob => { ob with isShadowed := true })).modFile o
          fun f => { f with shrinkSize := 0 }
      s.modScan o fun q => { q with valid := true }

/-! ## Headers -/

/-- The object header in the data read of a page. -/
def PageData.objHdr : PageData → ObjHdr
  | .hdr oh => oh
  | _ => { type := .unknown, parentObjId := 0, name := [] }

/-- The header a scan reads from a page, as it goes by it. -/
def PageRead.objHdr (r : PageRead) : ObjHdr :=
  if g.inbandTags then
    { r.data.objHdr with
      shadowsObj := r.data.objHdr.inbandShadowedObjId
      isShrink := r.inbandIsShrink }
  else r.data.objHdr

/-- What a scan goes by of a header, read from the page or from its tags. -/
structure HdrInfo where
  type : ObjType
  parentObjId : ℕ
  fileSize : ℕ
  isShrink : Bool
  equivId : ℕ

/-- What a scan has of the header in a page, from the page if it was read. -/
def HdrInfo.of (oh : Option ObjHdr) (t : ExtTags) : HdrInfo :=
  match oh with
  | some oh => ⟨oh.type, oh.parentObjId % 2 ^ 32, oh.fileSize, oh.isShrink, oh.equivId % 2 ^ 32⟩
  | none => ⟨t.extraObjType, t.extraParentId, t.extraFileSize, t.extraIsShrink, t.extraEquivId⟩

/-- `shadows_obj` as a positive C `int`. -/
def ObjHdr.shadows (oh : ObjHdr) : Option ℕ :=
  let n := oh.shadowsObj % 2 ^ 32
  if 0 < n ∧ n < 2 ^ 31 then some n else none

/-- A page the scan takes into use. -/
def takeScanned (b c : ℕ) (d : BlockDev) : BlockDev :=
  (d.setChunkBit c).modBlock b fun bi => { bi with pagesInUse := bi.pagesInUse + 1 }

/-- One free chunk more. -/
def countFree (n : ℤ) (d : BlockDev) : BlockDev :=
  { d with nFreeChunks := d.nFreeChunks + n }

/-- `bi->has_shrink_hdr = 1`. -/
def setShrinkHdr (b : ℕ) (d : BlockDev) : BlockDev :=
  d.modBlock b fun bi => { bi with hasShrinkHdr := true }

/-- The object is one of those whose header says little : the root or lost+found. -/
def isLocalDir (n : ℕ) : Bool :=
  n = objectIdRoot || n = objectIdLostNFound

/-- The scan has to read the page of a header. -/
def needsHdr (m : MountParam) (t : ExtTags) (o : Option ℕ) (s : ScanDev) : Bool :=
  match o with
  | none => true
  | some o =>
    t.extraShadows || !(s.scanObj o).valid && (m.disableLazyLoad || isLocalDir t.objId)

/-- The object of a header, with the header if it was read; `false` when there was no memory for
the object the tags tell of. -/
def findHdrObj (m : MountParam) (c : ℕ) (t : ExtTags) (s : ScanDev) :
    ScanDev × Option ℕ × Option ObjHdr × Bool :=
  let r := if t.extraAvailable then findOrCreateByNumber g e t.objId t.extraObjType s else (s, none)
  let ok := !t.extraAvailable || r.2.isSome
  if needsHdr m t r.2 r.1 then
    let q := r.1.onDev fun d => d.onBlocks (rdChunkTagsNand g m.reader c)
    let oh := q.2.objHdr g
    match r.2 with
    | some o => (q.1, some o, some oh, ok)
    | none =>
      let r := findOrCreateByNumber g e t.objId oh.type q.1
      (r.1, r.2, some oh, ok)
  else (r.1, r.2, none, ok)

/-- An older header of a file still tells how far it was shrunk. -/
def shrinkBy (b o : ℕ) (oh : Option ObjHdr) (t : ExtTags) (d : Dev) : Dev :=
  let h := HdrInfo.of oh t
  if (d.obj o).variantType = .file ∧
      (oh.any (fun oh => oh.type = .file) ∨ (t.extraAvailable ∧ t.extraObjType = .file)) then
    let gone := decide (h.parentObjId = objectIdDeleted ∨ h.parentObjId = objectIdUnlinked)
    let size := if gone then 0 else h.fileSize
    if gone || h.isShrink then
      (d.modFile o fun f => { f with shrinkSize := min f.shrinkSize size }).mapBlocks (setShrinkHdr b)
    else d
  else d

/-- The parent of an object that is loaded, which must be a directory. -/
def parentDir (p : Option ℕ) (d : Dev) : Dev × ℕ :=
  match p with
  | some p =>
    if (d.obj p).variantType = .unknown then
      (d.modObj p fun ob => { ob with variantType := .directory, children := [] }, p)
    else if (d.obj p).variantType = .directory then (d, p)
    else (d, objectIdLostNFound)
  | none => (d, objectIdLostNFound)

/-- `file_var` after the header that tells the size of the file. -/
def loadSize (size : ℕ) (f : FileVar) : FileVar :=
  let f := if f.storedSize < size then { f with fileSize := size, storedSize := size } else f
  { f with shrinkSize := min f.shrinkSize size }

/-- The end of the loading of an object, by its type. -/
def loadVariant (o : ℕ) (isUnlinked : Bool) (oh : Option ObjHdr) (h : HdrInfo) (s : ScanDev) :
    ScanDev × Bool :=
  match (s.obj o).variantType with
  | .file => (s.mapDev fun d => d.modFile o (loadSize h.fileSize), true)
  | .hardlink =>
    if isUnlinked then (s, true)
    else
      let s := s.mapDev fun d => d.modObj o fun ob => { ob with equivId := h.equivId }
      ({ s with hardList := o :: s.hardList }, true)
  | .symlink =>
    match oh with
    | none => (s, true)
    | some oh =>
      let r := s.onDev (cloneStr e oh.aliasName)
      (r.1.mapDev fun d => d.modObj o fun ob => { ob with aliasName := r.2 }, r.2.isSome)
  | _ => (s, true)

/-- An object gets its name and what it shadows from a header that has been read. -/
def loadHdr (o : ℕ) (oh : Option ObjHdr) (s : ScanDev) : ScanDev :=
  match oh with
  | some oh =>
    let s := match oh.shadows with
      | some n => handleShadowedObj g e n s
      | none => s
    s.mapDev fun d => d.modObj o fun ob => setObjName o oh.name ob
  | none => s.modScan o fun q => { q with lazyLoaded := true }

/-- The object `o` is loaded from the header in chunk `c` of block `b`. -/
def loadObj (b c o : ℕ) (oh : Option ObjHdr) (t : ExtTags) (s : ScanDev) : ScanDev × Bool :=
  let h := HdrInfo.of oh t
  let s := (s.modScan o fun q => { q with valid := true }).mapDev fun d =>
    d.modObj o fun ob => { ob with hdrChunk := c, variantType := h.type }
  let r := findOrCreateByNumber g e h.parentObjId .directory (loadHdr g e o oh s)
  let s := r.1.mapDev fun d => d.modObj o fun ob => { ob with dirty := false }
  let q := s.onDev (parentDir r.2)
  let s := q.1.mapDev (addObjToDir q.2 o)
  let s := if h.isShrink then s.mapBlk (setShrinkHdr b) else s
  let v := loadVariant e o (decide (q.2 = objectIdDeleted ∨ q.2 = objectIdUnlinked)) oh h s
  (v.1, v.2 && r.2.isSome)

/-- The root and lost+found stay where they are. -/
def loadLocalDir (c o : ℕ) (oh : Option ObjHdr) (s : ScanDev) : ScanDev :=
  (s.modScan o fun q => { q with valid := true, lazyLoaded := oh.isNone }).mapDev fun d =>
    d.modObj o fun ob => { ob with hdrChunk := c }

/-- The first header found of an object `o`. -/
def scanNewHdr (b c o : ℕ) (oh : Option ObjHdr) (t : ExtTags) (s : ScanDev) : ScanDev × Bool :=
  let h := HdrInfo.of oh t
  let s := if (s.obj o).variantType ≠ h.type then s.mapDev (retypeObj g e o h.type) else s
  if isLocalDir t.objId then (loadLocalDir c o oh s, true) else loadObj g e b c o oh t s

/-- `yaffs2_scan_chunk` on a header. -/
def scanHdr (m : MountParam) (b c : ℕ) (t : ExtTags) (s : ScanDev) : ScanDev × Bool :=
  let r := findHdrObj g e m c t (s.mapBlk (takeScanned b c))
  match r.2.1 with
  | none => (r.1, false)
  | some o =>
    if (r.1.scanObj o).valid then
      (r.1.mapDev fun d => (shrinkBy b o r.2.2.1 t d).mapBlocks (chunkDel g e c true), r.2.2.2)
    else
      let q := scanNewHdr g e b c o r.2.2.1 t r.1
      (q.1, q.2 && r.2.2.2)

/-! ## Data chunks -/

/-- `chunk_base` of chunk `k`, which is computed as a `u32`. -/
def Param.chunkBase (p : Param) (k : ℕ) : ℕ :=
  (k - 1) * p.dataBytesPerChunk % 2 ^ 32

/-- A file without header is as long as its data. -/
def raiseSize (endpos : ℕ) (f : FileVar) : FileVar :=
  if f.storedSize < endpos then { f with fileSize := endpos, storedSize := endpos } else f

/-- `yaffs2_scan_chunk` on a data chunk. -/
def scanData (b c : ℕ) (t : ExtTags) (s : ScanDev) : ScanDev × Bool :=
  let r := findOrCreateByNumber g e t.objId .file (s.mapBlk (takeScanned b c))
  match r.2 with
  | none => (r.1, false)
  | some o =>
    if (r.1.obj o).variantType = .file ∧ g.chunkBase t.chunkId < (r.1.obj o).file.shrinkSize then
      let q := r.1.onDev (putChunkBackwards g e o t.chunkId c)
      (if (q.1.scanObj o).valid then q.1
        else q.1.mapDev fun d => d.modFile o (raiseSize (g.chunkBase t.chunkId + t.nBytes)), q.2)
    else (r.1.mapBlk (chunkDel g e c true), true)

/-! ## Scanning backwards -/

/-- `YAFFS_MAX_OBJECT_ID`. -/
def maxObjectId : ℕ := 0x3ffff

/-- The tags are of no chunk of block `b`. -/
def badTags (b : ℕ) (t : ExtTags) (d : BlockDev) : Bool :=
  decide (maxObjectId < t.objId) || decide (maxChunkId < t.chunkId) || t.objId = objectIdSummary ||
    (decide (0 < t.chunkId) && decide (g.dataBytesPerChunk < t.nBytes)) ||
    t.seqNumber != (d.blockInfo b).seqNumber

/-- A block is being scanned. -/
def BlockState.scanned (s : BlockState) : Bool :=
  s = .needsScan || s = .allocating

/-- `yaffs2_scan_chunk` on a page that is not used. -/
def scanUnused (b i : ℕ) (found : Bool) (d : BlockDev) : BlockDev :=
  let d :=
    if found then d
    else if i = 0 then { d.setState b .empty with nErasedBlocks := d.nErasedBlocks + 1 }
    else if (d.blockInfo b).blockState.scanned ∧ d.seqNumber = (d.blockInfo b).seqNumber then
      { d.setState b .allocating with alloc := ⟨some b, i, b⟩ }
    else d
  countFree 1 d

/-- `yaffs2_scan_chunk` from the tags on; it returns `found_chunks` and whether there was memory. -/
def scanPage (m : MountParam) (b i : ℕ) (found : Bool) (r : PageRead) (s : ScanDev) :
    ScanDev × Bool × Bool :=
  let c := b * g.chunksPerBlock + i
  let t := r.tags
  if !t.chunkUsed then (s.mapBlk (scanUnused b i found), found, true)
  else if r.ecc = .unfixed then (s.mapBlk (countFree 1), found, true)
  else if badTags g b t s.toBlockDev then (s.mapBlk (countFree 1), found, true)
  else
    let q := if 0 < t.chunkId then scanData g e b c t s else scanHdr g e m b c t s
    (q.1, true, q.2)

/-- `yaffs2_scan_chunk`. -/
def scanChunk (m : MountParam) (b i : ℕ) (summaryAvailable found : Bool) (s : ScanDev) :
    ScanDev × Bool × Bool :=
  let r := s.onDev fun d => d.onBlocks (scanTags g m.reader m.stale b i summaryAvailable)
  scanPage g e m b i found r.2 r.1

/-- The loop of `yaffs2_scan_backwards` over the chunks below `n` of a block. -/
def scanBlockLoop (m : MountParam) (b : ℕ) (summaryAvailable : Bool) :
    ℕ → Bool → ScanDev → ScanDev × Bool
  | 0, _, s => (s, true)
  | i + 1, found, s =>
    if (s.blockInfo b).blockState.scanned then
      let r := scanChunk g e m b i summaryAvailable found s
      if r.2.2 then scanBlockLoop m b summaryAvailable i r.2.1 r.1 else (r.1, false)
    else (s, true)

/-- The end of the scan of a block. -/
def finishBlock (b : ℕ) (d : BlockDev) : BlockDev :=
  let d := if (d.blockInfo b).blockState = .needsScan then d.setState b .full else d
  let bi := d.blockInfo b
  if bi.pagesInUse = 0 ∧ bi.hasShrinkHdr = false ∧ bi.blockState = .full then blockBecameDirty g e b d
  else d

/-- The scan of one block. -/
def scanBlock (m : MountParam) (b : ℕ) (s : ScanDev) : ScanDev × Bool :=
  let r := s.onDev fun d => d.onBlocks (summaryRead g m.reader b)
  let q := scanBlockLoop g e m b r.2 (if r.2 then g.summaryChunks else g.chunksPerBlock) false r.1
  (q.1.mapBlk (finishBlock g e b), q.2)

/-- The scan of some blocks, up to the first for which there was not enough memory. -/
def scanBlocks (m : MountParam) : List ℕ → ScanDev → ScanDev × Bool
  | [], s => (s, true)
  | b :: bs, s =>
    let r := scanBlock g e m b s
    if r.2 then scanBlocks m bs r.1 else r

/-! ## The scan of a yaffs2 device -/

/-- The state of a block before the scan. -/
def initBlock (b : ℕ) (q : BlockQuery) (d : BlockDev) : BlockDev :=
  (clearChunkBits g b d).modBlock b fun bi =>
    { bi with
      pagesInUse := 0
      softDelPages := 0
      seqNumber := q.seqNumber
      blockState :=
        if q.seqNumber = sequenceBadBlock then .dead
        else if q.seqNumber = sequenceCheckpointData ∧ g.isYaffs2 then .checkpoint
        else q.blockState }

/-- A block found empty. -/
def countEmpty (d : BlockDev) : BlockDev :=
  { d with nErasedBlocks := d.nErasedBlocks + 1, nFreeChunks := d.nFreeChunks + g.chunksPerBlock }

/-- `YAFFS_HIGHEST_SEQUENCE_NUMBER`. -/
def highestSequenceNumber : ℕ := 0xefffff00

/-- The body of the first loop of `yaffs2_scan_backwards`, with the blocks to scan. -/
def queryBlock (m : MountParam) (r : BlockDev × List (ℕ × ℕ)) (b : ℕ) : BlockDev × List (ℕ × ℕ) :=
  let d := initBlock g b (m.query b) r.1
  let bi := d.blockInfo b
  match bi.blockState with
  | .checkpoint => ({ d with blocksInCheckpt := d.blocksInCheckpt + 1 }, r.2)
  | .empty => (countEmpty g d, r.2)
  | .needsScan =>
    if lowestSequenceNumber ≤ bi.seqNumber ∧ bi.seqNumber < highestSequenceNumber then
      ({ d with seqNumber := max d.seqNumber bi.seqNumber }, r.2 ++ [(bi.seqNumber, b)])
    else (d, r.2)
  | _ => (d, r.2)

/-- A `u32` as a C `int`. -/
def s32 (n : ℕ) : ℤ :=
  (n : ℤ).bmod (2 ^ 32)

/-- `yaffs2_ybicmp` is not positive. -/
def ybiLe (x y : ℕ × ℕ) : Bool :=
  if x.1 = y.1 then decide (x.2 ≤ y.2) else decide ((s32 x.1 - s32 y.1).bmod (2 ^ 32) ≤ 0)

/-- The blocks to scan, in the order in which they are scanned. -/
def scanOrder (index : List (ℕ × ℕ)) : List ℕ :=
  ((index.mergeSort ybiLe).map Prod.snd).reverse

/-- The body of the loop of `yaffs_link_fixup`. -/
def linkFixupStep (d : Dev) (hl : ℕ) : Dev :=
  match findNumber d (d.obj hl).equivId with
  | some q =>
    (d.modObj hl fun ob => { ob with equivObj := some q }).modObj q fun ob =>
      { ob with hardLinks := hl :: ob.hardLinks }
  | none => d.modObj hl fun ob => { ob with equivObj := none }

/-- `yaffs_link_fixup`. -/
def linkFixup (s : ScanDev) : ScanDev :=
  { s.mapDev fun d => s.hardList.foldl linkFixupStep d with hardList := [] }

/-- `yaffs2_scan_backwards`. -/
def scanBackwards (m : MountParam) (s : ScanDev) : ScanDev × Bool :=
  let r := g.blocks.foldl (queryBlock g m)
    ({ s.toBlockDev with seqNumber := lowestSequenceNumber, blocksInCheckpt := 0 }, [])
  let q := scanBlocks g e m (scanOrder r.2) (s.mapBlk fun _ => r.1)
  (linkFixup (q.1.mapBlk skipRestOfBlock), q.2)

/-! ## The scan of a yaffs1 device -/

/-- `yaffs1_scan` on a data chunk. -/
def scanData1 (m : MountParam) (b c : ℕ) (t : ExtTags) (s : ScanDev) : ScanDev × Bool :=
  let r := findOrCreateByNumber g e t.objId .file (s.mapBlk (takeScanned b c))
  match r.2 with
  | none => (r.1, false)
  | some o =>
    let q := r.1.onDev (putChunkForwards g e m o t.chunkId c)
    let endpos := ((t.chunkId - 1) * g.dataBytesPerChunk + t.nBytes) % 2 ^ 32
    (if (q.1.obj o).variantType = .file ∧ (q.1.obj o).file.storedSize < endpos then
        q.1.mapDev fun d => d.modFile o fun f =>
          { f with storedSize := endpos, fileSize := if m.useHeaderFileSize then f.fileSize else endpos }
      else q.1, q.2)

/-- `yaffs1_scan` finds the object of a header, after it has deleted one of another type. -/
def findHdrObj1 (t : ExtTags) (oh : ObjHdr) (s : ScanDev) : ScanDev × Option ℕ :=
  let s := match findNumber s.toDev t.objId with
    | some o => if (s.obj o).variantType ≠ oh.type then s.mapDev fun d => (delObj g e o d).1 else s
    | none => s
  findOrCreateByNumber g e t.objId oh.type s

/-- Of two headers of `o` the serial numbers tell the newer one. -/
def resolveHdr1 (c o serial : ℕ) (s : ScanDev) : ScanDev :=
  if (s.scanObj o).valid then
    if ((s.scanObj o).serial + 1) % 4 = serial then
      (s.mapBlk (chunkDel g e (s.obj o).hdrChunk true)).modScan o fun q => { q with valid := false }
    else s.mapBlk (chunkDel g e c true)
  else s

/-- The end of the loading of an object, by its type. -/
def loadVariant1 (m : MountParam) (o : ℕ) (oh : ObjHdr) (s : ScanDev) : ScanDev × Bool :=
  match (s.obj o).variantType with
  | .file =>
    (if m.useHeaderFileSize then s.mapDev fun d => d.modFile o fun f => { f with fileSize := oh.fileSize }
      else s, true)
  | .hardlink =>
    let s := s.mapDev fun d => d.modObj o fun ob => { ob with equivId := oh.equivId % 2 ^ 32 }
    ({ s with hardList := o :: s.hardList }, true)
  | .symlink =>
    let r := s.onDev (cloneStr e oh.aliasName)
    (r.1.mapDev fun d => d.modObj o fun ob => { ob with aliasName := r.2 }, r.2.isSome)
  | _ => (s, true)

/-- The object `o` takes over what its header says of itself. -/
def takeHdr1 (c o serial : ℕ) (oh : ObjHdr) (s : ScanDev) : ScanDev :=
  (s.modScan o fun q => { q with valid := true, serial := serial }).mapDev fun d =>
    d.modObj o fun ob => { ob with hdrChunk := c, variantType := oh.type }

/-- The object `o` is loaded from its header. -/
def loadObj1 (m : MountParam) (c o serial : ℕ) (oh : ObjHdr) (s : ScanDev) : ScanDev × Bool :=
  let s := (takeHdr1 c o serial oh s).mapDev fun d =>
    d.modObj o fun ob => { setObjName o oh.name ob with dirty := false }
  let r := findOrCreateByNumber g e (oh.parentObjId % 2 ^ 32) .directory s
  let q := r.1.onDev (parentDir r.2)
  let v := loadVariant1 e m o oh (q.1.mapDev (addObjToDir q.2 o))
  (v.1, v.2 && r.2.isSome)

/-- `yaffs1_scan` on a header. -/
def scanHdr1 (m : MountParam) (b c : ℕ) (r : PageRead) (s : ScanDev) : ScanDev × Bool :=
  let t := r.tags
  let q := (s.mapBlk (takeScanned b c)).onDev fun d => d.onBlocks (rdChunkTagsNand g m.reader c)
  let oh := q.2.data.objHdr
  let p := findHdrObj1 g e t oh q.1
  match p.2 with
  | none => (p.1, false)
  | some o =>
    let s := match oh.shadows with
      | some n => { p.1 with shadowFixers := (t.objId, n) :: p.1.shadowFixers }
      | none => p.1
    let s := resolveHdr1 g e c o r.serialNumber s
    if (s.scanObj o).valid then (s, true)
    else if isLocalDir t.objId then (takeHdr1 c o r.serialNumber oh s, true)
    else loadObj1 g e m c o r.serialNumber oh s

/-- The loop of `yaffs1_scan` over the `n` chunks of a block from chunk `i` on, with the state the
block is to have. -/
def scanBlockLoop1 (m : MountParam) (b : ℕ) : ℕ → ℕ → ScanDev → ScanDev × BlockState × Bool
  | 0, _, s => (s, .full, true)
  | n + 1, i, s =>
    let c := b * g.chunksPerBlock + i
    let r := s.onDev fun d => d.onBlocks (rdChunkTagsNand g m.reader c)
    let t := r.2.tags
    if !r.2.ok then scanBlockLoop1 m b n (i + 1) r.1
    else if r.2.ecc = .unfixed ∨ t.isDeleted then scanBlockLoop1 m b n (i + 1) (r.1.mapBlk (countFree 1))
    else if !t.chunkUsed then
      let s := r.1.mapBlk (countFree (g.chunksPerBlock - i))
      if i = 0 then
        (s.mapBlk fun d => { d with nErasedBlocks := d.nErasedBlocks + 1 }, .empty, true)
      else (s.mapBlk fun d => { d with alloc := ⟨none, i, b⟩ }, .full, true)
    else
      let q := if 0 < t.chunkId then scanData1 g e m b c t r.1 else scanHdr1 g e m b c r.2 r.1
      if q.2 then scanBlockLoop1 m b n (i + 1) q.1 else (q.1, .full, false)

/-- The scan of one block of a yaffs1 device. -/
def scanBlock1 (m : MountParam) (b : ℕ) (s : ScanDev) : ScanDev × Bool :=
  let state := (s.blockInfo b).blockState
  let r := if state = .needsScan then scanBlockLoop1 g e m b g.chunksPerBlock 0 s else (s, state, true)
  (r.1.mapBlk fun d => finishBlock g e b (d.setState b r.2.1), r.2.2)

/-- The scan of some blocks of a yaffs1 device, up to the first for which there was not enough memory. -/
def scanBlocks1 (m : MountParam) : List ℕ → ScanDev → ScanDev × Bool
  | [], s => (s, true)
  | b :: bs, s =>
    let r := scanBlock1 g e m b s
    if r.2 then scanBlocks1 m bs r.1 else r

/-- A rename that was interrupted is completed. -/
def fixShadow (d : Dev) (fixer : ℕ × ℕ) : Dev :=
  let d := match findNumber d fixer.2 with
    | some o => (delObj g e o d).1
    | none => d
  match findNumber d fixer.1 with
  | some o => (updateOh g e o none true false 0 d).1
  | none => d

/-- The body of the first loop of `yaffs1_scan`. -/
def queryBlock1 (m : MountParam) (d : BlockDev) (b : ℕ) : BlockDev :=
  let d := initBlock g b (m.query b) d
  if (d.blockInfo b).blockState = .empty then countEmpty g d else d

/-- `yaffs1_scan`. -/
def scanForwards (m : MountParam) (s : ScanDev) : ScanDev × Bool :=
  let s := s.mapBlk fun d => g.blocks.foldl (queryBlock1 g m) { d with seqNumber := lowestSequenceNumber }
  let r := scanBlocks1 g e m g.blocks s
  let s := linkFixup r.1
  ({ s.mapDev fun d => s.shadowFixers.foldl (fixShadow g e) d with shadowFixers := [] }, r.2)

end

end Yaffs
