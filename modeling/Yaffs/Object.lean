import Yaffs.Tnode

/-!
# Objects

The objects of a device (`struct yaffs_obj`), the device that holds them, the hash
table that finds them by number, directories and names.

An object is named by its number : the hash table has at most one object of a number,
and an object whose freeing is deferred keeps its number. `obj_bucket` is one list
`ids`, whose part with a given hash is the source's bucket. Times, modes, owners,
serial numbers and extended attributes are left out, and so is `lazy_loaded`, which only
a restored or scanned device sets.
-/

namespace Yaffs

/-- `struct yaffs_obj`. The members of its `variant` union stand side by side. -/
structure Obj where
  variantType : ObjType := .unknown
  parent : Option ℕ := none
  shortName : Name := []
  sum : ℕ := 0
  hdrChunk : ℕ := 0
  nDataChunks : ℤ := 0
  deleted : Bool := false
  softDel : Bool := false
  unlinked : Bool := false
  fake : Bool := false
  renameAllowed : Bool := false
  unlinkAllowed : Bool := false
  dirty : Bool := false
  isShadowed : Bool := false
  deferredFree : Bool := false
  /-- The inode `my_inode` points to. -/
  myInode : Option ℕ := none
  file : FileVar := {}
  /-- `dir_variant.children`, the latest first. -/
  children : List ℕ := []
  /-- The hard links in the ring behind `hard_links`. -/
  hardLinks : List ℕ := []
  equivId : ℕ := 0
  equivObj : Option ℕ := none
  aliasName : Option Name := none

/-- `struct yaffs_cache`. `locked` is only set while the core copies data. -/
structure Cache where
  object : Option ℕ := none
  chunkId : ℕ := 0
  lastUse : ℕ := 0
  dirty : Bool := false
  nBytes : ℕ := 0
  data : List UInt8 := []
  deriving DecidableEq, Repr

/-- `struct yaffs_dev`. -/
structure Dev extends BlockDev where
  obj : ℕ → Obj
  /-- The numbers in the hash table, the latest first. -/
  ids : List ℕ
  bucketFinder : ℕ
  cache : List Cache
  cacheLastUse : ℕ
  gcCleanupList : List ℕ
  nUnlinkedFiles : ℤ
  nDeletedFiles : ℤ
  dirtyDirs : List ℕ

/-- `YAFFS_OBJECTID_ROOT` and the other fake directories. -/
def objectIdRoot : ℕ := 1
def objectIdLostNFound : ℕ := 2
def objectIdUnlinked : ℕ := 3
def objectIdDeleted : ℕ := 4

namespace Dev

variable (d : Dev)

/-- Run a step of the block management. -/
def onBlocks {α : Type} (f : BlockDev → BlockDev × α) : Dev × α :=
  ({ d with toBlockDev := (f d.toBlockDev).1 }, (f d.toBlockDev).2)

/-- Run a step of the block management that returns nothing. -/
def mapBlocks (f : BlockDev → BlockDev) : Dev :=
  { d with toBlockDev := f d.toBlockDev }

/-- Change the object `o`. -/
def modObj (o : ℕ) (f : Obj → Obj) : Dev :=
  { d with obj := Function.update d.obj o (f (d.obj o)) }

/-- Change the file variant of `o`. -/
def modFile (o : ℕ) (f : FileVar → FileVar) : Dev :=
  d.modObj o fun ob => { ob with file := f ob.file }

end Dev

variable (g : Geometry) (e : Env)

/-! ## The hash table -/

/-- `YAFFS_NOBJECT_BUCKETS`. -/
def nObjectBuckets : ℕ := 256

/-- `dev->obj_bucket[b].count`. -/
def bucketCount (d : Dev) (b : ℕ) : ℕ :=
  d.ids.countP fun n => n % nObjectBuckets = b

/-- The loop of `yaffs_find_nice_bucket`, with `lowest` and `l`. -/
def findNiceBucketLoop : ℕ → ℕ → ℕ → Dev → Dev × ℕ
  | 0, _, l, d => (d, l)
  | n + 1, lowest, l, d =>
    if 4 < lowest then
      let finder := (d.bucketFinder + 1) % nObjectBuckets
      let d := { d with bucketFinder := finder }
      if bucketCount d finder < lowest then findNiceBucketLoop n (bucketCount d finder) finder d
      else findNiceBucketLoop n lowest l d
    else (d, l)

/-- `yaffs_find_nice_bucket`. -/
def findNiceBucket (d : Dev) : Dev × ℕ :=
  findNiceBucketLoop 10 999999 999 d

/-- The loop of `yaffs_new_obj_id`. Every round that goes on has met a number in use. -/
def newObjIdLoop (ids : List ℕ) : ℕ → ℕ → ℕ
  | 0, n => n + nObjectBuckets
  | fuel + 1, n =>
    if n + nObjectBuckets ∈ ids then newObjIdLoop ids fuel (n + nObjectBuckets)
    else n + nObjectBuckets

/-- `yaffs_new_obj_id`. -/
def newObjId (d : Dev) : Dev × ℕ :=
  let r := findNiceBucket d
  (r.1, newObjIdLoop r.1.ids r.1.ids.length r.2)

/-- `yaffs_hash_obj`. -/
def hashObj (o : ℕ) (d : Dev) : Dev :=
  { d with ids := o :: d.ids }

/-- `yaffs_unhash_obj`. -/
def unhashObj (o : ℕ) (d : Dev) : Dev :=
  { d with ids := d.ids.erase o }

/-- `yaffs_find_by_number`. -/
def findByNumber (d : Dev) (n : ℕ) : Option ℕ :=
  if n ∈ d.ids ∧ (d.obj n).deferredFree = false then some n else none

/-! ## Directories -/

/-- `yaffs_remove_obj_from_dir`. -/
def removeObjFromDir (o : ℕ) (d : Dev) : Dev :=
  let d := match (d.obj o).parent with
    | some p => d.modObj p fun ob => { ob with children := ob.children.erase o }
    | none => d
  d.modObj o fun ob => { ob with parent := none }

/-- `yaffs_add_obj_to_dir`. -/
def addObjToDir (dir o : ℕ) (d : Dev) : Dev :=
  let d := removeObjFromDir o d
  let d := d.modObj dir fun ob => { ob with children := o :: ob.children }
  let d := d.modObj o fun ob => { ob with parent := some dir }
  if dir = objectIdUnlinked ∨ dir = objectIdDeleted then
    { d.modObj o fun ob => { ob with unlinked := true, renameAllowed := false } with
      nUnlinkedFiles := d.nUnlinkedFiles + 1 }
  else d

/-- `yaffs_is_non_empty_dir`. -/
def isNonEmptyDir (d : Dev) (o : ℕ) : Bool :=
  (d.obj o).variantType = .directory && !(d.obj o).children.isEmpty

/-! ## Names -/

/-- `YAFFS_MAX_NAME_LENGTH`, `YAFFS_SHORT_NAME_LENGTH` and `YAFFS_MAX_ALIAS_LENGTH`. -/
def maxNameLength : ℕ := 255
def shortNameLength : ℕ := 15
def maxAliasLength : ℕ := 159

/-- `YAFFS_LOSTNFOUND_NAME`. -/
def lostNFoundName : Name := "lost+found".toList

/-- `YAFFS_LOSTNFOUND_PREFIX`. -/
def lostNFoundPrefix : Name := "obj".toList

/-- The loop of `yaffs_calc_name_sum`, from the weight `i` on. -/
def calcNameSumLoop : Name → ℕ → ℕ → ℕ
  | [], _, sum => sum
  | c :: cs, i, sum =>
    if i < maxNameLength / 2 then
      calcNameSumLoop cs (i + 1) ((sum + (c.toNat &&& 0x1f) * i) % 2 ^ 16)
    else sum

/-- `yaffs_calc_name_sum`. -/
def calcNameSum (name : Name) : ℕ :=
  calcNameSumLoop name 1 0

/-- The decimal digits `yaffs_fix_null_name` puts in front of `num`. -/
def numString : ℕ → ℕ → Name → Name
  | 0, _, num => num
  | n + 1, v, num =>
    if 0 < v then numString n (v / 10) (Char.ofNat ('0'.toNat + v % 10) :: num) else num

/-- `yaffs_fix_null_name`. -/
def fixNullName (o : ℕ) (name : Name) (bufferSize : ℕ) : Name :=
  if name.isEmpty then (lostNFoundPrefix ++ numString 19 o []).take (bufferSize - 1) else name

/-- `yaffs_set_obj_name`. -/
def setObjName (o : ℕ) (name : Name) (ob : Obj) : Obj :=
  if name.isEmpty then
    let short := fixNullName o [] shortNameLength
    { ob with shortName := short, sum := calcNameSum short }
  else
    { ob with
      shortName := if name.length ≤ shortNameLength then name else []
      sum := calcNameSum name }

/-- The name in the object header a chunk holds. -/
def hdrName (d : Dev) (c : ℕ) : Name :=
  match d.nand.flash c with
  | some ⟨_, .hdr oh⟩ => oh.name
  | _ => []

/-- `yaffs_get_obj_name`, into a buffer of `YAFFS_MAX_NAME_LENGTH + 1`. -/
def getObjName (d : Dev) (o : ℕ) : Name :=
  let ob := d.obj o
  let name :=
    if o = objectIdLostNFound then lostNFoundName
    else if !ob.shortName.isEmpty then ob.shortName
    else if 0 < ob.hdrChunk then (hdrName d ob.hdrChunk).take maxNameLength
    else []
  fixNullName o name (maxNameLength + 1)

/-- The test of `yaffs_find_by_name` on one child. -/
def hasName (d : Dev) (name : Name) (o : ℕ) : Bool :=
  if o = objectIdLostNFound then name = lostNFoundName
  else ((d.obj o).sum = calcNameSum name || (d.obj o).hdrChunk = 0) &&
    name.take maxNameLength = (getObjName d o).take maxNameLength

/-- `yaffs_find_by_name`. -/
def findByName (d : Dev) (dir : ℕ) (name : Name) : Option ℕ :=
  (d.obj dir).children.find? (hasName d name)

/-- `yaffs_get_equivalent_obj`. -/
def getEquivalentObj (d : Dev) (o : ℕ) : Option ℕ :=
  if (d.obj o).variantType = .hardlink then (d.obj o).equivObj else some o

/-! ## Chunks of a file -/

/-- The group base of what a tnode holds, as `yaffs_get_group_base` returns it. -/
def groupBase (v : ℕ) : ℕ :=
  v <<< g.chunkGrpBits

/-- What `yaffs_load_tnode_0` stores for a chunk. -/
def groupOf (c : ℕ) : ℕ :=
  (c >>> g.chunkGrpBits) % 2 ^ g.tnodeWidth

/-- `yaffs_tags_match`. -/
def tagsMatch (t : ExtTags) (o k : ℕ) : Bool :=
  t.chunkId = k && t.objId = o && !t.isDeleted

/-- The loop of `yaffs_find_chunk_in_group`. -/
def findChunkInGroupLoop (d : BlockDev) (o k : ℕ) : ℕ → ℕ → Option ℕ
  | 0, _ => none
  | n + 1, c =>
    if c = 0 then none
    else if d.chunkBits c then
      if g.chunkGrpSize = 1 then some c
      else if (d.nand.flash c).any fun p => tagsMatch p.tags o k then some c
      else findChunkInGroupLoop d o k n (c + 1)
    else findChunkInGroupLoop d o k n (c + 1)

/-- `yaffs_find_chunk_in_group`. -/
def findChunkInGroup (d : BlockDev) (c o k : ℕ) : Option ℕ :=
  findChunkInGroupLoop g d o k g.chunkGrpSize c

/-- `yaffs_find_chunk_in_file`. -/
def findChunkInFile (d : Dev) (o k : ℕ) : Option ℕ :=
  ((d.obj o).file.find k).bind fun v => findChunkInGroup g d.toBlockDev (groupBase g v) o k

/-- `yaffs_find_del_file_chunk`. -/
def findDelFileChunk (o k : ℕ) (d : Dev) : Dev × Option ℕ :=
  match findChunkInFile g d o k with
  | some c => (d.modFile o fun f => f.load k 0, some c)
  | none => (d, none)

/-- `yaffs_put_chunk_in_file`, outside scanning. -/
def putChunkInFile (o k c : ℕ) (d : Dev) : Dev × Bool :=
  if (d.obj o).variantType ≠ .file then (d.mapBlocks (chunkDel g e c true), true)
  else
    let r := (d.obj o).file.addFind e k d.toBlockDev
    let d := { d with toBlockDev := r.1 }.modFile o fun _ => r.2.1
    if r.2.2 then
      if c = 0 then (d, true)
      else
        let d := if groupBase g ((d.obj o).file.entry k) = 0 then
            d.modObj o fun ob => { ob with nDataChunks := ob.nDataChunks + 1 }
          else d
        (d.modFile o fun f => f.load k (groupOf g c), true)
    else (d, false)

end Yaffs
