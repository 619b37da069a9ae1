import Yaffs.LittleEndian
import Yaffs.Mount
import Yaffs.Replay

/-!
# Reading a checkpoint

`yaffs2_rd_checkpt_data`, which gives a device what `yaffs2_wr_checkpt_data` has stored of another :
its counters, its block table, its chunk bits and its objects with their trees.

A structure of which less is read than it has ends the reading, and what it has got of the bytes is left
out : the device is then scanned. Structures are laid out for a little-endian machine.
-/

namespace Yaffs

open LittleEndian

variable (g : Geometry) (e : Env)

/-! ## Structures -/

/-- `yaffs2_checkpt_rd` for `n` bytes; `none` when it returns less. -/
def rdBytes (n : ℕ) (s : ScanDev) : ScanDev × Option (List UInt8) :=
  let r := s.onDev fun d => d.onBlocks (checkptRd g n)
  (r.1, if r.2.length = n then some r.2 else none)

/-- The `u32` with the index `i` in what was read. -/
def rdWord (bs : List UInt8) (i : ℕ) : ℕ :=
  number ((bs.drop (4 * i)).take 4)

/-- The `s32` with the index `i` in what was read. -/
def rdInt (bs : List UInt8) (i : ℕ) : ℤ :=
  if rdWord bs i < 2 ^ 31 then rdWord bs i else rdWord bs i - 2 ^ 32

/-- `yaffs2_rd_checkpt_validity_marker`. -/
def rdCheckptValidityMarker (head : ℕ) (s : ScanDev) : ScanDev × Bool :=
  match rdBytes g checkptValiditySize s with
  | (s, none) => (s, false)
  | (s, some cp) =>
    (s, rdWord cp 0 = checkptValiditySize && rdWord cp 1 = yaffsMagic && rdWord cp 2 = checkpointVersion &&
      rdWord cp 3 = head)

/-! ## The device -/

/-- A block number as it is stored, `-1` for none. -/
def blockOfStored (w : ℕ) : Option ℕ :=
  if w = 0xffffffff then none else some w

/-- `yaffs_checkpt_dev_to_dev`. -/
def checkptDevToDev (cp : List UInt8) (d : Dev) : Dev :=
  { d with
    nErasedBlocks := rdInt cp 1
    alloc :=
      { d.alloc with
        block := blockOfStored (rdWord cp 2)
        page := rdWord cp 3 }
    nFreeChunks := rdInt cp 4
    nDeletedFiles := rdInt cp 5
    nUnlinkedFiles := rdInt cp 6
    seqNumber := rdWord cp 8 }

/-- `block_state` from its number. -/
def BlockState.ofStored : ℕ → BlockState
  | 1 => .scanning
  | 2 => .needsScan
  | 3 => .empty
  | 4 => .allocating
  | 5 => .full
  | 6 => .dirty
  | 7 => .checkpoint
  | 8 => .collecting
  | 9 => .dead
  | _ => .unknown

/-- `struct yaffs_block_info` from the word of its bit fields and the one behind it. -/
def BlockInfo.ofWords (w seq : ℕ) : BlockInfo where
  softDelPages := field 0 10 w
  pagesInUse := field 10 10 w
  blockState := .ofStored (field 20 4 w)
  needsRetiring := decide (field 24 1 w = 1)
  skipErasedCheck := decide (field 25 1 w = 1)
  gcPrioritise := decide (field 26 1 w = 1)
  chunkErrorStrikes := field 27 3 w
  hasSummary := decide (field 30 1 w = 1)
  hasShrinkHdr := decide (field 31 1 w = 1)
  seqNumber := seq

/-- `dev->block_info` is read. -/
def loadBlockInfo (bs : List UInt8) (d : BlockDev) : BlockDev :=
  { d with
    blockInfo := fun b =>
      if g.startBlock ≤ b ∧ b ≤ g.endBlock then
        .ofWords (rdWord bs (2 * (b - g.startBlock))) (rdWord bs (2 * (b - g.startBlock) + 1))
      else d.blockInfo b }

/-- `yaffs_check_chunk_bit`, in the bitmap `bits`. -/
def chunkBitAt (bits : List UInt8) (b page : ℕ) : Bool :=
  field (page % 8) 1 (bits.getD ((b - g.startBlock) * g.chunkBitStride + page / 8) 0).toNat = 1

/-- `dev->chunk_bits` is read. -/
def loadChunkBits (bits : List UInt8) (d : BlockDev) : BlockDev :=
  { d with
    chunkBits := fun c =>
      let b := c / g.chunksPerBlock
      if g.startBlock ≤ b ∧ b ≤ g.endBlock then chunkBitAt g bits b (c % g.chunksPerBlock) else d.chunkBits c }

/-- `yaffs2_rd_checkpt_dev`. -/
def rdCheckptDev (s : ScanDev) : ScanDev × Bool :=
  match rdBytes g checkptDevSize s with
  | (s, none) => (s, false)
  | (s, some cp) =>
    if rdWord cp 0 ≠ checkptDevSize then (s, false)
    else
      match rdBytes g ((g.endBlock - g.startBlock + 1) * blockInfoSize) (s.mapDev (checkptDevToDev cp)) with
      | (s, none) => (s, false)
      | (s, some table) =>
        match rdBytes g ((g.endBlock - g.startBlock + 1) * g.chunkBitStride) (s.mapBlk (loadBlockInfo g table)) with
        | (s, none) => (s, false)
        | (s, some bits) => (s.mapBlk (loadChunkBits g bits), true)

/-! ## The tree of a file -/

namespace Tnode

/-- The way down of `yaffs_add_find_tnode_0`, passed the tnode `v` : it takes the place of the level-0
tnode of `k`, which is released. -/
def addLeaf (v : Tnode 0) : (n : ℕ) → Tnode n → ℕ → BlockDev → BlockDev × Tnode n × Bool
  | 0, _, _, d => (freeTnode d, v, true)
  | 1, t, k, d =>
    let d := if (t.internal (tnodeSlot 0 k)).isSome then freeTnode d else d
    (d, t.setInternal (tnodeSlot 0 k) (some v), true)
  | n + 2, t, k, d =>
    match t.internal (tnodeSlot (n + 1) k) with
    | some t' =>
      let r := addLeaf v (n + 1) t' k d
      (r.1, t.setInternal (tnodeSlot (n + 1) k) (some r.2.1), r.2.2)
    | none =>
      let a := getTnode e d
      if a.2 then
        let r := addLeaf v (n + 1) (empty (n + 1)) k a.1
        (r.1, t.setInternal (tnodeSlot (n + 1) k) (some r.2.1), r.2.2)
      else (a.1, t, false)

end Tnode

/-- `yaffs_add_find_tnode_0`, when it is passed the tnode `v`. -/
def FileVar.addLeaf (f : FileVar) (k : ℕ) (v : Tnode 0) (d : BlockDev) : BlockDev × FileVar × Bool :=
  if tnodesMaxLevel < f.topLevel then (d, f, false)
  else if maxChunkId < k then (d, f, false)
  else
    let r := FileVar.grow e (requiredDepth k - f.topLevel) f d
    if r.2.2 then
      match r.2.1.top with
      | some t =>
        let q := Tnode.addLeaf e v r.2.1.topLevel t k r.1
        (q.1, { r.2.1 with top := some q.2.1 }, q.2.2)
      | none => (r.1, r.2.1, false)
    else r

/-- The groups of a level-0 tnode from its bytes. -/
def tnodeOfBytes (bs : List UInt8) : Tnode 0 :=
  fun i => field (g.tnodeWidth * i) g.tnodeWidth (number bs)

/-- A tnode that was read goes to the chunks from `k` on in the file `o`. -/
def loadCheckptLeaf (o k : ℕ) (v : Tnode 0) (d : Dev) : Dev × Bool :=
  let r := (d.obj o).file.addLeaf e k v d.toBlockDev
  ({ d with toBlockDev := r.1 }.modFile o fun _ => r.2.1, r.2.2)

/-- The bytes a reader gets from a checkpoint at most. -/
def checkptReadLimit : ℕ :=
  g.checkptMaxBlocks * g.chunksPerBlock * g.payload

/-- The loop of `yaffs2_rd_checkpt_tnodes`, which has read `base_chunk`. A round takes bytes from the
checkpoint, so there are no more rounds than these. -/
def rdCheckptTnodesLoop (o : ℕ) : ℕ → ℕ → ScanDev → ScanDev × Bool
  | 0, _, s => (s, false)
  | n + 1, baseChunk, s =>
    if baseChunk = 2 ^ 32 - 1 then (s, true)
    else
      let a := s.onDev fun d => d.onBlocks (getTnode e)
      if a.2 then
        match rdBytes g g.tnodeSize a.1 with
        | (s, none) => (s, false)
        | (s, some bs) =>
          let q := s.onDev (loadCheckptLeaf e o baseChunk (tnodeOfBytes g bs))
          if q.2 then
            match rdBytes g 4 q.1 with
            | (s, none) => (s, false)
            | (s, some w) => rdCheckptTnodesLoop o n (rdWord w 0) s
          else q
      else a

/-- `yaffs2_rd_checkpt_tnodes`. -/
def rdCheckptTnodes (o : ℕ) (s : ScanDev) : ScanDev × Bool :=
  match rdBytes g 4 s with
  | (s, none) => (s, false)
  | (s, some w) => rdCheckptTnodesLoop g e o (checkptReadLimit g + 1) (rdWord w 0) s

/-! ## Objects -/

/-- `yaffs2_checkpt_obj_bit_get`, in a `struct yaffs_checkpt_obj`. -/
def checkptObjBitGet (cp : List UInt8) (bitOffset bitWidth : ℕ) : ℕ :=
  field bitOffset bitWidth (rdWord cp 4)

/-- The object's own fields in `yaffs2_checkpt_obj_to_obj`. -/
def checkptObjFields (cp : List UInt8) (ob : Obj) : Obj :=
  let size := number ((cp.drop 24).take 8)
  { ob with
    hdrChunk := rdWord cp 3
    variantType := .ofStored (checkptObjBitGet cp 0 3)
    deleted := decide (checkptObjBitGet cp 3 1 = 1)
    softDel := decide (checkptObjBitGet cp 4 1 = 1)
    unlinked := decide (checkptObjBitGet cp 5 1 = 1)
    fake := decide (checkptObjBitGet cp 6 1 = 1)
    renameAllowed := decide (checkptObjBitGet cp 7 1 = 1)
    unlinkAllowed := decide (checkptObjBitGet cp 8 1 = 1)
    nDataChunks := rdInt cp 5
    file := if ob.variantType = .file then { ob.file with fileSize := size, storedSize := size } else ob.file
    equivId := if ob.variantType = .hardlink then size % 2 ^ 32 else ob.equivId }

/-- `yaffs2_checkpt_obj_to_obj`. An object whose parent there is no memory for stays where it is. -/
def checkptObjToObj (o : ℕ) (cp : List UInt8) (s : ScanDev) : ScanDev × Bool :=
  if (s.obj o).variantType ≠ .ofStored (checkptObjBitGet cp 0 3) then (s, false)
  else
    let set := fun s : ScanDev => (s.mapDev fun d => d.modObj o (checkptObjFields cp)).modScan o fun q =>
      { q with serial := checkptObjBitGet cp 9 8, lazyLoaded := q.lazyLoaded || decide (0 < rdWord cp 3) }
    let r := if rdWord cp 2 = 0 then (s, none) else findOrCreateByNumber g e (rdWord cp 2) .directory s
    match r.2 with
    | none => (set r.1, true)
    | some p =>
      if (r.1.obj p).variantType ≠ .directory then (r.1, false)
      else (set (r.1.mapDev (addObjToDir p o)), true)

/-- What `yaffs2_rd_checkpt_objs` does with one record. -/
def rdCheckptObj (cp : List UInt8) (s : ScanDev) : ScanDev × Bool :=
  match findOrCreateByNumber g e (rdWord cp 1) (.ofStored (checkptObjBitGet cp 0 3)) s with
  | (s, none) => (s, false)
  | (s, some o) =>
    let r := checkptObjToObj g e o cp s
    if r.2 then
      match (r.1.obj o).variantType with
      | .file => rdCheckptTnodes g e o r.1
      | .hardlink => ({ r.1 with hardList := o :: r.1.hardList }, true)
      | _ => (r.1, true)
    else r

/-- The loop of `yaffs2_rd_checkpt_objs`. -/
def rdCheckptObjsLoop : ℕ → ScanDev → ScanDev × Bool
  | 0, s => (s, false)
  | n + 1, s =>
    match rdBytes g checkptObjSize s with
    | (s, none) => (s, false)
    | (s, some cp) =>
      if rdWord cp 0 ≠ checkptObjSize then (s, false)
      else if rdWord cp 1 = 2 ^ 32 - 1 then (s, true)
      else
        let r := rdCheckptObj g e cp s
        if r.2 then rdCheckptObjsLoop n r.1 else r

/-- `yaffs2_rd_checkpt_objs`. -/
def rdCheckptObjs (s : ScanDev) : ScanDev × Bool :=
  let r := rdCheckptObjsLoop g e (checkptReadLimit g + 1) s
  if r.2 then (linkFixup r.1, true) else r

/-! ## The whole -/

/-- `yaffs2_rd_checkpt_sum`. -/
def rdCheckptSum (s : ScanDev) : ScanDev × Bool :=
  match rdBytes g 4 s with
  | (s', none) => (s', false)
  | (s', some w) => (s', checkptSum s.toBlockDev = rdWord w 0)

/-- Go on as long as all is well. -/
def thenRead (f : ScanDev → ScanDev × Bool) (r : ScanDev × Bool) : ScanDev × Bool :=
  if r.2 then f r.1 else r

/-- `yaffs2_rd_checkpt_data`. -/
def rdCheckptData (s : ScanDev) : ScanDev × Bool :=
  let ok := g.isYaffs2 && !g.skipCheckptRd
  let r := (if ok then s.mapBlk (checkptOpenRead g) else s, ok)
  let r := thenRead (rdCheckptValidityMarker g 1) r
  let r := thenRead (rdCheckptDev g) r
  let r := thenRead (rdCheckptObjs g e) r
  let r := thenRead (rdCheckptValidityMarker g 0) r
  let r := thenRead (rdCheckptSum g) r
  (r.1.mapBlk fun b => { checkptClose g e b with isCheckpointed := r.2 }, r.2)

/-- `yaffs2_checkpt_restore` on a device about to be mounted : the device the checkpoint yields. -/
def checkptRestore (m : MountParam) (old : BlockDev) : Option Dev :=
  let r := rdCheckptData g e (mountDev g m old)
  if r.2 then some r.1.toDev else none

end Yaffs
