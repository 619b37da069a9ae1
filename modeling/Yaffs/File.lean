import Yaffs.Gc

/-!
# File data

Reading and writing the chunks of a file, the short operations cache of `yaffs_cache.c`,
`yaffs_file_rd`, `yaffs_wr_file` and `yaffs_resize_file`.

The cache entries of a device are named by their index. Buffers are lists of bytes.
-/

namespace Yaffs

variable (g : Geometry) (e : Env)

/-! ## Chunks of bytes -/

/-- A chunk of zero bytes. -/
def zeroChunk : List UInt8 :=
  List.replicate g.dataBytesPerChunk 0

/-- Copy `src` into `buf` from `start` on. -/
def patch (buf : List UInt8) (start : ℕ) (src : List UInt8) : List UInt8 :=
  buf.take start ++ src ++ buf.drop (start + src.length)

/-- What the driver reads from the data area of a chunk. Only the pages of a file are
read as bytes. -/
def pageBytes (p : Option Page) : List UInt8 :=
  match p with
  | some ⟨_, .bytes bs⟩ => bs
  | _ => List.replicate g.dataBytesPerChunk 0xff

/-- `calc_shifts` : the number of trailing zero bits, over the 32 bits of its argument. -/
def calcShifts : ℕ → ℕ → ℕ
  | 0, _ => 0
  | n + 1, x => if x = 0 ∨ x % 2 = 1 then 0 else calcShifts n (x / 2) + 1

/-- `dev->chunk_shift`. -/
def Param.chunkShift (p : Param) : ℕ :=
  calcShifts 32 p.dataBytesPerChunk

/-- `dev->chunk_div`. -/
def Param.chunkDiv (p : Param) : ℕ :=
  p.dataBytesPerChunk >>> p.chunkShift

/-- `yaffs_addr_to_chunk`, with `chunk` as `u32`. -/
def addrToChunk (p : Param) (addr : ℕ) : ℕ × ℕ :=
  let chunk := (addr >>> p.chunkShift) % 2 ^ 32
  if p.chunkDiv = 1 then (chunk, addr % 2 ^ p.chunkShift)
  else
    let chunk := chunk / p.chunkDiv
    (chunk, u32 ((addr : ℤ) - (chunk * p.dataBytesPerChunk : ℕ)))

/-- `yaffs_max_file_size`. -/
def Param.maxFileSize (p : Param) : ℕ :=
  maxChunkId * p.dataBytesPerChunk

/-- `yaffs_rd_data_obj`. -/
def rdDataObj (o k : ℕ) (d : Dev) : List UInt8 :=
  match findChunkInFile g d o k with
  | some c => pageBytes g (d.nand.flash c)
  | none => zeroChunk g

/-- The tags of chunk `k` of the file `o`. -/
def dataTags (o k nBytes : ℕ) : ExtTags :=
  { objId := o, chunkId := k, nBytes := nBytes }

/-- The stored size of a file after its chunk `k` has been written with `nBytes` bytes. -/
def raiseStoredSize (p : Param) (k nBytes : ℕ) (f : FileVar) : FileVar :=
  let endpos := ((k - 1) * p.dataBytesPerChunk + nBytes) % 2 ^ 32
  if 0 < k ∧ f.storedSize < endpos then { f with storedSize := endpos } else f

/-- The chunk `k` of `o` gets the chunk `c`, and its old chunk is deleted. -/
def replaceChunk (o k : ℕ) (prev : Option ℕ) (c : ℕ) (d : Dev) : Dev :=
  let d := (putChunkInFile g e o k c d).1
  match prev with
  | some p => d.mapBlocks (chunkDel g e p true)
  | none => d

/-- `yaffs_wr_data_obj`, behind its gc : `none` when no chunk was written, and chunk `0`
when there was no memory for the tree. -/
def wrDataChunk (o k : ℕ) (data : List UInt8) (nBytes : ℕ) (useReserve : Bool) (d : Dev) :
    Dev × Option ℕ :=
  let prev := findChunkInFile g d o k
  let r := if prev.isNone then putChunkInFile g e o k 0 d else (d, true)
  if r.2 then
    let d := r.1.modFile o (raiseStoredSize g k nBytes)
    let r := d.onBlocks (writeNewChunk g e (.bytes data) (dataTags o k nBytes) useReserve)
    match r.2 with
    | some c => (replaceChunk g e o k prev c r.1, some c)
    | none => (r.1, none)
  else (r.1, some 0)

/-- `yaffs_wr_data_obj`. -/
def wrDataObj (o k : ℕ) (data : List UInt8) (nBytes : ℕ) (useReserve : Bool) (d : Dev) :
    Dev × Option ℕ :=
  wrDataChunk g e o k data nBytes useReserve (checkGc g e false d)

/-! ## The short operations cache -/

/-- Change the cache entry `i`. -/
def Dev.modCache (d : Dev) (i : ℕ) (f : Cache → Cache) : Dev :=
  { d with cache := d.cache.modify i f }

/-- `yaffs_flush_single_cache`. -/
def flushSingleCache (i : ℕ) (discard : Bool) (d : Dev) : Dev :=
  let d :=
    match d.cache[i]? with
    | some ⟨some o, k, _, true, nBytes, data⟩ =>
      (wrDataObj g e o k data nBytes true d).1.modCache i fun c => { c with dirty := false }
    | _ => d
  if discard then d.modCache i fun c => { c with object := none } else d

/-- The body of the loop of `yaffs_flush_file_cache`. -/
def flushFileCacheStep (o : ℕ) (discard : Bool) (d : Dev) (i : ℕ) : Dev :=
  if (d.cache[i]?).any fun c => c.object = some o then flushSingleCache g e i discard d else d

/-- `yaffs_flush_file_cache`. -/
def flushFileCache (o : ℕ) (discard : Bool) (d : Dev) : Dev :=
  (List.range g.nCaches).foldl (flushFileCacheStep g e o discard) d

/-- The first object in the cache with a dirty chunk. -/
def firstDirtyObj (d : Dev) : Option ℕ :=
  d.cache.findSome? fun c => if c.dirty then c.object else none

/-- The loop of `yaffs_flush_whole_cache`. Every round cleans one object's entries. -/
def flushWholeCacheLoop (discard : Bool) : ℕ → Dev → Dev
  | 0, d => d
  | n + 1, d =>
    match firstDirtyObj d with
    | some o => flushWholeCacheLoop discard n (flushFileCache g e o discard d)
    | none => d

/-- `yaffs_flush_whole_cache`. -/
def flushWholeCache (discard : Bool) (d : Dev) : Dev :=
  flushWholeCacheLoop g e discard g.nCaches d

/-- `yaffs_grab_chunk_worker`. -/
def grabChunkWorker (d : Dev) : Option ℕ :=
  d.cache.findIdx? fun c => c.object.isNone

/-- The least recently used of the entries `i, i + 1, ...`, with the best one so far. -/
def lruLoop : List Cache → ℕ → Option (ℕ × ℕ) → Option (ℕ × ℕ)
  | [], _, best => best
  | c :: cs, i, best =>
    lruLoop cs (i + 1)
      (if c.object.isSome && best.all fun b => decide (c.lastUse < b.2) then some (i, c.lastUse) else best)

/-- `yaffs_grab_chunk_cache`. -/
def grabChunkCache (d : Dev) : Dev × Option ℕ :=
  match grabChunkWorker d with
  | some i => (d, some i)
  | none =>
    match lruLoop d.cache 0 none with
    | some (i, _) => (flushSingleCache g e i true d, some i)
    | none => (d, none)

/-- `yaffs_find_chunk_cache`. -/
def findChunkCache (o k : ℕ) (d : Dev) : Option ℕ :=
  d.cache.findIdx? fun c => c.object = some o && c.chunkId = k

/-- `yaffs_use_cache`. -/
def useCache (i : ℕ) (isWrite : Bool) (d : Dev) : Dev :=
  let d :=
    if 100000000 < d.cacheLastUse then
      { d with
        cache := d.cache.take 1 ++ (d.cache.drop 1).map fun c => { c with lastUse := 0 }
        cacheLastUse := 0 }
    else d
  let d := { d with cacheLastUse := d.cacheLastUse + 1 }
  d.modCache i fun c => { c with lastUse := d.cacheLastUse, dirty := c.dirty || isWrite }

/-- `yaffs_invalidate_chunk_cache`. -/
def invalidateChunkCache (o k : ℕ) (d : Dev) : Dev :=
  match findChunkCache o k d with
  | some i => d.modCache i fun c => { c with object := none }
  | none => d

/-- Take a cache entry for chunk `k` of `o` and load it. -/
def loadCache (o k : ℕ) (d : Dev) : Dev × Option ℕ :=
  let r := grabChunkCache g e d
  match r.2 with
  | some i =>
    (r.1.modCache i fun c =>
      { c with object := some o, chunkId := k, dirty := false, data := rdDataObj g o k r.1 }, some i)
  | none => r

/-- The data of the cache entry `i`. -/
def cacheData (d : Dev) (i : ℕ) : List UInt8 :=
  (d.cache[i]?).elim [] Cache.data

/-! ## Reading -/

/-- Read chunk `k` of `o` through the cache, from `start` on. -/
def rdThroughCache (o k : ℕ) (hit : Option ℕ) (start nCopy : ℕ) (d : Dev) : Dev × List UInt8 :=
  let r :=
    match hit with
    | some i => (d, some i)
    | none =>
      let r := loadCache g e o k d
      (match r.2 with
        | some i => r.1.modCache i fun c => { c with nBytes := 0 }
        | none => r.1, r.2)
  match r.2 with
  | some i =>
    let d := useCache i false r.1
    (d, ((cacheData d i).drop start).take nCopy)
  | none => (r.1, [])

/-- One round of the loop of `yaffs_file_rd`. -/
def fileRdChunk (o k start nCopy : ℕ) (d : Dev) : Dev × List UInt8 :=
  let hit := findChunkCache o k d
  if hit.isSome ∨ nCopy ≠ g.dataBytesPerChunk ∨ g.inbandTags then
    if 0 < g.nCaches then rdThroughCache g e o k hit start nCopy d
    else (d, ((rdDataObj g o k d).drop start).take nCopy)
  else (d, rdDataObj g o k d)

/-- How many of `n` bytes from `start` on lie in a chunk. -/
def chunkCopy (start n : ℕ) : ℕ :=
  if start + n < g.dataBytesPerChunk then n else g.dataBytesPerChunk - start

/-- The loop of `yaffs_file_rd`; every round reads a byte at least. -/
def fileRdLoop (o : ℕ) : ℕ → ℕ → ℕ → Dev → Dev × List UInt8
  | 0, _, _, d => (d, [])
  | fuel + 1, offset, n, d =>
    if n = 0 then (d, [])
    else
      let a := addrToChunk g offset
      let nCopy := chunkCopy g a.2 n
      let r := fileRdChunk g e o (a.1 + 1) a.2 nCopy d
      let q := fileRdLoop o fuel (offset + nCopy) (n - nCopy) r.1
      (q.1, r.2 ++ q.2)

/-- `yaffs_file_rd`. -/
def fileRd (o offset n : ℕ) (d : Dev) : Dev × List UInt8 :=
  fileRdLoop g e o n offset n d

/-! ## Writing -/

/-- `n_writeback` : how much of chunk `k` there is to write when `n` bytes from `start` on
have been copied into it. -/
def nWriteback (f : FileVar) (k start n : ℕ) : ℕ :=
  if start + n < g.dataBytesPerChunk then
    let chunkStart := (k - 1) * g.dataBytesPerChunk
    let nBytesRead := if f.fileSize < chunkStart then 0 else (f.fileSize - chunkStart) % 2 ^ 32
    max (min nBytesRead g.dataBytesPerChunk) (start + n)
  else g.dataBytesPerChunk

/-- The cache entry to write chunk `k` of `o` into, if it is safe to cache it. -/
def cacheForWrite (o k : ℕ) (d : Dev) : Dev × Option ℕ :=
  match findChunkCache o k d with
  | none => if checkAllocAvailable g 1 d.toBlockDev then loadCache g e o k d else (d, none)
  | some i =>
    if (d.cache[i]?).any fun c => !c.dirty then
      (d, if checkAllocAvailable g 1 d.toBlockDev then some i else none)
    else (d, some i)

/-- Write into chunk `k` of `o` through the cache. -/
def wrThroughCache (o k start : ℕ) (src : List UInt8) (writeback : ℕ) (writeThrough : Bool)
    (d : Dev) : Dev × Bool :=
  let r := cacheForWrite g e o k d
  match r.2 with
  | none => (r.1, false)
  | some i =>
    let d := (useCache i true r.1).modCache i fun c =>
      { c with data := patch c.data start src, nBytes := writeback }
    if writeThrough then
      let r := wrDataObj g e o k (cacheData d i) writeback true d
      (r.1.modCache i fun c => { c with dirty := false }, r.2.isSome)
    else (d, true)

/-- One round of the loop of `yaffs_do_file_wr` : write `src` into chunk `k` of `o`. -/
def wrChunk (o k start : ℕ) (src : List UInt8) (writeback : ℕ) (writeThrough : Bool) (d : Dev) :
    Dev × Bool :=
  if src.length ≠ g.dataBytesPerChunk ∨ !g.cacheBypassAligned ∨ g.inbandTags then
    if 0 < g.nCaches then wrThroughCache g e o k start src writeback writeThrough d
    else
      let r := wrDataObj g e o k (patch (rdDataObj g o k d) start src) writeback false d
      (r.1, r.2.isSome)
  else
    let r := wrDataObj g e o k src g.dataBytesPerChunk false d
    (invalidateChunkCache o k r.1, r.2.isSome)

/-- The loop of `yaffs_do_file_wr`, with the number of bytes written. -/
def doFileWrLoop (o : ℕ) (writeThrough : Bool) : ℕ → List UInt8 → ℕ → Dev → Dev × ℕ
  | 0, _, _, d => (d, 0)
  | fuel + 1, buffer, offset, d =>
    if buffer.length = 0 then (d, 0)
    else
      let a := addrToChunk g offset
      let nCopy := chunkCopy g a.2 buffer.length
      let writeback := nWriteback g (d.obj o).file (a.1 + 1) a.2 buffer.length
      let r := wrChunk g e o (a.1 + 1) a.2 (buffer.take nCopy) writeback writeThrough d
      if r.2 then
        let q := doFileWrLoop o writeThrough fuel (buffer.drop nCopy) (offset + nCopy) r.1
        (q.1, nCopy + q.2)
      else (r.1, 0)

/-- `yaffs_do_file_wr`. -/
def doFileWr (o : ℕ) (buffer : List UInt8) (offset : ℕ) (writeThrough : Bool) (d : Dev) : Dev × ℕ :=
  let r := doFileWrLoop g e o writeThrough buffer.length buffer offset d
  let d := r.1.modObj o fun ob =>
    { ob with
      dirty := true
      file := { ob.file with fileSize := max (offset + r.2) ob.file.fileSize } }
  (d, r.2)

/-! ## Resizing -/

/-- The body of the loop of `yaffs_prune_chunks`. -/
def pruneChunk (o : ℕ) (d : Dev) (i : ℕ) : Dev :=
  let r := findDelFileChunk g o i d
  match r.2 with
  | none => r.1
  | some c =>
    if c < 1 then r.1
    else if c < g.startBlock * g.chunksPerBlock ∨ (g.endBlock + 1) * g.chunksPerBlock ≤ c then r.1
    else
      (r.1.modObj o fun ob => { ob with nDataChunks := ob.nDataChunks - 1 }).mapBlocks
        (chunkDel g e c true)

/-- The chunks `yaffs_prune_chunks` deletes, backwards. -/
def prunedChunks (f : FileVar) (newSize : ℕ) : List ℕ :=
  let lastDel := (if 0 < f.fileSize then (addrToChunk g (f.fileSize - 1)).1 else 0) + 1
  let startDel := (addrToChunk g (newSize + g.dataBytesPerChunk - 1)).1 + 1
  (List.range' startDel (lastDel + 1 - startDel)).reverse

/-- `yaffs_prune_chunks`. -/
def pruneChunks (o newSize : ℕ) (d : Dev) : Dev :=
  (prunedChunks g (d.obj o).file newSize).foldl (pruneChunk g e o) d

/-- `yaffs_prune_tree` on the file `o`. -/
def pruneTree (o : ℕ) (d : Dev) : Dev :=
  let r := (d.obj o).file.prune d.toBlockDev
  { d with toBlockDev := r.1 }.modFile o fun _ => r.2

/-- Rewrite the last chunk of `o` with zeros from `partialSize` on. -/
def rewriteLastChunk (o k partialSize : ℕ) (d : Dev) : Dev :=
  let data := (rdDataObj g o k d).take partialSize ++
    List.replicate (g.dataBytesPerChunk - partialSize) 0
  (wrDataObj g e o k data partialSize true d).1

/-- `yaffs_resize_file_down`. -/
def resizeFileDown (o newSize : ℕ) (d : Dev) : Dev :=
  let a := addrToChunk g newSize
  let d := pruneChunks g e o newSize d
  let d := if a.2 ≠ 0 then rewriteLastChunk g e o (a.1 + 1) a.2 d else d
  pruneTree o (d.modFile o fun f => { f with fileSize := newSize, storedSize := newSize })

/-- `YAFFS_SMALL_HOLE_THRESHOLD`. -/
def smallHoleThreshold : ℕ := 4

/-- The loop of `yaffs2_handle_hole` that fills a small hole with zeros. -/
def fillHoleLoop (o : ℕ) : ℕ → ℕ → ℕ → Dev → Dev × Bool
  | 0, _, _, d => (d, true)
  | fuel + 1, pos, increase, d =>
    if increase = 0 then (d, true)
    else
      let thisWrite := min increase g.dataBytesPerChunk
      let r := doFileWr g e o (List.replicate thisWrite 0) pos false d
      if r.2 = thisWrite then fillHoleLoop o fuel (pos + thisWrite) (increase - thisWrite) r.1
      else (r.1, false)

/-- The part of `yaffs2_handle_hole` that fills a small hole. -/
def fillSmallHole (o newSize : ℕ) (d : Dev) : Dev × Bool :=
  let oldSize := (d.obj o).file.fileSize
  let increase := newSize - oldSize
  if increase < smallHoleThreshold * g.dataBytesPerChunk ∧
      checkAllocAvailable g (smallHoleThreshold + 1) d.toBlockDev then
    let r := fillHoleLoop g e o increase oldSize increase d
    (if r.2 then r.1 else resizeFileDown g e o oldSize r.1, r.2)
  else (d, false)

/-- The object lies in one of the directories of unlinked and of deleted objects. -/
def inUnlinkedDir (ob : Obj) : Bool :=
  ob.parent = some objectIdUnlinked || ob.parent = some objectIdDeleted

/-- `yaffs2_handle_hole`. -/
def handleHole (o newSize : ℕ) (d : Dev) : Dev :=
  if (d.obj o).variantType ≠ .file ∨ g.isYaffs2 = false ∨ newSize ≤ (d.obj o).file.fileSize then d
  else
    let r := fillSmallHole g e o newSize d
    if !r.2 && (r.1.obj o).parent.isSome && !inUnlinkedDir (r.1.obj o) then
      (updateOh g e o none false true 0 r.1).1
    else r.1

/-- `yaffs_wr_file`. -/
def wrFile (o : ℕ) (buffer : List UInt8) (offset : ℕ) (writeThrough : Bool) (d : Dev) : Dev × ℕ :=
  doFileWr g e o buffer offset writeThrough (handleHole g e o offset d)

/-- The header `yaffs_resize_file` writes at its end. -/
def resizeHdr (o : ℕ) (d : Dev) : Dev :=
  if (d.obj o).parent.isSome && !(d.obj o).isShadowed && !inUnlinkedDir (d.obj o) then
    (updateOh g e o none false false 0 d).1
  else d

/-- `yaffs_resize_file`. -/
def resizeFile (o newSize : ℕ) (d : Dev) : Dev × Bool :=
  let oldSize := (d.obj o).file.fileSize
  let d := checkGc g e false (invalidateFileCache o (flushFileCache g e o true d))
  if (d.obj o).variantType ≠ .file then (d, false)
  else if newSize = oldSize then (d, true)
  else if oldSize < newSize then
    let d := (handleHole g e o newSize d).modFile o fun f => { f with fileSize := newSize }
    (resizeHdr g e o d, true)
  else (resizeHdr g e o (resizeFileDown g e o newSize d), true)

/-- `yaffs_flush_file`. -/
def flushFile (o : ℕ) (dataSync discardCache : Bool) (d : Dev) : Dev × Bool :=
  if (d.obj o).dirty = false then (d, true)
  else
    let d := flushFileCache g e o discardCache d
    if dataSync then (d, true)
    else
      let r := updateOh g e o none false false 0 d
      (r.1, r.2.isSome)

end Yaffs
