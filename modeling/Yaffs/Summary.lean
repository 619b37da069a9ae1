import Yaffs.Checkpt

/-!
# Reading tags and summaries

What the core reads back of a page : the tags as they are packed on flash, and
`yaffs_summary_read` with `yaffs_summary_fetch`, by which a scan gets the tags of a block
without reading its pages. The driver's reads are answered by a `Reader`; `flashReader` is
the one of a driver without failures.
-/

namespace Yaffs

/-! ## Packed tags -/

/-- `extra_obj_type` from the number stored on flash. -/
def ObjType.ofStored : ℕ → ObjType
  | 0 => .unknown
  | 1 => .file
  | 2 => .symlink
  | 3 => .directory
  | 4 => .hardlink
  | 5 => .special
  | n => .other n

/-- The words as the `u32` they are stored as. -/
def SummaryTags.stored (st : SummaryTags) : SummaryTags :=
  ⟨st.objId % 2 ^ 32, st.chunkId % 2 ^ 32, st.nBytes % 2 ^ 32⟩

/-- `yaffs_unpack_tags2_tags_only`, with the sequence number `seq`. -/
def unpackTags2TagsOnly (seq : ℕ) (ptt : SummaryTags) : ExtTags :=
  if seq = 0xffffffff then {}
  else if ptt.chunkId &&& 0x80000000 ≠ 0 then
    let type := ObjType.ofStored (ptt.objId >>> 28)
    { chunkUsed := true
      objId := ptt.objId &&& 0x0fffffff
      seqNumber := seq
      extraAvailable := true
      extraParentId := ptt.chunkId &&& 0x0fffffff
      extraIsShrink := decide (ptt.chunkId &&& 0x40000000 ≠ 0)
      extraShadows := decide (ptt.chunkId &&& 0x20000000 ≠ 0)
      extraObjType := type
      extraEquivId := if type = .hardlink then ptt.nBytes else 0
      extraFileSize := if type = .hardlink then 0 else ptt.nBytes }
  else
    { chunkUsed := true, objId := ptt.objId, chunkId := ptt.chunkId, nBytes := ptt.nBytes
      seqNumber := seq }

/-- What is read of the tags of a page; an erased page reads as unused. -/
def pageTags (p : Option Page) : ExtTags :=
  match p with
  | some p => unpackTags2TagsOnly p.tags.seqNumber (packTags2TagsOnly p.tags).stored
  | none => {}

/-! ## Reading pages -/

/-- `enum yaffs_ecc_result`. -/
inductive EccResult
  | unknown
  | noError
  | fixed
  | unfixed
  deriving DecidableEq, Repr

/-- What a read of a page with its tags yields. -/
structure PageRead where
  ok : Bool
  ecc : EccResult
  tags : ExtTags
  /-- `serial_number`, of a yaffs1 page. -/
  serialNumber : ℕ := 0
  data : PageData
  /-- `inband_is_shrink` of a header is not zero. -/
  inbandIsShrink : Bool := false

/-- The driver's answers to reads : to the call `n`, for a chunk. -/
abbrev Reader :=
  ℕ → ℕ → PageRead

/-- The reads of a driver without failures, from `flash`. `yaffs_update_oh` leaves `inband_is_shrink`
as it wiped it, with all bits set. -/
def flashReader (flash : ℕ → Option Page) : Reader := fun _ c =>
  { ok := true
    ecc := .noError
    tags := pageTags (flash c)
    data := (flash c).elim .blank Page.data
    inbandIsShrink :=
      match flash c with
      | some ⟨_, .hdr _⟩ => true
      | _ => false }

/-- `yaffs_rd_chunk_tags_nand`. -/
def rdChunkTagsNand (g : Geometry) (rd : Reader) (c : ℕ) (d : BlockDev) : BlockDev × PageRead :=
  let r := rd d.nand.calls c
  let d := { d with nand := { d.nand with calls := d.nand.calls + 1 } }
  (if r.ecc = .fixed ∨ r.ecc = .unfixed then handleChunkError (c / g.chunksPerBlock) d else d, r)

/-! ## Bytes of a summary -/

/-- A `u32` from its first four bytes. -/
def u32OfBytes (bs : List UInt8) : ℕ :=
  (bs.getD 0 0).toNat + 2 ^ 8 * (bs.getD 1 0).toNat + 2 ^ 16 * (bs.getD 2 0).toNat +
    2 ^ 24 * (bs.getD 3 0).toNat

/-- The bytes of a `struct yaffs_summary_tags`. -/
def SummaryTags.bytes (st : SummaryTags) : List UInt8 :=
  u32Bytes st.objId ++ u32Bytes st.chunkId ++ u32Bytes st.nBytes

/-- A `struct yaffs_summary_tags` from its bytes. -/
def SummaryTags.ofBytes (bs : List UInt8) : SummaryTags :=
  ⟨u32OfBytes bs, u32OfBytes (bs.drop 4), u32OfBytes (bs.drop 8)⟩

/-- The bytes of an array of summary tags. -/
def summaryBytes (st : List SummaryTags) : List UInt8 :=
  st.flatMap SummaryTags.bytes

/-- The header at the front of a page of a summary and the bytes behind it. The pages of
other records never carry the tags of a summary. -/
def PageData.summaryPart : PageData → SummaryHeader × List UInt8
  | .summary h tags offset len => (h, ((summaryBytes tags).drop offset).take len)
  | .bytes bs =>
    (⟨u32OfBytes bs, u32OfBytes (bs.drop 4), u32OfBytes (bs.drop 8), u32OfBytes (bs.drop 12)⟩,
      bs.drop summaryHeaderSize)
  | _ => (⟨0, 0, 0, 0⟩, [])

/-! ## Reading a summary -/

/-- `dev->chunks_per_summary`, zero on a device without summaries. -/
def Param.summaryChunks (p : Param) : ℕ :=
  if p.hasSummaries then p.chunksPerSummary else 0

/-- The page read is the page `chunkId` of a summary, with `thisTx` bytes of it. -/
def PageRead.isSummary (r : PageRead) (chunkId thisTx : ℕ) : Bool :=
  r.ok && r.tags.chunkId = chunkId && r.tags.objId = objectIdSummary && r.tags.chunkUsed &&
    r.ecc != .unfixed && r.tags.nBytes = thisTx + summaryHeaderSize

/-- A page of a summary that has been read is in use. -/
def useSummaryChunk (b c : ℕ) (d : BlockDev) : BlockDev :=
  (d.setChunkBit c).modBlock b fun bi => { bi with pagesInUse := bi.pagesInUse + 1 }

/-- The loop of `yaffs_summary_read`, with the bytes read so far and the last header. -/
def summaryReadLoop (g : Geometry) (rd : Reader) (b : ℕ) :
    ℕ → ℕ → ℕ → ℕ → List UInt8 → SummaryHeader → BlockDev →
      BlockDev × List UInt8 × SummaryHeader × Bool
  | 0, _, _, _, buffer, hdr, d => (d, buffer, hdr, true)
  | n + 1, chunkInBlock, chunkId, nBytes, buffer, hdr, d =>
    let thisTx := min nBytes (g.dataBytesPerChunk - summaryHeaderSize)
    let c := b * g.chunksPerBlock + chunkInBlock
    let r := rdChunkTagsNand g rd c d
    if r.2.isSummary chunkId thisTx then
      let d := useSummaryChunk b c r.1
      let part := r.2.data.summaryPart
      let buffer := buffer ++ part.2.take thisTx
      if nBytes - thisTx = 0 then (d, buffer, part.1, true)
      else summaryReadLoop g rd b n (chunkInBlock + 1) (chunkId + 1) (nBytes - thisTx) buffer part.1 d
    else (r.1, buffer, hdr, false)

/-- `dev->sum_tags` with `bytes` copied over its front. -/
def overlaySumTags (g : Geometry) (bytes : List UInt8) (sumTags : ℕ → SummaryTags) :
    ℕ → SummaryTags := fun i =>
  let old := summaryBytes ((List.range g.summaryChunks).map sumTags)
  if i < g.summaryChunks then
    .ofBytes ((bytes ++ old.drop bytes.length).drop (summaryTagsSize * i))
  else sumTags i

/-- `yaffs_summary_read` into `dev->sum_tags`. -/
def summaryRead (g : Geometry) (rd : Reader) (b : ℕ) (d : BlockDev) : BlockDev × Bool :=
  let r := summaryReadLoop g rd b (g.chunksPerBlock - g.summaryChunks) g.summaryChunks 1
    (summaryTagsSize * g.summaryChunks) [] ⟨0, 0, 0, 0⟩ d
  let d := { r.1 with sumTags := overlaySumTags g r.2.1 d.sumTags }
  let hdr := r.2.2.1
  let sum := if g.hasSummaries then summarySum g d else 0
  if r.2.2.2 && hdr.version = 1 && hdr.seq = (d.blockInfo b).seqNumber && hdr.sum = sum then
    (d.modBlock b fun bi => { bi with hasSummary := true }, true)
  else (d, false)

/-- `yaffs_summary_fetch`, whose sequence number is what the stack holds. -/
def summaryFetch (stale i : ℕ) (d : BlockDev) : ExtTags :=
  unpackTags2TagsOnly stale (d.sumTags i)

/-- The tags `yaffs2_scan_chunk` gets from the summary of block `b`. -/
def fetchTags (stale b i : ℕ) (d : BlockDev) : ExtTags :=
  { summaryFetch stale i d with seqNumber := (d.blockInfo b).seqNumber }

/-- The start of `yaffs2_scan_chunk` : the tags of page `i` of block `b`, from the summary
where it has any. -/
def scanTags (g : Geometry) (rd : Reader) (stale b i : ℕ) (summaryAvailable : Bool) (d : BlockDev) :
    BlockDev × PageRead :=
  if summaryAvailable && (fetchTags stale b i d).objId != 0 then
    (d, { ok := true, ecc := .unknown, tags := fetchTags stale b i d, data := .blank })
  else rdChunkTagsNand g rd (b * g.chunksPerBlock + i) d

end Yaffs
