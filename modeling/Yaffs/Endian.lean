import Yaffs.ByteOrder

/-!
# The byte order of the flash

The core swaps the words of what it writes when `stored_endian` asks for the other byte order than
that of the host, field by field : object headers, packed tags, and the records of a checkpoint.
A `stored_endian` of 0 leaves everything in the order of the host. What no function swaps is
listed by `Record.unswapped` : the sequence number of a checkpointed device, the ECC behind
packed tags, and the header of a summary.
-/

namespace Yaffs

open ByteOrder

/-- `yaffs_endian_config` : the words are swapped on the host `h`. -/
def endianConfig (storedEndian : ℕ) (h : Order) : Bool :=
  match h with
  | .little => decide (storedEndian = 2)
  | .big => decide (storedEndian = 1)

/-- `yaffs_do_endian_u32`. -/
def doEndianU32 (swap : Bool) (x : UInt32) : UInt32 :=
  if swap then swap32 x else x

/-! ## Object headers -/

/-- `struct yaffs_obj_hdr`, in its layout. -/
structure HdrWords where
  type : UInt32
  parentObjId : UInt32
  /-- `sum_no_longer_used`, two bytes -/
  sumNoLongerUsed : List UInt8
  /-- `name`, with what pads it to a word -/
  name : List UInt8
  ystMode : UInt32
  ystUid : UInt32
  ystGid : UInt32
  ystAtime : UInt32
  ystMtime : UInt32
  ystCtime : UInt32
  fileSizeLow : UInt32
  equivId : UInt32
  aliasName : List UInt8
  ystRdev : UInt32
  winCtime0 : UInt32
  winCtime1 : UInt32
  winAtime0 : UInt32
  winAtime1 : UInt32
  winMtime0 : UInt32
  winMtime1 : UInt32
  inbandShadowedObjId : UInt32
  inbandIsShrink : UInt32
  fileSizeHigh : UInt32
  reserved : UInt32
  shadowsObj : UInt32
  isShrink : UInt32
  deriving DecidableEq, Repr

/-- `yaffs_do_endian_oh`. -/
def doEndianOh (swap : Bool) (oh : HdrWords) : HdrWords :=
  if swap then
    { oh with
      type := swap32 oh.type
      parentObjId := swap32 oh.parentObjId
      ystMode := swap32 oh.ystMode
      ystUid := swap32 oh.ystUid
      ystGid := swap32 oh.ystGid
      ystAtime := swap32 oh.ystAtime
      ystMtime := swap32 oh.ystMtime
      ystCtime := swap32 oh.ystCtime
      fileSizeLow := swap32 oh.fileSizeLow
      equivId := swap32 oh.equivId
      ystRdev := swap32 oh.ystRdev
      winCtime0 := swap32 oh.winCtime0
      winCtime1 := swap32 oh.winCtime1
      winAtime0 := swap32 oh.winAtime0
      winAtime1 := swap32 oh.winAtime1
      winMtime0 := swap32 oh.winMtime0
      winMtime1 := swap32 oh.winMtime1
      inbandShadowedObjId := swap32 oh.inbandShadowedObjId
      inbandIsShrink := swap32 oh.inbandIsShrink
      fileSizeHigh := swap32 oh.fileSizeHigh
      reserved := swap32 oh.reserved
      shadowsObj := swap32 oh.shadowsObj
      isShrink := swap32 oh.isShrink }
  else oh

/-- `yaffs_oh_size_load`. -/
def ohSizeLoad (swap : Bool) (oh : HdrWords) (fsize : ℕ) (doEndian : Bool) : HdrWords :=
  { oh with
    fileSizeLow := doEndianU32 (doEndian && swap) (UInt32.ofNat fsize)
    fileSizeHigh := doEndianU32 (doEndian && swap) (UInt32.ofNat (fsize / 2 ^ 32)) }

/-- `yaffs_oh_to_size`, of a header in the order of the host. -/
def ohToSize (oh : HdrWords) : ℕ :=
  if oh.fileSizeHigh ≠ 0xffffffff then oh.fileSizeHigh.toNat * 2 ^ 32 + oh.fileSizeLow.toNat
  else oh.fileSizeLow.toNat

/-- What `yaffs_gc_process_chunk` makes of a header, which it leaves in the order of the flash;
`fileSize` is the stored size of a file. -/
def gcHdrWords (swap : Bool) (fileSize : Option ℕ) (oh : HdrWords) : HdrWords :=
  let oh := { oh with isShrink := 0, shadowsObj := 0, inbandShadowedObjId := 0 }
  match fileSize with
  | some n => ohSizeLoad swap oh n true
  | none => oh

/-! ## Tags and summaries -/

/-- `struct yaffs_packed_tags2_tags_only`. -/
structure PackedTags2TagsOnly where
  seqNumber : UInt32
  objId : UInt32
  chunkId : UInt32
  nBytes : UInt32
  deriving DecidableEq, Repr

/-- `yaffs_do_endian_packed_tags2`. -/
def doEndianPackedTags2 (swap : Bool) (ptt : PackedTags2TagsOnly) : PackedTags2TagsOnly :=
  if swap then
    { seqNumber := swap32 ptt.seqNumber
      objId := swap32 ptt.objId
      chunkId := swap32 ptt.chunkId
      nBytes := swap32 ptt.nBytes }
  else ptt

/-- `struct yaffs_summary_tags`. -/
structure SummaryTagsWords where
  objId : UInt32
  chunkId : UInt32
  nBytes : UInt32
  deriving DecidableEq, Repr

/-- The words of packed tags, as `yaffs_summary_add` takes them and `yaffs_summary_fetch` gives
them back. -/
def doEndianSummaryTags (swap : Bool) (st : SummaryTagsWords) : SummaryTagsWords :=
  let ptt := doEndianPackedTags2 swap ⟨0, st.objId, st.chunkId, st.nBytes⟩
  ⟨ptt.objId, ptt.chunkId, ptt.nBytes⟩

/-- `struct yaffs_ecc_other`. -/
structure EccOther where
  /-- `col_parity`, with what pads it to a word -/
  colParity : List UInt8
  lineParity : UInt32
  lineParityPrime : UInt32
  deriving DecidableEq, Repr

/-- `struct yaffs_packed_tags2`. -/
structure PackedTags2 where
  t : PackedTags2TagsOnly
  ecc : EccOther
  deriving DecidableEq, Repr

/-- `struct yaffs_summary_header`. -/
structure SummaryHdrWords where
  version : UInt32
  block : UInt32
  seq : UInt32
  sum : UInt32
  deriving DecidableEq, Repr

/-! ## Checkpoints -/

/-- `struct yaffs_checkpt_chunk_hdr`. -/
structure CheckptChunkHdrWords where
  version : UInt32
  seq : UInt32
  sum : UInt32
  xor : UInt32
  deriving DecidableEq, Repr

/-- `yaffs2_do_endian_hdr`. -/
def doEndianHdr (swap : Bool) (hdr : CheckptChunkHdrWords) : CheckptChunkHdrWords :=
  if swap then
    { version := swap32 hdr.version
      seq := swap32 hdr.seq
      sum := swap32 hdr.sum
      xor := swap32 hdr.xor }
  else hdr

/-- `struct yaffs_checkpt_validity`. -/
structure CheckptValidity where
  structType : UInt32
  magic : UInt32
  version : UInt32
  head : UInt32
  deriving DecidableEq, Repr

/-- `yaffs2_do_endian_validity_marker`. -/
def doEndianValidityMarker (swap : Bool) (v : CheckptValidity) : CheckptValidity :=
  if swap then
    { structType := swap32 v.structType
      magic := swap32 v.magic
      version := swap32 v.version
      head := swap32 v.head }
  else v

/-- `struct yaffs_checkpt_dev`. -/
structure CheckptDev where
  structType : UInt32
  nErasedBlocks : UInt32
  allocBlock : UInt32
  allocPage : UInt32
  nFreeChunks : UInt32
  nDeletedFiles : UInt32
  nUnlinkedFiles : UInt32
  nBgDeletions : UInt32
  seqNumber : UInt32
  deriving DecidableEq, Repr

/-- `yaffs2_do_endian_checkpt_dev`, which leaves the sequence number. -/
def doEndianCheckptDev (swap : Bool) (cp : CheckptDev) : CheckptDev :=
  if swap then
    { cp with
      structType := swap32 cp.structType
      nErasedBlocks := swap32 cp.nErasedBlocks
      allocBlock := swap32 cp.allocBlock
      allocPage := swap32 cp.allocPage
      nFreeChunks := swap32 cp.nFreeChunks
      nDeletedFiles := swap32 cp.nDeletedFiles
      nUnlinkedFiles := swap32 cp.nUnlinkedFiles
      nBgDeletions := swap32 cp.nBgDeletions }
  else cp

/-- `struct yaffs_checkpt_obj`; `size_or_equiv_obj` by its low and high word. -/
structure CheckptObj where
  structType : UInt32
  objId : UInt32
  parentId : UInt32
  hdrChunk : UInt32
  bitField : UInt32
  nDataChunks : UInt32
  sizeOrEquivLow : UInt32
  sizeOrEquivHigh : UInt32
  deriving DecidableEq, Repr

/-- `yaffs2_do_endian_checkpt_obj`, with `swap_loff_t`. -/
def doEndianCheckptObj (swap : Bool) (cp : CheckptObj) : CheckptObj :=
  if swap then
    { structType := swap32 cp.structType
      objId := swap32 cp.objId
      parentId := swap32 cp.parentId
      hdrChunk := swap32 cp.hdrChunk
      bitField := swap32 cp.bitField
      nDataChunks := swap32 cp.nDataChunks
      sizeOrEquivLow := swap32 cp.sizeOrEquivHigh
      sizeOrEquivHigh := swap32 cp.sizeOrEquivLow }
  else cp

/-! ## Records -/

/-- What the core writes to flash and reads from it. -/
inductive Record where
  | objHdr (oh : HdrWords)
  | packedTags (ptt : PackedTags2TagsOnly)
  /-- packed tags with their ECC -/
  | packedTagsEcc (pt : PackedTags2)
  /-- the array of a summary -/
  | summaryTags (sts : List SummaryTagsWords)
  | summaryHdr (hdr : SummaryHdrWords)
  | checkptChunkHdr (hdr : CheckptChunkHdrWords)
  | checkptValidity (v : CheckptValidity)
  | checkptDev (cp : CheckptDev)
  | checkptObj (cp : CheckptObj)
  /-- words of a checkpoint : the infos of all blocks, a tnode, the offset before it, the checksum -/
  | checkptWords (ws : List UInt32)
  /-- bytes of a checkpoint : the chunk bits -/
  | checkptBytes (bs : List UInt8)
  deriving DecidableEq, Repr

/-- A record is put in the order of the flash, or back in that of the host. -/
def Record.doEndian (swap : Bool) : Record → Record
  | .objHdr oh => .objHdr (doEndianOh swap oh)
  | .packedTags ptt => .packedTags (doEndianPackedTags2 swap ptt)
  | .packedTagsEcc pt => .packedTagsEcc { pt with t := doEndianPackedTags2 swap pt.t }
  | .summaryTags sts => .summaryTags (sts.map (doEndianSummaryTags swap))
  | .summaryHdr hdr => .summaryHdr hdr
  | .checkptChunkHdr hdr => .checkptChunkHdr (doEndianHdr swap hdr)
  | .checkptValidity v => .checkptValidity (doEndianValidityMarker swap v)
  | .checkptDev cp => .checkptDev (doEndianCheckptDev swap cp)
  | .checkptObj cp => .checkptObj (doEndianCheckptObj swap cp)
  | .checkptWords ws => .checkptWords (ws.map (doEndianU32 swap))
  | .checkptBytes bs => .checkptBytes bs

def PackedTags2TagsOnly.items (ptt : PackedTags2TagsOnly) : List Item :=
  [.word ptt.seqNumber, .word ptt.objId, .word ptt.chunkId, .word ptt.nBytes]

def SummaryTagsWords.items (st : SummaryTagsWords) : List Item :=
  [.word st.objId, .word st.chunkId, .word st.nBytes]

def HdrWords.items (oh : HdrWords) : List Item :=
  [.word oh.type, .word oh.parentObjId, .bytes oh.sumNoLongerUsed, .bytes oh.name, .word oh.ystMode,
    .word oh.ystUid, .word oh.ystGid, .word oh.ystAtime, .word oh.ystMtime, .word oh.ystCtime,
    .word oh.fileSizeLow, .word oh.equivId, .bytes oh.aliasName, .word oh.ystRdev,
    .word oh.winCtime0, .word oh.winCtime1, .word oh.winAtime0, .word oh.winAtime1, .word oh.winMtime0,
    .word oh.winMtime1, .word oh.inbandShadowedObjId, .word oh.inbandIsShrink, .word oh.fileSizeHigh,
    .word oh.reserved, .word oh.shadowsObj, .word oh.isShrink]

/-- The fields of a record, in the order in which they lie in memory. -/
def Record.items : Record → List Item
  | .objHdr oh => oh.items
  | .packedTags ptt => ptt.items
  | .packedTagsEcc pt =>
    pt.t.items ++ [.bytes pt.ecc.colParity, .word pt.ecc.lineParity, .word pt.ecc.lineParityPrime]
  | .summaryTags sts => sts.flatMap SummaryTagsWords.items
  | .summaryHdr hdr => [.word hdr.version, .word hdr.block, .word hdr.seq, .word hdr.sum]
  | .checkptChunkHdr hdr => [.word hdr.version, .word hdr.seq, .word hdr.sum, .word hdr.xor]
  | .checkptValidity v => [.word v.structType, .word v.magic, .word v.version, .word v.head]
  | .checkptDev cp =>
    [.word cp.structType, .word cp.nErasedBlocks, .word cp.allocBlock, .word cp.allocPage,
      .word cp.nFreeChunks, .word cp.nDeletedFiles, .word cp.nUnlinkedFiles, .word cp.nBgDeletions,
      .word cp.seqNumber]
  | .checkptObj cp =>
    [.word cp.structType, .word cp.objId, .word cp.parentId, .word cp.hdrChunk, .word cp.bitField,
      .word cp.nDataChunks, .long cp.sizeOrEquivLow cp.sizeOrEquivHigh]
  | .checkptWords ws => ws.map .word
  | .checkptBytes bs => [.bytes bs]

/-- The places of the fields that no function swaps. -/
def Record.unswapped : Record → List ℕ
  | .packedTagsEcc _ => [4, 5, 6]
  | .summaryHdr _ => [0, 1, 2, 3]
  | .checkptDev _ => [8]
  | _ => []

/-- The bytes of a record on flash, written on the host `h`. -/
def Record.onFlash (storedEndian : ℕ) (h : Order) (r : Record) : List UInt8 :=
  inMemory h (r.doEndian (endianConfig storedEndian h)).items

/-- The word at place `k` of a record that has been read. -/
def wordAt (is : List Item) (k : ℕ) : UInt32 :=
  match is[k]? with
  | some (.word x) => x
  | _ => 0

/-- The bytes at place `k`. -/
def bytesAt (is : List Item) (k : ℕ) : List UInt8 :=
  match is[k]? with
  | some (.bytes bs) => bs
  | _ => []

/-- The low and the high word at place `k`. -/
def longAt (is : List Item) (k : ℕ) : UInt32 × UInt32 :=
  match is[k]? with
  | some (.long low high) => (low, high)
  | _ => (0, 0)

def HdrWords.ofItems (is : List Item) : HdrWords where
  type := wordAt is 0
  parentObjId := wordAt is 1
  sumNoLongerUsed := bytesAt is 2
  name := bytesAt is 3
  ystMode := wordAt is 4
  ystUid := wordAt is 5
  ystGid := wordAt is 6
  ystAtime := wordAt is 7
  ystMtime := wordAt is 8
  ystCtime := wordAt is 9
  fileSizeLow := wordAt is 10
  equivId := wordAt is 11
  aliasName := bytesAt is 12
  ystRdev := wordAt is 13
  winCtime0 := wordAt is 14
  winCtime1 := wordAt is 15
  winAtime0 := wordAt is 16
  winAtime1 := wordAt is 17
  winMtime0 := wordAt is 18
  winMtime1 := wordAt is 19
  inbandShadowedObjId := wordAt is 20
  inbandIsShrink := wordAt is 21
  fileSizeHigh := wordAt is 22
  reserved := wordAt is 23
  shadowsObj := wordAt is 24
  isShrink := wordAt is 25

def PackedTags2TagsOnly.ofItems (is : List Item) : PackedTags2TagsOnly :=
  ⟨wordAt is 0, wordAt is 1, wordAt is 2, wordAt is 3⟩

/-- An array of `n` `struct yaffs_summary_tags`. -/
def summaryTagsOfItems : ℕ → List Item → List SummaryTagsWords
  | 0, _ => []
  | n + 1, is => ⟨wordAt is 0, wordAt is 1, wordAt is 2⟩ :: summaryTagsOfItems n (is.drop 3)

/-- The record of the kind of `r` with the given fields. -/
def Record.ofItems (r : Record) (is : List Item) : Record :=
  match r with
  | .objHdr _ => .objHdr (.ofItems is)
  | .packedTags _ => .packedTags (.ofItems is)
  | .packedTagsEcc _ => .packedTagsEcc ⟨.ofItems is, ⟨bytesAt is 4, wordAt is 5, wordAt is 6⟩⟩
  | .summaryTags sts => .summaryTags (summaryTagsOfItems sts.length is)
  | .summaryHdr _ => .summaryHdr ⟨wordAt is 0, wordAt is 1, wordAt is 2, wordAt is 3⟩
  | .checkptChunkHdr _ => .checkptChunkHdr ⟨wordAt is 0, wordAt is 1, wordAt is 2, wordAt is 3⟩
  | .checkptValidity _ => .checkptValidity ⟨wordAt is 0, wordAt is 1, wordAt is 2, wordAt is 3⟩
  | .checkptDev _ =>
    .checkptDev ⟨wordAt is 0, wordAt is 1, wordAt is 2, wordAt is 3, wordAt is 4, wordAt is 5, wordAt is 6,
      wordAt is 7, wordAt is 8⟩
  | .checkptObj _ =>
    .checkptObj ⟨wordAt is 0, wordAt is 1, wordAt is 2, wordAt is 3, wordAt is 4, wordAt is 5, (longAt is 6).1,
      (longAt is 6).2⟩
  | .checkptWords _ => .checkptWords (is.map fun i => wordAt [i] 0)
  | .checkptBytes _ => .checkptBytes (bytesAt is 0)

/-- What the host `h` reads for the record of the kind and size of `r` at the start of some bytes. -/
def Record.read (storedEndian : ℕ) (h : Order) (r : Record) (bs : List UInt8) : Record :=
  (r.ofItems (readAs h r.items bs)).doEndian (endianConfig storedEndian h)

variable {r : Record} {is : List Item} {n : ℕ} {h h' : Order}

/-! ## Fields -/

/-- Fields of the layout of `r` are those of the record they make. -/
theorem items_ofItems (hl : SameLayout r.items is) : (r.ofItems is).items = is := by
  cases r with
  | objHdr oh =>
    iterate 26 (obtain _ | ⟨hk, hl⟩ := hl; cases hk)
    cases hl
    rfl
  | packedTags ptt =>
    iterate 4 (obtain _ | ⟨hk, hl⟩ := hl; cases hk)
    cases hl
    rfl
  | packedTagsEcc pt =>
    iterate 7 (obtain _ | ⟨hk, hl⟩ := hl; cases hk)
    cases hl
    rfl
  | summaryTags sts =>
    change (summaryTagsOfItems sts.length is).flatMap SummaryTagsWords.items = is
    induction sts generalizing is with
    | nil =>
      cases hl
      rfl
    | cons st sts ih =>
      iterate 3 (obtain _ | ⟨hk, hl⟩ := hl; cases hk)
      have := ih hl
      rw [List.length_cons, summaryTagsOfItems, List.flatMap_cons]
      simp only [List.drop_succ_cons, List.drop_zero]
      rw [this]
      rfl
  | summaryHdr hdr =>
    iterate 4 (obtain _ | ⟨hk, hl⟩ := hl; cases hk)
    cases hl
    rfl
  | checkptChunkHdr hdr =>
    iterate 4 (obtain _ | ⟨hk, hl⟩ := hl; cases hk)
    cases hl
    rfl
  | checkptValidity v =>
    iterate 4 (obtain _ | ⟨hk, hl⟩ := hl; cases hk)
    cases hl
    rfl
  | checkptDev cp =>
    iterate 9 (obtain _ | ⟨hk, hl⟩ := hl; cases hk)
    cases hl
    rfl
  | checkptObj cp =>
    iterate 7 (obtain _ | ⟨hk, hl⟩ := hl; cases hk)
    cases hl
    rfl
  | checkptWords ws =>
    change (is.map fun i => wordAt [i] 0).map .word = is
    induction ws generalizing is with
    | nil =>
      cases hl
      rfl
    | cons w ws ih =>
      obtain _ | ⟨hk, hl⟩ := hl
      cases hk
      rw [List.map_cons, List.map_cons, ih hl]
      rfl
  | checkptBytes bs =>
    obtain _ | ⟨hk, hl⟩ := hl
    cases hk
    cases hl
    rfl

/-- Every field is swapped but those `Record.unswapped` lists. -/
theorem items_doEndian (r : Record) : (r.doEndian true).items = swapBut r.unswapped 0 r.items := by
  cases r with
  | summaryTags sts =>
    change (sts.map (doEndianSummaryTags true)).flatMap SummaryTagsWords.items = swapBut [] 0 _
    rw [swapBut_nil, List.flatMap_map]
    change _ = (sts.flatMap SummaryTagsWords.items).map Item.swap
    rw [List.map_flatMap]
    rfl
  | checkptWords ws =>
    change (ws.map (doEndianU32 true)).map Item.word = swapBut [] 0 (ws.map Item.word)
    rw [swapBut_nil, List.map_map, List.map_map]
    rfl
  | _ => rfl

theorem doEndian_false (r : Record) : r.doEndian false = r := by
  cases r with
  | summaryTags sts => exact congrArg Record.summaryTags (List.map_id' sts)
  | checkptWords ws => exact congrArg Record.checkptWords (List.map_id' ws)
  | _ => rfl

theorem doEndian_doEndian (swap : Bool) (r : Record) : (r.doEndian swap).doEndian swap = r := by
  cases swap with
  | false => rw [doEndian_false, doEndian_false]
  | true =>
    cases r with
    | summaryTags sts =>
      refine congrArg Record.summaryTags ?_
      rw [List.map_map]
      refine (List.map_congr_left fun st _ => ?_).trans (List.map_id' sts)
      simp [doEndianSummaryTags, doEndianPackedTags2, swap32_swap32]
    | checkptWords ws =>
      refine congrArg Record.checkptWords ?_
      rw [List.map_map]
      refine (List.map_congr_left fun w _ => ?_).trans (List.map_id' ws)
      simp [doEndianU32, swap32_swap32]
    | _ =>
      simp [Record.doEndian, doEndianOh, doEndianPackedTags2, doEndianHdr, doEndianValidityMarker,
        doEndianCheckptDev, doEndianCheckptObj, swap32_swap32]

/-- What is made of fields depends on the kind of the record only. -/
theorem ofItems_doEndian (swap : Bool) (r : Record) : (r.doEndian swap).ofItems is = r.ofItems is := by
  cases r with
  | summaryTags sts => simp [Record.doEndian, Record.ofItems]
  | _ => rfl

theorem unswapped_ofItems (r : Record) : (r.ofItems is).unswapped = r.unswapped := by
  cases r <;> rfl

theorem ofItems_items (r : Record) : r.ofItems r.items = r := by
  cases r with
  | summaryTags sts =>
    refine congrArg Record.summaryTags ?_
    change summaryTagsOfItems sts.length (sts.flatMap SummaryTagsWords.items) = sts
    induction sts with
    | nil => rfl
    | cons st sts ih => exact congrArg (st :: ·) ih
  | checkptWords ws =>
    refine congrArg Record.checkptWords ?_
    change (ws.map Item.word).map _ = ws
    rw [List.map_map]
    exact List.map_id' ws
  | _ => rfl

theorem sameLayout_doEndian (swap : Bool) (r : Record) : SameLayout r.items (r.doEndian swap).items := by
  cases swap with
  | false =>
    rw [doEndian_false]
    exact sameLayout_refl _
  | true =>
    rw [items_doEndian]
    exact sameLayout_swapBut _ _ _

/-- A field after `doEndian`. -/
theorem getElem?_doEndian {swap : Bool} {k : ℕ} (hk : k ∉ r.unswapped) :
    (r.doEndian swap).items[k]? = r.items[k]?.map fun i => if swap then i.swap else i := by
  cases swap with
  | false =>
    rw [doEndian_false]
    exact Option.map_id'.symm
  | true =>
    rw [items_doEndian, getElem?_swapBut (by rwa [Nat.zero_add])]
    rfl

/-! ## The flash -/

/-- The byte order `stored_endian` asks for, on the host `h`. -/
def flashOrder (storedEndian : ℕ) (h : Order) : Order :=
  if storedEndian = 1 then .little
  else if storedEndian = 2 then .big
  else h

/-- A field that is swapped if need be has the order of the flash. -/
theorem inMemory_config (n : ℕ) (h : Order) (i : Item) :
    (if endianConfig n h then i.swap else i).inMemory h = i.inMemory (flashOrder n h) := by
  unfold endianConfig flashOrder
  by_cases h1 : n = 1
  · subst h1
    cases h with
    | little => rfl
    | big => exact i.inMemory_swap .big
  by_cases h2 : n = 2
  · subst h2
    cases h with
    | little => exact i.inMemory_swap .little
    | big => rfl
  · cases h <;> simp [h1, h2]

/-- The bytes of a field on flash are in the order of the flash. -/
theorem onFlash_field {k : ℕ} (hk : k < r.items.length) (hun : k ∉ r.unswapped) :
    ((r.onFlash n h).drop (offset r.items k)).take r.items[k].size = r.items[k].inMemory (flashOrder n h) := by
  have hl := sameLayout_doEndian (endianConfig n h) r
  have hk' : k < (r.doEndian (endianConfig n h)).items.length := by
    rw [← hl.length_eq]
    exact hk
  have hfield : (r.doEndian (endianConfig n h)).items[k] = if endianConfig n h then r.items[k].swap else r.items[k] := by
    have : (r.doEndian (endianConfig n h)).items[k]? = _ := getElem?_doEndian hun
    rw [List.getElem?_eq_getElem hk', List.getElem?_eq_getElem hk, Option.map_some] at this
    exact Option.some.inj this
  have hsize : r.items[k].size = (r.doEndian (endianConfig n h)).items[k].size := by
    rw [hfield]
    split
    · rw [Item.size_swap]
    · rfl
  unfold Record.onFlash
  rw [hl.offset_eq, hsize, inMemory_field h _ hk', hfield, inMemory_config]

/-- The host that wrote a record reads it. -/
theorem read_onFlash_self (n : ℕ) (h : Order) (r : Record) : r.read n h (r.onFlash n h) = r := by
  have hread := readAs_inMemory h (sameLayout_doEndian (endianConfig n h) r) []
  rw [List.append_nil] at hread
  unfold Record.read Record.onFlash
  rw [hread, ← ofItems_doEndian (endianConfig n h), ofItems_items, doEndian_doEndian]

theorem endianConfig_other (hn : n = 1 ∨ n = 2) (h : Order) : endianConfig n h.other = !endianConfig n h := by
  rcases hn with rfl | rfl <;> cases h <;> rfl

/-- The other host reads the fields that are swapped. -/
theorem read_onFlash_other {k : ℕ} (hn : n = 1 ∨ n = 2) (hun : k ∉ r.unswapped) :
    (r.read n h.other (r.onFlash n h)).items[k]? = r.items[k]? := by
  have hl := sameLayout_map_swap (sameLayout_doEndian (endianConfig n h) r)
  have hbytes : r.onFlash n h = inMemory h.other ((r.doEndian (endianConfig n h)).items.map Item.swap) := by
    rw [inMemory_map_swap]
    cases h <;> rfl
  have hread := readAs_inMemory h.other hl []
  rw [List.append_nil] at hread
  have hun' : k ∉ (r.ofItems ((r.doEndian (endianConfig n h)).items.map Item.swap)).unswapped := by
    rw [unswapped_ofItems]
    exact hun
  unfold Record.read
  rw [hbytes, hread, getElem?_doEndian hun', items_ofItems hl, List.getElem?_map, getElem?_doEndian hun,
    Option.map_map, Option.map_map, endianConfig_other hn]
  -- one of the two hosts swaps, and what lies between them swaps once more
  refine (congrArg (Option.map · r.items[k]?) (funext fun i => ?_)).trans Option.map_id'
  cases endianConfig n h <;> simp

/-- gc changes a header that it leaves in the order of the flash as it would change the header itself. -/
theorem gcHdrWords_doEndianOh (swap : Bool) (fileSize : Option ℕ) (oh : HdrWords) :
    gcHdrWords swap fileSize (doEndianOh swap oh) = doEndianOh swap (gcHdrWords false fileSize oh) := by
  have hzero : swap32 0 = 0 := by decide
  cases swap with
  | false => rfl
  | true => cases fileSize <;> simp [gcHdrWords, doEndianOh, ohSizeLoad, doEndianU32, hzero]

/-- The marker at the head of a checkpoint. -/
def headMarker : Record :=
  .checkptValidity ⟨16, 0x5941ff53, 8, 1⟩

end Yaffs
