import Yaffs.Cutoff

/-!
# NOR flash whose power fails

The NOR flash of `ynorsim.c`, which clears some bits of a word one by one before it has the word, and may lose
its power behind each of them, and the driver of `yaffs_nor_drv.c` above it : chunks with a pre-marker and a
post-marker, and blocks with a format marker. A structure is what its words are on a little-endian machine.
-/

namespace Yaffs

open Cutoff

/-! ## The flash -/

/-- `struct nor_sim` : its words, what `rand()` is still going to return, and `remaining_ops`. -/
structure NorSim where
  word : ℕ → BitVec 32
  rand : ℕ → ℕ
  remainingOps : ℤ

/-- How a call on the flash ends that does not return. -/
inductive NorStop
  /-- `ynorsim_power_fail`, with the image that is saved. -/
  | powerFail (image : ℕ → BitVec 32)
  /-- `NorError`, which never returns. -/
  | norError
  /-- `BUG()`. -/
  | bug

/-- `YNORSIM_BIT_CHANGES`. -/
def norsimBitChanges : ℕ := 2

variable (simulatePowerFailure : Bool)

/-- `ynorsim_maybe_power_fail`. -/
def norsimMaybePowerFail (s : NorSim) : Except NorStop NorSim :=
  let s := { s with remainingOps := s.remainingOps - 1 }
  if simulatePowerFailure ∧ s.remainingOps < 1 then .error (.powerFail s.word) else .ok s

/-- `*addr = v`. -/
def NorSim.store (addr : ℕ) (v : BitVec 32) (s : NorSim) : NorSim :=
  { s with word := Function.update s.word addr v }

/-- The bit changes on the way to `val`; the word has what `tmp` has. -/
def norsimChangeBits (addr : ℕ) (val : BitVec 32) : ℕ → NorSim → Except NorStop NorSim
  | 0, s => .ok s
  | n + 1, s =>
    let m := 1#32 <<< (s.rand 0 % 32)
    let s := { s with rand := fun i => s.rand (i + 1) }
    if m &&& val = 0 then
      norsimMaybePowerFail simulatePowerFailure
        (s.store addr (s.word addr &&& ~~~m)) >>= norsimChangeBits addr val n
    else norsimChangeBits addr val n s

/-- `ynorsim_wr_one_word32`. -/
def norsimWrOneWord32 (addr : ℕ) (val : BitVec 32) (s : NorSim) : Except NorStop NorSim :=
  if val &&& ~~~s.word addr = 0 then
    norsimChangeBits simulatePowerFailure addr val norsimBitChanges s >>= fun s =>
      norsimMaybePowerFail simulatePowerFailure (s.store addr (s.word addr &&& val))
  else .error .norError

/-- `ynorsim_wr32`. -/
def norsimWr32 (addr : ℕ) : List (BitVec 32) → NorSim → Except NorStop NorSim
  | [], s => .ok s
  | v :: buf, s => norsimWrOneWord32 simulatePowerFailure addr v s >>= norsimWr32 (addr + 1) buf

/-- `ynorsim_rd32`. -/
def norsimRd32 (w : ℕ → BitVec 32) (addr nwords : ℕ) : List (BitVec 32) :=
  (List.range nwords).map fun i => w (addr + i)

/-- `BLOCK_SIZE_IN_BYTES`, in words. -/
def norBlockWords : ℕ := 128 * 1024 / 4

/-- `ynorsim_erase`. -/
def norsimErase (addr : ℕ) (s : NorSim) : NorSim :=
  { s with word := fun a => if addr ≤ a ∧ a < addr + norBlockWords then 0xffffffff else s.word a }

/-! ## The driver -/

/-- `DATA_BYTES_PER_CHUNK`, in words. -/
def norDataWords : ℕ := 512 / 4

/-- `SPARE_BYTES_PER_CHUNK`, in words. -/
def norSpareWords : ℕ := 16 / 4

/-- `CHUNKS_PER_BLOCK`. -/
def norChunksPerBlock : ℕ := 128 * 1024 / (512 + 16)

/-- `BLOCKS_IN_DEVICE`. -/
def norBlocksInDevice : ℕ := 4 * 1024 * 1024 / (128 * 1024)

/-- `FORMAT_VALUE`. -/
def norFormatValue : BitVec 32 := 0x1234

/-- `YNOR_PREMARKER`. -/
def norPremarker : BitVec 8 := 0xf6

/-- `YNOR_POSTMARKER`. -/
def norPostmarker : BitVec 8 := 0xf0

/-- `struct yaffs_spare`, as the words it is written by. -/
structure NorSpare where
  w0 : BitVec 32
  w1 : BitVec 32
  w2 : BitVec 32
  w3 : BitVec 32
  deriving DecidableEq, Repr

/-- The byte `page_status`. -/
def NorSpare.pageStatus (sp : NorSpare) : BitVec 8 :=
  sp.w1.setWidth 8

/-- The spare with another `page_status`. -/
def NorSpare.setStatus (sp : NorSpare) (st : BitVec 8) : NorSpare :=
  { sp with w1 := (sp.w1 &&& ~~~0xff) ||| st.setWidth 32 }

def NorSpare.words (sp : NorSpare) : List (BitVec 32) :=
  [sp.w0, sp.w1, sp.w2, sp.w3]

/-- `memset` to `0xff`. -/
def NorSpare.blank : NorSpare := ⟨0xffffffff, 0xffffffff, 0xffffffff, 0xffffffff⟩

/-- `nor_drv_AndBytes`, for a spare. -/
def norDrvAndBytes (target src : NorSpare) : NorSpare :=
  ⟨target.w0 &&& src.w0, target.w1 &&& src.w1, target.w2 &&& src.w2, target.w3 &&& src.w3⟩

/-- `Block2Addr`, in words. -/
def norBlock2Addr (b : ℕ) : ℕ :=
  b * norBlockWords

/-- `Block2FormatAddr`, in words. -/
def norBlock2FormatAddr (b : ℕ) : ℕ :=
  norBlock2Addr b + norChunksPerBlock * (norDataWords + norSpareWords)

/-- `Chunk2DataAddr`, in words. -/
def norChunk2DataAddr (c : ℕ) : ℕ :=
  norBlock2Addr (c / norChunksPerBlock) + c % norChunksPerBlock * (norDataWords + norSpareWords)

/-- `Chunk2SpareAddr`, in words. -/
def norChunk2SpareAddr (c : ℕ) : ℕ :=
  norChunk2DataAddr c + norDataWords

/-- The spare at an address. -/
def norRdSpare (w : ℕ → BitVec 32) (addr : ℕ) : NorSpare :=
  ⟨w addr, w (addr + 1), w (addr + 2), w (addr + 3)⟩

/-- `nor_drv_WriteChunkToNAND`, with the words of the data and with the spare. -/
def norDrvWriteChunkToNAND (c : ℕ) : Option (List (BitVec 32)) → Option NorSpare → NorSim → Except NorStop NorSim
  | some data, some spare, s =>
    if spare.pageStatus = 0xff then
      norsimWr32 simulatePowerFailure (norChunk2SpareAddr c) (NorSpare.blank.setStatus norPremarker).words s >>=
        fun s => norsimWr32 simulatePowerFailure (norChunk2DataAddr c) data s >>=
        fun s => norsimWr32 simulatePowerFailure (norChunk2SpareAddr c) (spare.setStatus norPremarker).words s >>=
        norsimWr32 simulatePowerFailure (norChunk2SpareAddr c) (spare.setStatus norPostmarker).words
    else .error .bug
  | none, some spare, s =>
    norsimWr32 simulatePowerFailure (norChunk2SpareAddr c)
      (norDrvAndBytes (norRdSpare s.word (norChunk2SpareAddr c)) spare).words s
  | _, none, _ => .error .bug

/-- `page_status` as it is returned. -/
def norReadStatus (st : BitVec 8) : BitVec 8 :=
  if st = norPostmarker then 0xff
  else if st ≠ 0xff ∧ st ||| norPremarker ≠ 0xff then norPremarker
  else st

/-- `nor_drv_ReadChunkFromNAND`. -/
def norDrvReadChunkFromNAND (w : ℕ → BitVec 32) (c : ℕ) : List (BitVec 32) × NorSpare :=
  let spare := norRdSpare w (norChunk2SpareAddr c)
  (norsimRd32 w (norChunk2DataAddr c) norDataWords, spare.setStatus (norReadStatus spare.pageStatus))

/-- `nor_drv_FormatBlock`. -/
def norDrvFormatBlock (b : ℕ) (s : NorSim) : Except NorStop NorSim :=
  norsimWr32 simulatePowerFailure (norBlock2FormatAddr b) [norFormatValue] (norsimErase (norBlock2Addr b) s)

/-- `nor_drv_UnformatBlock`. -/
def norDrvUnformatBlock (b : ℕ) (s : NorSim) : Except NorStop NorSim :=
  norsimWr32 simulatePowerFailure (norBlock2FormatAddr b) [0] s

/-- `nor_drv_IsBlockFormatted`. -/
def norDrvIsBlockFormatted (w : ℕ → BitVec 32) (b : ℕ) : Bool :=
  w (norBlock2FormatAddr b) = norFormatValue

/-- `nor_drv_EraseBlockInNAND`; a block that is not there is left alone. -/
def norDrvEraseBlockInNAND (b : ℕ) (s : NorSim) : Except NorStop NorSim :=
  if b < norBlocksInDevice then
    norDrvUnformatBlock simulatePowerFailure b s >>= norDrvFormatBlock simulatePowerFailure b
  else .ok s

/-- The loop of `nor_drv_InitialiseNAND`, from block `i` on. -/
def norDrvInitialiseLoop : ℕ → ℕ → NorSim → Except NorStop NorSim
  | 0, _, s => .ok s
  | n + 1, i, s =>
    if norDrvIsBlockFormatted s.word i then norDrvInitialiseLoop n (i + 1) s
    else norDrvFormatBlock simulatePowerFailure i s >>= norDrvInitialiseLoop n (i + 1)

/-- `nor_drv_InitialiseNAND`. -/
def norDrvInitialiseNAND (s : NorSim) : Except NorStop NorSim :=
  norDrvInitialiseLoop simulatePowerFailure norBlocksInDevice 0 s

end Yaffs
