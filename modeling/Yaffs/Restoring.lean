import Yaffs.Retype
import Yaffs.Saving

/-!
# Reading a saved device

What `yaffs2_rd_checkpt_data` makes of the stream of a saved device. The reader finds the blocks of the
stream in the order in which the writer took them, so that it marks the same ones when it closes.
-/

namespace Yaffs

open LittleEndian Paging

/-! ## The blocks of the reader -/

section

variable {p : Param} {W : List UInt8} {r j m mb : ℕ} {d d₁ : BlockDev}

/-- The reader has listed the blocks it has found : the first of those that were empty. -/
def BlocksListed (p : Param) (d₁ d : BlockDev) : Prop :=
  d.checkpt.blockList = (emptyBlocks p d₁).take d.blocksInCheckpt

theorem checkptReadPage_listed (b : ℕ) (h : BlocksListed p d₁ d) : BlocksListed p d₁ (checkptReadPage p b d).1 := by
  unfold checkptReadPage checkptCheckChunkHdr
  dsimp only
  split_ifs <;> exact h

/-- What opening a block and reading a page keep, a fetch keeps. -/
theorem checkptFetch_ind {P : BlockDev → Prop} (hnext : d.checkpt.curBlock = none → P (checkptNextBlock p d))
    (hopen : d.checkpt.curBlock ≠ none → P d) (hread : ∀ b x, P x → P (checkptReadPage p b x).1) :
    P (checkptFetch p d).1 := by
  have hblock : P (if d.checkpt.curBlock = none then checkptNextBlock p d else d) := by
    split_ifs with hcur
    · exact hnext hcur
    · exact hopen hcur
  unfold checkptFetch
  dsimp only
  split
  · exact hblock
  · exact hread _ _ hblock

theorem checkptFetch_listed (hp : 0 < p.chunksPerBlock) (hsmall : p.chunksPerBlock * (p.endBlock + 1) < 2 ^ 31)
    (hlay : LaidOut p d₁) (hread : Readable p d₁ W m d.nand) (hj : j < m) (h : Behind p d₁ W r j d)
    (hlist : BlocksListed p d₁ d) : BlocksListed p d₁ (checkptFetch p d).1 := by
  refine checkptFetch_ind (fun hcur => ?_) (fun _ => hlist) fun b x hx => checkptReadPage_listed b hx
  · have hmod : j % p.chunksPerBlock = 0 := by
      by_contra hne
      have hlt := (Nat.div_lt_iff_lt_mul hp).mpr (hj.trans_le hread.le)
      rw [(h.cursor.opened hne).1, List.getElem?_eq_getElem hlt] at hcur
      cases hcur
    obtain ⟨-, hnext⟩ := h.cursor.closed hmod
    have hdiv := Nat.div_add_mod' j p.chunksPerBlock
    obtain ⟨b, hget, hfirst, -⟩ := hread.firstFrom hp hlay hsmall (q := j / p.chunksPerBlock) (by omega)
    have hblocks : d.blocksInCheckpt = j / p.chunksPerBlock := by
      rw [h.blocks]
      split_ifs with h0
      · simp [h0]
      · obtain ⟨i, rfl⟩ : ∃ i, j = i + 1 := ⟨j - 1, by omega⟩
        rcases succ_mod_cases hp i with h1 | h1
        · rw [h1.2.2, Nat.add_sub_cancel]
        · omega
    unfold BlocksListed at hlist ⊢
    unfold checkptNextBlock checkptFindBlock
    rw [hnext, Option.bind_some, hfirst]
    split_ifs with hmax
    · change d.checkpt.blockList ++ [b] = (emptyBlocks p d₁).take (d.blocksInCheckpt + 1)
      rw [hlist, hblocks, List.take_add_one, hget]
      rfl
    · exact hlist

theorem checkptFill_listed (hp : 0 < p.chunksPerBlock) (hP : 0 < p.payload)
    (hsmall : p.chunksPerBlock * (p.endBlock + 1) < 2 ^ 31) (hlay : LaidOut p d₁)
    (hread : Readable p d₁ W m d.nand) (h : Behind p d₁ W r j d) (hr : r < m * p.payload)
    (hlist : BlocksListed p d₁ d) :
    BlocksListed p d₁ (checkptFill p d).1 := by
  have hsize : p.dataBytesPerChunk = checkptHdrSize + p.payload := by
    unfold Param.payload at hP ⊢
    omega
  have hoff := h.byteOffs
  have hlo := h.lo
  unfold checkptFill
  split_ifs with hfull
  · have hend : j * p.payload = r := by omega
    exact checkptFetch_listed hp hsmall hlay hread (Nat.lt_of_mul_lt_mul_right (hend.trans_lt hr)) h hlist
  · exact hlist

/-- The bytes the stream has are read, and the blocks they are in are listed. -/
theorem checkptRd_listed {nand : Nand} (hp : 0 < p.chunksPerBlock) (hP : 0 < p.payload)
    (hsmall : p.chunksPerBlock * (p.endBlock + 1) < 2 ^ 31) (hlay : LaidOut p d₁) (hread : Readable p d₁ W m nand)
    (hpages : W.length ≤ m * p.payload) (hmax : W.length ≤ mb * p.chunksPerBlock * p.payload) (n : ℕ) :
    ∀ (r : ℕ) (d : BlockDev), r + n ≤ W.length → d.nand = nand → d.checkpt.maxBlocks = mb →
      (∃ j, Behind p d₁ W r j d) → BlocksListed p d₁ d → BlocksListed p d₁ (checkptRd p n d).1 := by
  induction n with
  | zero => exact fun r d _ _ _ _ h => h
  | succ n ih =>
    rintro r d hr rfl rfl ⟨j, h⟩ hlist
    obtain ⟨hok, ⟨i, hload⟩, hn, hm⟩ := checkptFill_ok hp hP hsmall hlay hread (by omega) h (by omega)
    have hlist' := checkptFill_listed hp hP hsmall hlay hread h (by omega) hlist
    simp only [checkptRd, if_pos hok]
    generalize (checkptFill p d).1 = x at hload hn hm hlist'
    obtain ⟨-, hbehind⟩ := hload.take (by omega)
    exact ih (r + 1) { x with checkpt := x.checkpt.take.1 } (by omega) hn hm ⟨_, hbehind⟩ hlist'

/-- A reader stays one. -/
def Closed (d : BlockDev) : Prop :=
  d.checkpt.openWrite = false

theorem checkptFetch_closed (h : Closed d) : Closed (checkptFetch p d).1 := by
  refine checkptFetch_ind (fun _ => ?_) (fun _ => h) fun b x hx => ?_
  · unfold checkptNextBlock checkptFindBlock
    dsimp only
    split <;> exact h
  · unfold checkptReadPage checkptCheckChunkHdr
    dsimp only
    split_ifs <;> exact hx

theorem checkptRd_closed (n : ℕ) (h : Closed d) : Closed (checkptRd p n d).1 := by
  induction n generalizing d with
  | zero => exact h
  | succ n ih =>
    have hfill : Closed (checkptFill p d).1 := by
      unfold checkptFill
      split_ifs
      · exact checkptFetch_closed h
      · exact h
    unfold checkptRd
    dsimp only
    split_ifs
    · exact ih (d := { (checkptFill p d).1 with checkpt := (checkptFill p d).1.checkpt.take.1 }) hfill
    · exact hfill

/-- The reader's place : the cursor and the number of blocks it has found. -/
def atCursor (cp : CheckptCursor) (n : ℕ) (d : BlockDev) : BlockDev :=
  { d with checkpt := cp, blocksInCheckpt := n }

theorem checkptFetch_frame (d : BlockDev) : ∃ cp n, (checkptFetch p d).1 = atCursor cp n d := by
  refine checkptFetch_ind (P := fun x => ∃ cp n, x = atCursor cp n d) (fun _ => ?_) (fun _ => ⟨_, _, rfl⟩) ?_
  · unfold checkptNextBlock checkptFindBlock
    dsimp only
    split <;> exact ⟨_, _, rfl⟩
  · rintro b x ⟨cp, n, rfl⟩
    unfold checkptReadPage checkptCheckChunkHdr
    dsimp only
    split_ifs <;> exact ⟨_, _, rfl⟩

/-- Reading only moves the cursor. -/
theorem checkptRd_frame (n : ℕ) (d : BlockDev) : ∃ cp k, (checkptRd p n d).1 = atCursor cp k d := by
  induction n generalizing d with
  | zero => exact ⟨_, _, rfl⟩
  | succ n ih =>
    have hfill : ∃ cp k, (checkptFill p d).1 = atCursor cp k d := by
      unfold checkptFill
      split_ifs
      · exact checkptFetch_frame d
      · exact ⟨_, _, rfl⟩
    obtain ⟨cp, k, hfill⟩ := hfill
    unfold checkptRd
    dsimp only
    split_ifs
    · obtain ⟨cp', k', h⟩ := ih { (checkptFill p d).1 with checkpt := (checkptFill p d).1.checkpt.take.1 }
      refine ⟨cp', k', h.trans ?_⟩
      rw [hfill]
      rfl
    · exact ⟨cp, k, hfill⟩

end

/-! ## Bytes read -/

section

variable {g : Geometry} {e : Env} {W rest bs : List UInt8} {n : ℕ} {d d₁ : BlockDev} {s : ScanDev}

/-- The stream `W` was written to a device that had `d₁`, and a reader gets to its end. -/
structure HoldsStream (g : Geometry) (d₁ : BlockDev) (W : List UInt8) : Prop where
  payload : 0 < g.payload
  laidOut : LaidOut g d₁
  fits : W.length ≤ g.checkptMaxBlocks * g.chunksPerBlock * g.payload

/-- The reader has the bytes `rest` of the stream before it. -/
structure Ahead (g : Geometry) (d₁ : BlockDev) (W rest : List UInt8) (d : BlockDev) : Prop where
  behind : ∃ V j, W = V ++ rest ∧ Behind g d₁ W V.length j d
  readable : Readable g d₁ W (pagesOf g W) d.nand
  maxBlocks : d.checkpt.maxBlocks = g.checkptMaxBlocks
  listed : BlocksListed g d₁ d
  closed : Closed d

theorem Ahead.congr (h : Ahead g d₁ W rest d) {d' : BlockDev} (hflash : d'.nand.flash = d.nand.flash)
    (hbad : d'.nand.markedBad = d.nand.markedBad) (hcp : d'.checkpt = d.checkpt)
    (hblocks : d'.blocksInCheckpt = d.blocksInCheckpt) : Ahead g d₁ W rest d' := by
  obtain ⟨V, j, hV, hj⟩ := h.behind
  refine ⟨⟨V, j, hV, ⟨hj.lo, hj.hi, hcp ▸ hj.cursor, by rw [hcp]; exact hj.byteOffs, by rw [hcp]; exact hj.buffer,
      by rw [hcp]; exact hj.sum, by rw [hcp]; exact hj.xor, by rw [hblocks]; exact hj.blocks⟩⟩,
    ⟨h.readable.le, by rw [hflash]; exact h.readable.page, by rw [hflash]; exact h.readable.other,
      hbad.trans h.readable.bad⟩, by rw [hcp]; exact h.maxBlocks, ?_, ?_⟩
  · unfold BlocksListed
    rw [hcp, hblocks]
    exact h.listed
  · unfold Closed
    rw [hcp]
    exact h.closed

/-- Before the first byte. -/
theorem checkptOpenRead_ahead (hh : HoldsStream g d₁ W) (hread : Readable g d₁ W (pagesOf g W) d.nand) :
    Ahead g d₁ W W (checkptOpenRead g d) :=
  ⟨⟨[], 0, rfl, checkptOpenRead_behind hh.payload W d⟩, hread, rfl, rfl, rfl⟩

/-- The bytes that are asked for are read. -/
theorem checkptRd_ahead (hh : HoldsStream g d₁ W) (h : Ahead g d₁ W (bs ++ rest) d) :
    ∃ cp n, (checkptRd g bs.length d).2 = bs ∧ (checkptRd g bs.length d).1 = atCursor cp n d ∧
      Ahead g d₁ W rest (atCursor cp n d) := by
  have hp : 0 < g.chunksPerBlock := by
    have := g.two_le_chunksPerBlock
    omega
  obtain ⟨V, j, hV, hj⟩ := h.behind
  have hlen : V.length + bs.length ≤ W.length := by
    rw [hV, List.length_append, List.length_append]
    omega
  obtain ⟨h1, h2, h3, h4⟩ := checkptRd_spec hp hh.payload g.chunks_lt hh.laidOut h.readable
    (length_le_pagesOf hh.payload W) hh.fits bs.length V.length d hlen rfl h.maxBlocks ⟨j, hj⟩
  have hlist := checkptRd_listed hp hh.payload g.chunks_lt hh.laidOut h.readable
    (length_le_pagesOf hh.payload W) hh.fits bs.length V.length d hlen rfl h.maxBlocks ⟨j, hj⟩ h.listed
  obtain ⟨cp, n, hframe⟩ := checkptRd_frame (p := g) bs.length d
  refine ⟨cp, n, ?_, hframe, ?_⟩
  · rw [h1, hV, List.drop_left, List.take_left]
  · rw [← hframe]
    obtain ⟨j', hj'⟩ := h4
    exact ⟨⟨V ++ bs, j', by rw [hV, List.append_assoc], by rw [List.length_append]; exact hj'⟩,
      h2 ▸ h.readable, h3, hlist, checkptRd_closed bs.length h.closed⟩

/-- The reader's place on a device that is read. -/
def ScanDev.atCursor (cp : CheckptCursor) (n : ℕ) (s : ScanDev) : ScanDev :=
  s.mapBlk (Yaffs.atCursor cp n)

theorem rdBytes_ahead (hh : HoldsStream g d₁ W) (h : Ahead g d₁ W (bs ++ rest) s.toBlockDev) (hn : bs.length = n) :
    ∃ cp k, rdBytes g n s = (s.atCursor cp k, some bs) ∧ Ahead g d₁ W rest (s.atCursor cp k).toBlockDev := by
  obtain ⟨cp, k, h1, h2, h3⟩ := checkptRd_ahead hh h
  refine ⟨cp, k, ?_, h3⟩
  subst hn
  unfold rdBytes ScanDev.onDev Dev.onBlocks
  dsimp only
  rw [h1, h2, if_pos rfl]
  rfl

/-! ## Markers and the sum -/

theorem length_validityCp (head : ℕ) : (validityCp head).length = checkptValiditySize :=
  length_wordBytes _

/-- A validity marker is what it was. -/
theorem rdCheckptValidityMarker_ahead (hh : HoldsStream g d₁ W) {head : ℕ} (hhead : head < 2)
    (h : Ahead g d₁ W (validityCp head ++ rest) s.toBlockDev) : ∃ cp k,
      rdCheckptValidityMarker g head s = (s.atCursor cp k, true) ∧ Ahead g d₁ W rest (s.atCursor cp k).toBlockDev := by
  obtain ⟨cp, k, h1, h2⟩ := rdBytes_ahead hh h (length_validityCp head)
  refine ⟨cp, k, ?_, h2⟩
  have hword : ∀ i (hi : i < [checkptValiditySize, yaffsMagic, checkpointVersion, head].length),
      rdWord (validityCp head) i = [checkptValiditySize, yaffsMagic, checkpointVersion, head][i] % 2 ^ 32 :=
    rdWord_ofWords _
  have h0 : rdWord (validityCp head) 0 = checkptValiditySize := hword 0 (by simp)
  have h1' : rdWord (validityCp head) 1 = yaffsMagic := hword 1 (by simp)
  have h2' : rdWord (validityCp head) 2 = checkpointVersion := hword 2 (by simp)
  have h3 : rdWord (validityCp head) 3 = head := (hword 3 (by simp)).trans (Nat.mod_eq_of_lt (by
    change head < _
    omega))
  unfold rdCheckptValidityMarker
  rw [h1]
  simp [h0, h1', h2', h3]

/-- The sum is that of the bytes before it. -/
theorem rdCheckptSum_ahead (hh : HoldsStream g d₁ W) {V : List UInt8} (hW : W = V ++ sumCp V)
    (h : Ahead g d₁ W (sumCp V) s.toBlockDev) : ∃ cp k, rdCheckptSum g s = (s.atCursor cp k, true) ∧
      Ahead g d₁ W [] (s.atCursor cp k).toBlockDev := by
  have h' : Ahead g d₁ W (sumCp V ++ []) s.toBlockDev := by rwa [List.append_nil]
  obtain ⟨cp, k, h1, h2⟩ := rdBytes_ahead hh h' (length_sumCp V)
  refine ⟨cp, k, ?_, h2⟩
  obtain ⟨V', j, hV, hj⟩ := h.behind
  obtain rfl : V' = V := by
    rw [hW] at hV
    exact (List.append_cancel_right hV).symm
  have htake : W.take V'.length = V' := by rw [hV, List.take_left]
  have hsum : checkptSum s.toBlockDev = (byteSum V' * 2 ^ 8 % 2 ^ 32) ||| (byteXor V').toNat := by
    rw [checkptSum, hj.sum, hj.xor, htake]
  have hlt : (byteSum V' * 2 ^ 8 % 2 ^ 32) ||| (byteXor V').toNat < 2 ^ 32 :=
    Nat.or_lt_two_pow (Nat.mod_lt _ (by decide)) ((byteXor V').toNat_lt.trans (by decide))
  have hword : rdWord (sumCp V') 0 = (byteSum V' * 2 ^ 8 % 2 ^ 32) ||| (byteXor V').toNat := by
    have := rdWord_ofWords [(byteSum V' * 2 ^ 8 % 2 ^ 32) ||| (byteXor V').toNat] 0 (by simp)
    rw [List.flatMap_singleton] at this
    exact this.trans (Nat.mod_eq_of_lt hlt)
  unfold rdCheckptSum
  rw [h1]
  dsimp only
  rw [hsum, hword, decide_eq_true rfl]

/-! ## The device -/

/-- The counters, the block table and the chunks in use that are read. -/
def loadDev (g : Geometry) (cp table bits : List UInt8) (s : ScanDev) : ScanDev :=
  ((s.mapDev (checkptDevToDev cp)).mapBlk (loadBlockInfo g table)).mapBlk (loadChunkBits g bits)

/-- The words of `struct yaffs_checkpt_dev`. -/
structure DevWords (d : Dev) (c : List UInt8) : Prop where
  structType : rdWord c 0 = checkptDevSize
  nErasedBlocks : rdWord c 1 = u32 d.nErasedBlocks % 2 ^ 32
  allocBlock : rdWord c 2 = d.alloc.block.getD (2 ^ 32 - 1) % 2 ^ 32
  allocPage : rdWord c 3 = d.alloc.page % 2 ^ 32
  nFreeChunks : rdWord c 4 = u32 d.nFreeChunks % 2 ^ 32
  nDeletedFiles : rdWord c 5 = u32 d.nDeletedFiles % 2 ^ 32
  seqNumber : rdWord c 8 = d.seqNumber % 2 ^ 32

theorem devWords (d : Dev) : DevWords d (devCp d) := by
  have hword := rdWord_ofWords [checkptDevSize, u32 d.nErasedBlocks, d.alloc.block.getD (2 ^ 32 - 1), d.alloc.page,
    u32 d.nFreeChunks, u32 d.nDeletedFiles, u32 d.nUnlinkedFiles, 0, d.seqNumber]
  constructor
  · exact hword 0 (by simp)
  · exact hword 1 (by simp)
  · exact hword 2 (by simp)
  · exact hword 3 (by simp)
  · exact hword 4 (by simp)
  · exact hword 5 (by simp)
  · exact hword 8 (by simp)

theorem length_devCp (d : Dev) : (devCp d).length = checkptDevSize := by
  rw [devCp, length_wordBytes]
  rfl

theorem rdCheckptDev_ahead (hh : HoldsStream g d₁ W) {c table bits : List UInt8} (hc : c.length = checkptDevSize)
    (htype : rdWord c 0 = checkptDevSize)
    (htable : table.length = (g.endBlock - g.startBlock + 1) * blockInfoSize)
    (hbits : bits.length = (g.endBlock - g.startBlock + 1) * g.chunkBitStride)
    (h : Ahead g d₁ W (c ++ (table ++ (bits ++ rest))) s.toBlockDev) : ∃ cp k,
      rdCheckptDev g s = ((loadDev g c table bits s).atCursor cp k, true) ∧
      Ahead g d₁ W rest ((loadDev g c table bits s).atCursor cp k).toBlockDev := by
  obtain ⟨cp1, k1, h1, hcp1⟩ := rdBytes_ahead hh h hc
  have hload1 : Ahead g d₁ W (table ++ (bits ++ rest))
      ((s.atCursor cp1 k1).mapDev (checkptDevToDev c)).toBlockDev := hcp1.congr rfl rfl rfl rfl
  obtain ⟨cp2, k2, h2, hcp2⟩ := rdBytes_ahead hh hload1 htable
  have hload2 : Ahead g d₁ W (bits ++ rest)
      ((((s.atCursor cp1 k1).mapDev (checkptDevToDev c)).atCursor cp2 k2).mapBlk (loadBlockInfo g table)).toBlockDev :=
    hcp2.congr rfl rfl rfl rfl
  obtain ⟨cp3, k3, h3, hcp3⟩ := rdBytes_ahead hh hload2 hbits
  refine ⟨cp3, k3, ?_, hcp3.congr rfl rfl rfl rfl⟩
  unfold rdCheckptDev
  rw [h1]
  dsimp only
  rw [if_neg (by rw [htype]; simp), h2]
  dsimp only
  rw [h3]
  rfl

/-- The counters and the allocation of a device are of the widths they are stored in. -/
structure DevFits (d : Dev) : Prop where
  nErasedBlocks : IsInt d.nErasedBlocks
  nFreeChunks : IsInt d.nFreeChunks
  nDeletedFiles : IsInt d.nDeletedFiles
  nUnlinkedFiles : IsInt d.nUnlinkedFiles
  allocBlock : ∀ b, d.alloc.block = some b → b < 2 ^ 32 - 1
  allocPage : d.alloc.page < 2 ^ 32
  seqNumber : d.seqNumber < 2 ^ 32

/-- The counters and the allocation of `s` are those of `d`. -/
structure SameCounters (d : Dev) (s : Dev) : Prop where
  nErasedBlocks : s.nErasedBlocks = d.nErasedBlocks
  nFreeChunks : s.nFreeChunks = d.nFreeChunks
  nDeletedFiles : s.nDeletedFiles = d.nDeletedFiles
  allocBlock : s.alloc.block = d.alloc.block
  allocPage : s.alloc.page = d.alloc.page
  seqNumber : s.seqNumber = d.seqNumber

theorem storedBlock {b : Option ℕ} {w : ℕ} (h : ∀ n, b = some n → n < 2 ^ 32 - 1)
    (hw : w = b.getD (2 ^ 32 - 1) % 2 ^ 32) : blockOfStored w = b := by
  unfold blockOfStored
  cases b with
  | none =>
    rw [Option.getD_none, Nat.mod_eq_of_lt (by norm_num)] at hw
    rw [hw, if_pos (by norm_num)]
  | some n =>
    have hlt := h n rfl
    rw [Option.getD_some, Nat.mod_eq_of_lt (by omega)] at hw
    rw [hw, if_neg (by omega)]

theorem loadDev_counters {d : Dev} (h : DevFits d) {c : List UInt8} (hc : c = devCp d) (table bits : List UInt8)
    (s : ScanDev) : SameCounters d (loadDev g c table bits s).toDev := by
  have hw := devWords d
  rw [← hc] at hw
  exact ⟨rdInt_eq h.nErasedBlocks hw.nErasedBlocks, rdInt_eq h.nFreeChunks hw.nFreeChunks,
    rdInt_eq h.nDeletedFiles hw.nDeletedFiles, storedBlock h.allocBlock hw.allocBlock,
    hw.allocPage.trans (Nat.mod_eq_of_lt h.allocPage), hw.seqNumber.trans (Nat.mod_eq_of_lt h.seqNumber)⟩

end

end Yaffs
