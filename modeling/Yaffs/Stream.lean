import Yaffs.Paging
import Yaffs.Summary

/-!
# The checkpoint stream

`yaffs2_checkpt_rd` of `yaffs_checkptrw.c`, and what it makes of the bytes `yaffs2_checkpt_wr` was
given between an open and a close. The reader's calls on the driver succeed; of the pages of flash
only those of the checkpoint have a header of it.
-/

namespace Yaffs

open Paging

section

variable (p : Param) (e : Env)

/-! ## The reader -/

/-- `yaffs2_checkpt_open`, for reading. -/
def checkptOpenRead (d : BlockDev) : BlockDev :=
  { d with
    blocksInCheckpt := 0
    checkpt :=
      { d.checkpt with
        openWrite := false, pageSeq := 0, byteCount := 0, sum := 0, xor := 0
        curBlock := none, curChunk := 0, nextBlock := some p.startBlock
        byteOffs := p.dataBytesPerChunk
        maxBlocks := (p.endBlock - p.startBlock) / 16 + 2, blockList := [] } }

/-- The block begins with a page of a checkpoint, and is not marked bad. -/
def isCheckptBlock (nand : Nand) (b : ℕ) : Bool :=
  (pageTags (nand.flash (b * p.chunksPerBlock))).seqNumber = sequenceCheckpointData && !nand.markedBad b

/-- `yaffs2_checkpt_find_block`. -/
def checkptFindBlock (d : BlockDev) : BlockDev :=
  let found :=
    if d.blocksInCheckpt < d.checkpt.maxBlocks then
      d.checkpt.nextBlock.bind fun next => firstFrom (isCheckptBlock p d.nand) next (p.endBlock + 1)
    else none
  match found with
  | some b =>
    { d with
      blocksInCheckpt := d.blocksInCheckpt + 1
      checkpt :=
        { d.checkpt with
          nextBlock := some (pageTags (d.nand.flash (b * p.chunksPerBlock))).objId
          curBlock := some b
          blockList := d.checkpt.blockList ++ [b] } }
  | none => { d with checkpt := { d.checkpt with nextBlock := none, curBlock := none } }

/-- The chunk header and the rest of the data area of a page. -/
def PageData.checkptChunk : PageData → CheckptChunkHdr × List UInt8
  | .checkpt h bs => (h, bs)
  | _ => (⟨0, 0, 0, 0⟩, [])

/-- `yaffs2_checkpt_check_chunk_hdr`. -/
def checkptCheckChunkHdr (d : BlockDev) : BlockDev × Bool :=
  let cp := d.checkpt
  ({ d with checkpt := { cp with byteOffs := checkptHdrSize } },
    decide (cp.bufferHdr = ⟨checkpointVersion, cp.pageSeq, cp.sum, cp.xor.toNat⟩))

/-- The cursor of a reader moves behind the page it read. -/
def CheckptCursor.next (cp : CheckptCursor) : CheckptCursor :=
  { cp with
    pageSeq := cp.pageSeq + 1
    curChunk := cp.curChunk + 1
    curBlock := if p.chunksPerBlock ≤ cp.curChunk + 1 then none else cp.curBlock }

/-- `yaffs2_checkpt_rd` reads a page of the block `b` into its buffer; `false` when it is not the next
page of the checkpoint. -/
def checkptReadPage (b : ℕ) (d : BlockDev) : BlockDev × Bool :=
  let page := d.nand.flash (b * p.chunksPerBlock + d.checkpt.curChunk)
  let chunk := (page.elim .blank Page.data).checkptChunk
  let d := { d with checkpt := { d.checkpt with bufferHdr := chunk.1, buffer := chunk.2 } }
  let tags := pageTags page
  if tags.chunkId ≠ d.checkpt.pageSeq + 1 ∨ tags.seqNumber ≠ sequenceCheckpointData then (d, false)
  else
    let r := checkptCheckChunkHdr d
    if r.2 then ({ r.1 with checkpt := r.1.checkpt.next p }, true) else r

/-- The reader goes to the first page of the next block. -/
def checkptNextBlock (d : BlockDev) : BlockDev :=
  let d := checkptFindBlock p d
  { d with checkpt := { d.checkpt with curChunk := 0 } }

/-- `yaffs2_checkpt_rd` gets the next page; `false` when it bails out. -/
def checkptFetch (d : BlockDev) : BlockDev × Bool :=
  let d := if d.checkpt.curBlock = none then checkptNextBlock p d else d
  match d.checkpt.curBlock with
  | none => (d, false)
  | some b => checkptReadPage p b d

/-- `yaffs2_checkpt_rd` sees to it that there is a byte in the buffer; `false` when it bails out. -/
def checkptFill (d : BlockDev) : BlockDev × Bool :=
  if p.dataBytesPerChunk ≤ d.checkpt.byteOffs then checkptFetch p d else (d, true)

/-- Take one byte from the buffer. -/
def CheckptCursor.take (cp : CheckptCursor) : CheckptCursor × UInt8 :=
  let x := cp.buffer.getD (cp.byteOffs - checkptHdrSize) 0
  ({ cp with
      sum := (cp.sum + x.toNat) % 2 ^ 32
      xor := cp.xor ^^^ x
      byteOffs := cp.byteOffs + 1
      byteCount := cp.byteCount + 1 }, x)

/-- `yaffs2_checkpt_rd`, with the bytes read : their number is what it returns. -/
def checkptRd : ℕ → BlockDev → BlockDev × List UInt8
  | 0, d => (d, [])
  | n + 1, d =>
    let r := checkptFill p d
    if r.2 then
      let t := r.1.checkpt.take
      let q := checkptRd n { r.1 with checkpt := t.1 }
      (q.1, t.2 :: q.2)
    else (r.1, [])

/-- Calls of `yaffs2_checkpt_rd`, one after the other whatever they return. -/
def checkptRdCalls : List ℕ → BlockDev → List (List UInt8)
  | [], _ => []
  | n :: ns, d =>
    let r := checkptRd p n d
    r.2 :: checkptRdCalls ns r.1

/-! ## What happens in a call of the writer -/

/-- The places of the buffer `yaffs2_checkpt_wr` stores to. -/
def wrOffsets (byteAt : BlockDev → ℕ → UInt8) : ℕ → ℕ → BlockDev → List ℕ
  | 0, _, _ => []
  | n + 1, i, d =>
    let offs := d.checkpt.byteOffs
    let d := { d with checkpt := d.checkpt.put (byteAt d i) }
    offs :: if p.dataBytesPerChunk ≤ d.checkpt.byteOffs then
      let r := checkptFlushBuffer p e d
      if r.2 then wrOffsets byteAt n (i + 1) r.1 else []
    else wrOffsets byteAt n (i + 1) d

/-- `yaffs2_checkpt_wr` fails to find a block. -/
def wrFails (byteAt : BlockDev → ℕ → UInt8) : ℕ → ℕ → BlockDev → Bool
  | 0, _, _ => false
  | n + 1, i, d =>
    let d := { d with checkpt := d.checkpt.put (byteAt d i) }
    if p.dataBytesPerChunk ≤ d.checkpt.byteOffs then
      let r := checkptFlushBuffer p e d
      if r.2 then wrFails byteAt n (i + 1) r.1 else true
    else wrFails byteAt n (i + 1) d

/-- Calls of `yaffs2_checkpt_wr`, one after the other whatever they return; `false` when one returns
less than its byte count. -/
def checkptWrCalls : List (List UInt8) → BlockDev → BlockDev × Bool
  | [], d => (d, true)
  | bs :: calls, d =>
    let r := checkptWr p e (.ofBytes bs) d
    let q := checkptWrCalls calls r.1
    (q.1, r.2 && q.2)

/-- Every store lies in the buffer. -/
def StoresInside : List (List UInt8) → BlockDev → Prop
  | [], _ => True
  | bs :: calls, d =>
    (∀ o ∈ wrOffsets p e (CheckptRecord.ofBytes bs).byteAt bs.length 0 d, o < p.dataBytesPerChunk) ∧
    StoresInside calls (checkptWr p e (.ofBytes bs) d).1

/-- A call that fails to find a block returns less than its byte count. -/
def FailuresShow : List (List UInt8) → BlockDev → Prop
  | [], _ => True
  | bs :: calls, d =>
    (wrFails p e (CheckptRecord.ofBytes bs).byteAt bs.length 0 d = true →
      (checkptWr p e (.ofBytes bs) d).2 = false) ∧
    FailuresShow calls (checkptWr p e (.ofBytes bs) d).1

/-- A device with the flash of `d` gives the bytes `W` back, however the calls split them. -/
def ReadsBack (W : List UInt8) (d : BlockDev) : Prop :=
  ∀ d' : BlockDev, d'.nand.flash = d.nand.flash → d'.nand.markedBad = d.nand.markedBad →
    ∀ ns : List ℕ, ns.sum = W.length →
      (checkptRdCalls p ns (checkptOpenRead p d')).map List.length = ns ∧
      (checkptRdCalls p ns (checkptOpenRead p d')).flatten = W

/-- What the stream promises of the calls made between an open of `d` and the close. -/
structure StreamOk (calls : List (List UInt8)) (d : BlockDev) : Prop where
  inside : StoresInside p e calls (checkptOpen p e d).1
  failures : FailuresShow p e calls (checkptOpen p e d).1
  readsBack : (checkptWrCalls p e calls (checkptOpen p e d).1).2 = true → (∀ n, e.writeOk n = true) →
    ReadsBack p calls.flatten (checkptClose p e (checkptWrCalls p e calls (checkptOpen p e d).1).1)

end

/-! ## The pages of a stream -/

section

variable (p : Param)

/-- The bytes of the stream a page takes. -/
def Param.payload : ℕ :=
  p.dataBytesPerChunk - checkptHdrSize

/-- `dev->checkpt_sum` behind the bytes `W`. -/
def byteSum (W : List UInt8) : ℕ :=
  W.foldl (fun s x => (s + x.toNat) % 2 ^ 32) 0

/-- `dev->checkpt_xor` behind the bytes `W`. -/
def byteXor (W : List UInt8) : UInt8 :=
  W.foldl (· ^^^ ·) 0

/-- The header of page `j` of a stream. -/
def streamHdr (W : List UInt8) (j : ℕ) : CheckptChunkHdr :=
  ⟨checkpointVersion, j, byteSum (W.take (j * p.payload)), (byteXor (W.take (j * p.payload))).toNat⟩

/-- Page `j` of a stream over the blocks `E`, written over the tags `t`. -/
def streamPage (E : List ℕ) (W : List UInt8) (t : ExtTags) (j : ℕ) : Page :=
  ⟨{ t with
      chunkUsed := false
      isDeleted := false
      objId := nextFrom p.startBlock E (j / p.chunksPerBlock + 1)
      chunkId := j + 1
      seqNumber := sequenceCheckpointData
      nBytes := p.dataBytesPerChunk },
    .checkpt (streamHdr p W j) (pad p.payload 0 (page p.payload W j))⟩

/-- The chunk page `j` of a stream over the blocks `E` is in. -/
def streamChunk (E : List ℕ) (j : ℕ) : ℕ :=
  E.getD (j / p.chunksPerBlock) 0 * p.chunksPerBlock + j % p.chunksPerBlock

/-- The empty blocks of the device, in order. -/
def emptyBlocks (d : BlockDev) : List ℕ :=
  hits (fun b => decide ((d.blockInfo b).blockState = .empty)) p.startBlock (p.endBlock + 1)

/-- The cursor stands behind `j` pages in the blocks `E`. -/
structure CursorAt (E : List ℕ) (j : ℕ) (cp : CheckptCursor) : Prop where
  pageSeq : cp.pageSeq = j
  closed : j % p.chunksPerBlock = 0 →
    cp.curBlock = none ∧ cp.nextBlock = some (nextFrom p.startBlock E (j / p.chunksPerBlock))
  opened : j % p.chunksPerBlock ≠ 0 → cp.curBlock = E[j / p.chunksPerBlock]? ∧
    cp.curChunk = j % p.chunksPerBlock ∧
    cp.nextBlock = some (nextFrom p.startBlock E (j / p.chunksPerBlock + 1))

/-- The cursor stands at page `j`, with its block found. -/
structure CursorOn (E : List ℕ) (j : ℕ) (cp : CheckptCursor) : Prop where
  pageSeq : cp.pageSeq = j
  curBlock : cp.curBlock = E[j / p.chunksPerBlock]?
  curChunk : cp.curChunk = j % p.chunksPerBlock
  nextBlock : cp.nextBlock = some (nextFrom p.startBlock E (j / p.chunksPerBlock + 1))

end

section

variable {p : Param} {E W : List ℕ} {j : ℕ} {cp : CheckptCursor}

theorem succ_mod_cases {c : ℕ} (hc : 0 < c) (j : ℕ) :
    (j % c + 1 = c ∧ (j + 1) % c = 0 ∧ (j + 1) / c = j / c + 1) ∨
    (j % c + 1 < c ∧ (j + 1) % c = j % c + 1 ∧ (j + 1) / c = j / c) := by
  have hlt := Nat.mod_lt j hc
  have hdiv := Nat.div_add_mod j c
  rcases (show j % c + 1 = c ∨ j % c + 1 < c by omega) with h | h
  · have heq : j + 1 = c * (j / c + 1) := by rw [Nat.mul_add, Nat.mul_one]; omega
    exact Or.inl ⟨h, by rw [heq, Nat.mul_mod_right], by rw [heq, Nat.mul_div_cancel_left _ hc]⟩
  · have heq : j + 1 = c * (j / c) + (j % c + 1) := by omega
    refine Or.inr ⟨h, ?_, ?_⟩
    · rw [heq, Nat.mul_add_mod, Nat.mod_eq_of_lt h]
    · rw [heq, Nat.mul_add_div hc, Nat.div_eq_of_lt h, Nat.add_zero]

/-- A page writer's and a page reader's cursor go on. -/
theorem CursorOn.step (hp : 0 < p.chunksPerBlock) (h : CursorOn p E j cp) {cp' : CheckptCursor}
    (hseq : cp'.pageSeq = j + 1) (hnext : cp'.nextBlock = cp.nextBlock)
    (hend : j % p.chunksPerBlock + 1 = p.chunksPerBlock → cp'.curBlock = none)
    (hgo : j % p.chunksPerBlock + 1 < p.chunksPerBlock →
      cp'.curBlock = cp.curBlock ∧ cp'.curChunk = cp.curChunk + 1) : CursorAt p E (j + 1) cp' := by
  rcases succ_mod_cases hp j with ⟨h1, h2, h3⟩ | ⟨h1, h2, h3⟩
  · exact ⟨hseq, fun _ => ⟨hend h1, by rw [hnext, h.nextBlock, h3]⟩, fun hne => absurd h2 hne⟩
  · refine ⟨hseq, fun h0 => by omega, fun _ => ?_⟩
    obtain ⟨hblock, hchunk⟩ := hgo h1
    exact ⟨by rw [hblock, h.curBlock, h3], by rw [hchunk, h.curChunk, h2], by rw [hnext, h.nextBlock, h3]⟩

theorem CursorOn.advance (hp : 0 < p.chunksPerBlock) (h : CursorOn p E j cp) :
    CursorAt p E (j + 1) (cp.advance p) := by
  have hc := h.curChunk
  refine h.step hp ?_ ?_ (fun h1 => ?_) fun h1 => ?_ <;> unfold CheckptCursor.advance <;> rw [hc]
  · split_ifs <;> exact congrArg (· + 1) h.pageSeq
  · split_ifs <;> rfl
  · rw [if_pos h1.ge]
  · rw [if_neg (by omega)]
    exact ⟨rfl, rfl⟩

theorem CursorOn.next (hp : 0 < p.chunksPerBlock) (h : CursorOn p E j cp) :
    CursorAt p E (j + 1) (cp.next p) := by
  have hc := h.curChunk
  refine h.step hp (congrArg (· + 1) h.pageSeq) rfl (fun h1 => ?_) fun h1 => ?_
  · exact if_pos (by rw [hc]; exact h1.ge)
  · exact ⟨if_neg (by rw [hc]; omega), rfl⟩

/-- In the middle of a block, the cursor has its block. -/
theorem CursorAt.on (h : CursorAt p E j cp) (hne : j % p.chunksPerBlock ≠ 0) : CursorOn p E j cp :=
  ⟨h.pageSeq, (h.opened hne).1, (h.opened hne).2.1, (h.opened hne).2.2⟩

end

/-! ## Writing pages -/

section

variable {p : Param} {e : Env} {E : List ℕ} {W : List UInt8} {x : UInt8} {j : ℕ} {d d₁ : BlockDev}

theorem streamChunk_div (hp : 0 < p.chunksPerBlock) (E : List ℕ) (i : ℕ) :
    streamChunk p E i / p.chunksPerBlock = E.getD (i / p.chunksPerBlock) 0 := by
  rw [streamChunk, Nat.mul_comm, Nat.mul_add_div hp, Nat.div_eq_of_lt (Nat.mod_lt _ hp), Nat.add_zero]

theorem streamChunk_mod (E : List ℕ) (i : ℕ) :
    streamChunk p E i % p.chunksPerBlock = i % p.chunksPerBlock := by
  rw [streamChunk, Nat.mul_comm, Nat.mul_add_mod, Nat.mod_mod]

/-- The pages of a stream are in chunks of their own. -/
theorem streamChunk_inj (hp : 0 < p.chunksPerBlock) (hE : E.Nodup) {i : ℕ} (hi : i < E.length * p.chunksPerBlock)
    (hj : j < E.length * p.chunksPerBlock) (h : streamChunk p E i = streamChunk p E j) : i = j := by
  have hmod := streamChunk_mod (p := p) E i
  rw [h, streamChunk_mod] at hmod
  have hdiv := streamChunk_div hp E i
  have hi' := (Nat.div_lt_iff_lt_mul hp).mpr hi
  have hj' := (Nat.div_lt_iff_lt_mul hp).mpr hj
  rw [h, streamChunk_div hp, List.getD_eq_getElem?_getD, List.getD_eq_getElem?_getD,
    List.getElem?_eq_getElem hi', List.getElem?_eq_getElem hj', Option.getD_some, Option.getD_some] at hdiv
  have hblock := (List.Nodup.getElem_inj_iff hE).mp hdiv
  rw [← Nat.div_add_mod i p.chunksPerBlock, ← Nat.div_add_mod j p.chunksPerBlock, hblock, hmod]

/-- The first `j` pages of the stream `W` are on flash, in blocks that were empty in `d₁`. -/
structure OnStream (p : Param) (e : Env) (d₁ : BlockDev) (W : List UInt8) (j : ℕ) (d : BlockDev) : Prop where
  le : j ≤ (emptyBlocks p d₁).length * p.chunksPerBlock
  page : (∀ n, e.writeOk n = true) → ∀ i < j, ∃ t,
    d.nand.flash (streamChunk p (emptyBlocks p d₁) i) = some (streamPage p (emptyBlocks p d₁) W t i)
  other : ∀ c, (∀ i < j, c ≠ streamChunk p (emptyBlocks p d₁) i) → d.nand.flash c = d₁.nand.flash c
  state : ∀ b, (∀ i < j, b ≠ streamChunk p (emptyBlocks p d₁) i / p.chunksPerBlock) →
    (d.blockInfo b).blockState = (d₁.blockInfo b).blockState
  bad : d.nand.markedBad = d₁.nand.markedBad
  erased : d.nErasedBlocks = d₁.nErasedBlocks

/-- The search for an erased block ends with the next empty one. -/
theorem checkptFindErasedBlock_on (hp : 0 < p.chunksPerBlock) (h : OnStream p e d₁ W j d)
    (hat : CursorAt p (emptyBlocks p d₁) j d.checkpt) (hres : (p.nReservedBlocks : ℤ) < d₁.nErasedBlocks)
    (hmod : j % p.chunksPerBlock = 0) :
    (checkptFindErasedBlock p d).checkpt.curBlock = (emptyBlocks p d₁)[j / p.chunksPerBlock]? ∧
    (checkptFindErasedBlock p d).checkpt.nextBlock =
      ((emptyBlocks p d₁)[j / p.chunksPerBlock]?).map (· + 1) := by
  have hq : j / p.chunksPerBlock ≤ (emptyBlocks p d₁).length := by
    refine Nat.div_le_of_le_mul ?_
    rw [Nat.mul_comm]
    exact h.le
  have hfirst := firstFrom_next hq
  have hfound : (if nextFrom p.startBlock (emptyBlocks p d₁) (j / p.chunksPerBlock) ≤ p.endBlock ∧
      (p.nReservedBlocks : ℤ) < d.nErasedBlocks then
      firstFrom (fun b => decide ((d.blockInfo b).blockState = .empty))
        (nextFrom p.startBlock (emptyBlocks p d₁) (j / p.chunksPerBlock)) (p.endBlock + 1)
      else none) = (emptyBlocks p d₁)[j / p.chunksPerBlock]? := by
    rw [← firstFrom_congr fun b hb hb' => ?_] at hfirst
    · split_ifs with hend
      · exact hfirst
      · rw [h.erased] at hend
        have hle : p.endBlock + 1 ≤ nextFrom p.startBlock (emptyBlocks p d₁) (j / p.chunksPerBlock) := by
          by_contra hlt
          exact hend ⟨by omega, hres⟩
        refine Eq.trans ?_ hfirst
        change none = firstFrom _ (nextFrom p.startBlock (emptyBlocks p d₁) _) _
        rw [firstFrom, Nat.sub_eq_zero_of_le hle]
        rfl
    · have hstate := h.state b fun i hi heq => ?_
      · simp only [hstate]
      · have hi' : i / p.chunksPerBlock < j / p.chunksPerBlock := by
          rw [Nat.div_lt_iff_lt_mul hp]
          have := Nat.div_add_mod j p.chunksPerBlock
          rw [Nat.mul_comm]
          omega
        rw [streamChunk_div hp, List.getD_eq_getElem?_getD] at heq
        have hsome := List.getElem?_eq_getElem (l := emptyBlocks p d₁) (show i / p.chunksPerBlock < _ by omega)
        rw [hsome, Option.getD_some] at heq
        have := lt_nextFrom hi' hq hsome
        omega
  unfold checkptFindErasedBlock
  rw [(hat.closed hmod).2]
  exact ⟨hfound, congrArg (Option.map (· + 1)) hfound⟩

/-- A page goes into the next chunk of the stream. -/
theorem OnStream.write (hp : 0 < p.chunksPerBlock) (h : OnStream p e d₁ W j d)
    (hj : j < (emptyBlocks p d₁).length * p.chunksPerBlock) {x : BlockDev} {t : ExtTags}
    (hflash : (∀ n, e.writeOk n = true) → x.nand.flash (streamChunk p (emptyBlocks p d₁) j) =
      some (streamPage p (emptyBlocks p d₁) W t j))
    (hother : ∀ c, c ≠ streamChunk p (emptyBlocks p d₁) j → x.nand.flash c = d.nand.flash c)
    (hstate : ∀ b, b ≠ streamChunk p (emptyBlocks p d₁) j / p.chunksPerBlock →
      (x.blockInfo b).blockState = (d.blockInfo b).blockState)
    (hbad : x.nand.markedBad = d.nand.markedBad) (herased : x.nErasedBlocks = d.nErasedBlocks) :
    OnStream p e d₁ W (j + 1) x where
  le := hj
  page hw i hi := by
    rcases Nat.lt_or_eq_of_le (Nat.le_of_lt_succ hi) with hlt | rfl
    · have hne : streamChunk p (emptyBlocks p d₁) i ≠ streamChunk p (emptyBlocks p d₁) j := fun heq =>
        hlt.ne (streamChunk_inj hp nodup_hits (hlt.trans hj) hj heq)
      rw [hother _ hne]
      exact h.page hw i hlt
    · exact ⟨t, hflash hw⟩
  other c hc := by
    rw [hother c (hc j (by omega))]
    exact h.other c fun i hi => hc i (by omega)
  state b hb := by
    rw [hstate b (hb j (by omega))]
    exact h.state b fun i hi => hb i (by omega)
  bad := hbad.trans h.bad
  erased := herased.trans h.erased

theorem checkptTakeBlock_eq (b : ℕ) (d : BlockDev) : (checkptTakeBlock b d).nand = d.nand ∧
    (checkptTakeBlock b d).nErasedBlocks = d.nErasedBlocks ∧
    ∀ b', b' ≠ b → ((checkptTakeBlock b d).blockInfo b').blockState = (d.blockInfo b').blockState := by
  unfold checkptTakeBlock
  split_ifs
  · exact ⟨rfl, rfl, fun b' hb' => by simp [BlockDev.setState, BlockDev.modBlock, hb']⟩
  · exact ⟨rfl, rfl, fun _ _ => rfl⟩

theorem advance_eq (p : Param) (cp : CheckptCursor) : (cp.advance p).sum = cp.sum ∧
    (cp.advance p).xor = cp.xor ∧ (cp.advance p).openWrite = cp.openWrite := by
  unfold CheckptCursor.advance
  split_ifs <;> exact ⟨rfl, rfl, rfl⟩

/-- What a successful flush leaves. -/
structure Flushed (p : Param) (e : Env) (d₁ : BlockDev) (W : List UInt8) (j : ℕ) (d d' : BlockDev) : Prop where
  onStream : OnStream p e d₁ W (j + 1) d'
  cursor : CursorAt p (emptyBlocks p d₁) (j + 1) d'.checkpt
  byteOffs : d'.checkpt.byteOffs = checkptHdrSize
  bufferHdr : d'.checkpt.bufferHdr = ⟨checkpointVersion, j + 1, d.checkpt.sum, d.checkpt.xor.toNat⟩
  buffer : d'.checkpt.buffer = List.replicate p.payload 0
  sum : d'.checkpt.sum = d.checkpt.sum
  xor : d'.checkpt.xor = d.checkpt.xor
  openWrite : d'.checkpt.openWrite = d.checkpt.openWrite

/-- The page in the buffer is written where the cursor stands. -/
theorem flush_on (hp : 0 < p.chunksPerBlock) (h : OnStream p e d₁ W j d)
    (hon : CursorOn p (emptyBlocks p d₁) j d.checkpt)
    (hj : j < (emptyBlocks p d₁).length * p.chunksPerBlock)
    (hhdr : d.checkpt.bufferHdr = streamHdr p W j)
    (hbuf : d.checkpt.buffer = pad p.payload 0 (page p.payload W j)) :
    ∃ b, d.checkpt.curBlock = some b ∧
      Flushed p e d₁ W j d (checkptInitChunkHdr p { (driverWrite e (b * p.chunksPerBlock + d.checkpt.curChunk)
        ⟨checkptTags p (e.unsetTags d.nand.calls) d.checkpt, .checkpt d.checkpt.bufferHdr d.checkpt.buffer⟩
        (checkptTakeBlock b d)).1 with checkpt := d.checkpt.advance p }) := by
  have hlt := (Nat.div_lt_iff_lt_mul hp).mpr hj
  have hblock := hon.curBlock
  rw [List.getElem?_eq_getElem hlt] at hblock
  have hchunk : (emptyBlocks p d₁)[j / p.chunksPerBlock] * p.chunksPerBlock + d.checkpt.curChunk =
      streamChunk p (emptyBlocks p d₁) j := by
    rw [hon.curChunk, streamChunk, List.getD_eq_getElem?_getD, List.getElem?_eq_getElem hlt, Option.getD_some]
  have hpage : (⟨checkptTags p (e.unsetTags d.nand.calls) d.checkpt,
      .checkpt d.checkpt.bufferHdr d.checkpt.buffer⟩ : Page) =
      streamPage p (emptyBlocks p d₁) W (e.unsetTags d.nand.calls) j := by
    rw [checkptTags, streamPage, hon.nextBlock, hon.pageSeq, hhdr, hbuf]
    rfl
  refine ⟨_, hblock, ?_⟩
  rw [hchunk, hpage]
  have hadvance := hon.advance hp
  obtain ⟨hsum, hxor, hwrite⟩ := advance_eq p d.checkpt
  obtain ⟨htnand, hterased, htstate⟩ := checkptTakeBlock_eq (emptyBlocks p d₁)[j / p.chunksPerBlock] d
  have hdiv := streamChunk_div hp (emptyBlocks p d₁) j
  rw [List.getD_eq_getElem?_getD, List.getElem?_eq_getElem hlt, Option.getD_some] at hdiv
  refine ⟨h.write hp hj (t := e.unsetTags d.nand.calls) (fun hw => ?_) (fun c hc => ?_) (fun b hb => ?_) ?_ hterased,
    ⟨hadvance.pageSeq, hadvance.closed, hadvance.opened⟩, rfl, ?_, rfl, hsum, hxor, hwrite⟩
  · simp [checkptInitChunkHdr, driverWrite, hw]
  · simp [checkptInitChunkHdr, driverWrite, hc, htnand]
  · rw [hdiv] at hb
    exact htstate b hb
  · change (checkptTakeBlock _ d).nand.markedBad = _
    rw [htnand]
  · have hseq := hadvance.pageSeq
    simp [checkptInitChunkHdr, hseq, hsum, hxor]

/-- The search for a block does not touch the pages. -/
theorem OnStream.congr (h : OnStream p e d₁ W j d) {x : BlockDev} (hnand : x.nand = d.nand)
    (hinfo : x.blockInfo = d.blockInfo) (herased : x.nErasedBlocks = d.nErasedBlocks) :
    OnStream p e d₁ W j x where
  le := h.le
  page := by rw [hnand]; exact h.page
  other := by rw [hnand]; exact h.other
  state := by rw [hinfo]; exact h.state
  bad := by rw [hnand]; exact h.bad
  erased := by rw [herased]; exact h.erased

/-- The two cursors have the same in the buffer and the same sums. -/
structure SameBuffer (cp cp' : CheckptCursor) : Prop where
  bufferHdr : cp'.bufferHdr = cp.bufferHdr
  buffer : cp'.buffer = cp.buffer
  sum : cp'.sum = cp.sum
  xor : cp'.xor = cp.xor
  openWrite : cp'.openWrite = cp.openWrite
  byteOffs : cp'.byteOffs = cp.byteOffs

/-- As long as there are empty blocks, a flush writes the page in the buffer. -/
theorem checkptFlushBuffer_ok (hp : 0 < p.chunksPerBlock) (h : OnStream p e d₁ W j d)
    (hat : CursorAt p (emptyBlocks p d₁) j d.checkpt) (hres : (p.nReservedBlocks : ℤ) < d₁.nErasedBlocks)
    (hj : j < (emptyBlocks p d₁).length * p.chunksPerBlock)
    (hhdr : d.checkpt.bufferHdr = streamHdr p W j)
    (hbuf : d.checkpt.buffer = pad p.payload 0 (page p.payload W j)) :
    (checkptFlushBuffer p e d).2 = true ∧ Flushed p e d₁ W j d (checkptFlushBuffer p e d).1 := by
  have hgo : ∀ x : BlockDev, OnStream p e d₁ W j x → CursorOn p (emptyBlocks p d₁) j x.checkpt →
      SameBuffer d.checkpt x.checkpt → ∀ r, (match x.checkpt.curBlock with
        | none => (x, false)
        | some b => (checkptInitChunkHdr p { (driverWrite e (b * p.chunksPerBlock + x.checkpt.curChunk)
            ⟨checkptTags p (e.unsetTags x.nand.calls) x.checkpt, .checkpt x.checkpt.bufferHdr x.checkpt.buffer⟩
            (checkptTakeBlock b x)).1 with checkpt := x.checkpt.advance p }, true)) = r →
      r.2 = true ∧ Flushed p e d₁ W j d r.1 := by
    rintro x hx hon hsame r rfl
    obtain ⟨b, hb, hflushed⟩ := flush_on hp hx hon hj (hsame.bufferHdr.trans hhdr) (hsame.buffer.trans hbuf)
    rw [hb]
    exact ⟨rfl, { hflushed with
      bufferHdr := by rw [hflushed.bufferHdr, hsame.sum, hsame.xor]
      sum := hflushed.sum.trans hsame.sum
      xor := hflushed.xor.trans hsame.xor
      openWrite := hflushed.openWrite.trans hsame.openWrite }⟩
  by_cases hmod : j % p.chunksPerBlock = 0
  · obtain ⟨hcur, hnext⟩ := checkptFindErasedBlock_on hp h hat hres hmod
    have hlt := (Nat.div_lt_iff_lt_mul hp).mpr hj
    have hon : CursorOn p (emptyBlocks p d₁) j { (checkptFindErasedBlock p d).checkpt with curChunk := 0 } := by
      refine ⟨hat.pageSeq, hcur, hmod.symm, hnext.trans ?_⟩
      rw [List.getElem?_eq_getElem hlt, Option.map_some, nextFrom_succ (List.getElem?_eq_getElem hlt)]
    refine hgo { checkptFindErasedBlock p d with
      checkpt := { (checkptFindErasedBlock p d).checkpt with curChunk := 0 } }
      (h.congr rfl rfl rfl) hon ⟨rfl, rfl, rfl, rfl, rfl, rfl⟩ _ ?_
    unfold checkptFlushBuffer
    rw [if_pos (hat.closed hmod).1] <;> rfl
  · refine hgo d h (hat.on hmod) ⟨rfl, rfl, rfl, rfl, rfl, rfl⟩ _ ?_
    have hne : d.checkpt.curBlock ≠ none := by
      rw [(hat.opened hmod).1, List.getElem?_eq_getElem ((Nat.div_lt_iff_lt_mul hp).mpr hj)]
      simp
    unfold checkptFlushBuffer
    rw [if_neg hne] <;> rfl

/-- With no empty block left, a flush fails. -/
theorem checkptFlushBuffer_full (hp : 0 < p.chunksPerBlock) (h : OnStream p e d₁ W j d)
    (hat : CursorAt p (emptyBlocks p d₁) j d.checkpt) (hres : (p.nReservedBlocks : ℤ) < d₁.nErasedBlocks)
    (hj : j = (emptyBlocks p d₁).length * p.chunksPerBlock) :
    (checkptFlushBuffer p e d).2 = false ∧ (checkptFlushBuffer p e d).1.nand = d.nand ∧
    (checkptFlushBuffer p e d).1.checkpt.byteOffs = d.checkpt.byteOffs := by
  have hmod : j % p.chunksPerBlock = 0 := by rw [hj, Nat.mul_mod_left]
  have hcur := (checkptFindErasedBlock_on hp h hat hres hmod).1
  rw [hj, Nat.mul_div_cancel _ hp, List.getElem?_eq_none le_rfl] at hcur
  unfold checkptFlushBuffer
  rw [if_pos (hat.closed hmod).1]
  simp only [hcur]
  exact ⟨trivial, rfl, rfl⟩

/-! ## Writing bytes -/

/-- The writer behind the bytes `W`, on a device that had `d₁` when it was opened. -/
structure Streamed (p : Param) (e : Env) (d₁ : BlockDev) (W : List UInt8) (d : BlockDev) : Prop where
  onStream : OnStream p e d₁ W (W.length / p.payload) d
  cursor : CursorAt p (emptyBlocks p d₁) (W.length / p.payload) d.checkpt
  byteOffs : d.checkpt.byteOffs = checkptHdrSize + W.length % p.payload
  bufferHdr : d.checkpt.bufferHdr = streamHdr p W (W.length / p.payload)
  buffer : d.checkpt.buffer = pad p.payload 0 (page p.payload W (W.length / p.payload))
  sum : d.checkpt.sum = byteSum W
  xor : d.checkpt.xor = byteXor W
  openWrite : d.checkpt.openWrite = true

theorem byteSum_concat (W : List UInt8) (x : UInt8) : byteSum (W ++ [x]) = (byteSum W + x.toNat) % 2 ^ 32 := by
  simp [byteSum]

theorem byteXor_concat (W : List UInt8) (x : UInt8) : byteXor (W ++ [x]) = byteXor W ^^^ x := by
  simp [byteXor]

theorem div_mul_le_length (W : List UInt8) (n : ℕ) : W.length / n * n ≤ W.length :=
  Nat.div_mul_le_self _ _

/-- The header of a page depends on the bytes before it. -/
theorem streamHdr_append (W V : List UInt8) (h : j * p.payload ≤ W.length) :
    streamHdr p (W ++ V) j = streamHdr p W j := by
  rw [streamHdr, streamHdr, List.take_append_of_le_length h]

/-- A full page depends on the bytes up to its end. -/
theorem streamPage_append (W V : List UInt8) (t : ExtTags) (h : (j + 1) * p.payload ≤ W.length) :
    streamPage p E (W ++ V) t j = streamPage p E W t j := by
  have hle : j * p.payload ≤ (j + 1) * p.payload := Nat.mul_le_mul_right _ (Nat.le_succ _)
  rw [streamPage, streamPage, streamHdr_append W V (hle.trans h), page_append h]

/-- The stream goes on. -/
theorem OnStream.append (h : OnStream p e d₁ W j d) (hj : j * p.payload ≤ W.length) (V : List UInt8) :
    OnStream p e d₁ (W ++ V) j d :=
  { h with
    page := fun hw i hi => by
      obtain ⟨t, ht⟩ := h.page hw i hi
      have hle : (i + 1) * p.payload ≤ j * p.payload := Nat.mul_le_mul_right _ hi
      exact ⟨t, by rw [streamPage_append W V t (hle.trans hj)]; exact ht⟩ }

/-- The writer with one more byte in the buffer. -/
structure Put (p : Param) (e : Env) (d₁ : BlockDev) (W : List UInt8) (x : UInt8) (d : BlockDev) : Prop where
  onStream : OnStream p e d₁ (W ++ [x]) (W.length / p.payload) d
  cursor : CursorAt p (emptyBlocks p d₁) (W.length / p.payload) d.checkpt
  byteOffs : d.checkpt.byteOffs = checkptHdrSize + W.length % p.payload + 1
  bufferHdr : d.checkpt.bufferHdr = streamHdr p (W ++ [x]) (W.length / p.payload)
  buffer : d.checkpt.buffer = pad p.payload 0 (page p.payload (W ++ [x]) (W.length / p.payload))
  sum : d.checkpt.sum = byteSum (W ++ [x])
  xor : d.checkpt.xor = byteXor (W ++ [x])
  openWrite : d.checkpt.openWrite = true

theorem Streamed.put (h : Streamed p e d₁ W d) (hP : 0 < p.payload) (x : UInt8) :
    Put p e d₁ W x { d with checkpt := d.checkpt.put x } := by
  have hle := div_mul_le_length W p.payload
  have hlt : W.length < (W.length / p.payload + 1) * p.payload := by
    rw [Nat.mul_comm]
    exact Nat.lt_mul_div_succ _ hP
  have hmod : W.length % p.payload = (page p.payload W (W.length / p.payload)).length := by
    rw [length_page]
    have := Nat.mod_add_div' W.length p.payload
    have := Nat.mod_lt W.length hP
    omega
  refine ⟨(h.onStream.append hle [x]).congr rfl rfl rfl, ⟨h.cursor.pageSeq, h.cursor.closed, h.cursor.opened⟩, ?_, ?_,
    ?_, ?_, ?_, h.openWrite⟩
  · exact congrArg (· + 1) h.byteOffs
  · rw [streamHdr_append W [x] hle]
    exact h.bufferHdr
  · change d.checkpt.buffer.set (d.checkpt.byteOffs - checkptHdrSize) x = _
    rw [h.buffer, h.byteOffs, Nat.add_sub_cancel_left, hmod, page_concat hle hlt, set_pad]
    rw [← hmod]
    exact Nat.mod_lt _ hP
  · rw [byteSum_concat, ← h.sum]
    rfl
  · rw [byteXor_concat, ← h.xor]
    rfl

theorem Put.stays (h : Put p e d₁ W x d) (hP : 0 < p.payload) (hlt : W.length % p.payload + 1 < p.payload) :
    Streamed p e d₁ (W ++ [x]) d := by
  obtain ⟨h1, -, -⟩ | ⟨-, h2, h3⟩ := succ_mod_cases hP W.length
  · omega
  · have hlen : (W ++ [x]).length = W.length + 1 := by simp
    refine ⟨?_, ?_, ?_, ?_, ?_, h.sum, h.xor, h.openWrite⟩
    · rw [hlen, h3]
      exact h.onStream
    · rw [hlen, h3]
      exact h.cursor
    · rw [hlen, h2, h.byteOffs, Nat.add_assoc]
    · rw [hlen, h3]
      exact h.bufferHdr
    · rw [hlen, h3]
      exact h.buffer

/-- A page that is full is flushed. -/
theorem Put.flush (h : Put p e d₁ W x d) (hp : 0 < p.chunksPerBlock) (hP : 0 < p.payload)
    (hres : (p.nReservedBlocks : ℤ) < d₁.nErasedBlocks) (hfull : W.length % p.payload + 1 = p.payload)
    (hj : W.length / p.payload < (emptyBlocks p d₁).length * p.chunksPerBlock) :
    (checkptFlushBuffer p e d).2 = true ∧ Streamed p e d₁ (W ++ [x]) (checkptFlushBuffer p e d).1 := by
  obtain ⟨hok, hf⟩ := checkptFlushBuffer_ok hp h.onStream h.cursor hres hj h.bufferHdr h.buffer
  obtain ⟨-, h2, h3⟩ | ⟨h1, -, -⟩ := succ_mod_cases hP W.length
  · have hlen : (W ++ [x]).length = W.length + 1 := by simp
    have hmul : (W.length / p.payload + 1) * p.payload = (W ++ [x]).length := by
      have := Nat.div_add_mod' (W.length + 1) p.payload
      rw [h2, h3] at this
      rw [hlen]
      omega
    refine ⟨hok, ⟨?_, ?_, ?_, ?_, ?_, hf.sum.trans h.sum, hf.xor.trans h.xor, hf.openWrite.trans h.openWrite⟩⟩
    · rw [hlen, h3]
      exact hf.onStream
    · rw [hlen, h3]
      exact hf.cursor
    · rw [hlen, h2, hf.byteOffs, Nat.add_zero]
    · rw [hlen, h3, hf.bufferHdr, h.sum, h.xor, streamHdr, List.take_of_length_le hmul.ge]
    · rw [hlen, h3, hf.buffer, page, List.drop_of_length_le hmul.ge]
      simp [pad]
  · omega

/-- The pages the empty blocks have room for. -/
def roomPages (p : Param) (d₁ : BlockDev) : ℕ :=
  (emptyBlocks p d₁).length * p.chunksPerBlock

/-- The bytes after which a flush fails for want of a block. -/
def failPoint (p : Param) (d₁ : BlockDev) : ℕ :=
  (roomPages p d₁ + 1) * p.payload

/-- What a call of the writer for the bytes `bs` does behind the bytes `W`. -/
structure WrSpec (p : Param) (e : Env) (d₁ : BlockDev) (W bs : List UInt8) (offsets : List ℕ) (fails : Bool)
    (r : BlockDev × Bool) : Prop where
  inside : ∀ o ∈ offsets, o < p.dataBytesPerChunk
  goesOn : W.length + bs.length < failPoint p d₁ → fails = false ∧ r.2 = true ∧ Streamed p e d₁ (W ++ bs) r.1
  fails : failPoint p d₁ ≤ W.length + bs.length → fails = true ∧
    r.2 = decide (W.length + bs.length = failPoint p d₁) ∧ p.dataBytesPerChunk ≤ r.1.checkpt.byteOffs

/-- A call of the writer, from byte `i` of its record on. -/
theorem checkptWrLoop_spec (hp : 0 < p.chunksPerBlock) (hP : 0 < p.payload)
    (hres : (p.nReservedBlocks : ℤ) < d₁.nErasedBlocks) {byteAt : BlockDev → ℕ → UInt8} (bs : List UInt8) :
    ∀ (i : ℕ) (W : List UInt8) (d : BlockDev), (∀ d k, k < bs.length → byteAt d (i + k) = bs.getD k 0) →
      W.length < failPoint p d₁ → Streamed p e d₁ W d →
      WrSpec p e d₁ W bs (wrOffsets p e byteAt bs.length i d) (wrFails p e byteAt bs.length i d)
        (checkptWrLoop p e byteAt bs.length i d) := by
  induction bs with
  | nil =>
    intro i W d _ hW h
    refine ⟨by simp [wrOffsets], fun _ => ⟨rfl, rfl, ?_⟩, fun hge => ?_⟩
    · rw [List.append_nil]
      exact h
    · rw [List.length_nil] at hge
      omega
  | cons x bs ih =>
    intro i W d hbytes hW h
    have hx : byteAt d i = x := by simpa using hbytes d 0 (by simp)
    have hrest : ∀ d k, k < bs.length → byteAt d (i + 1 + k) = bs.getD k 0 := by
      intro d k hk
      have := hbytes d (k + 1) (by simpa using hk)
      rwa [show i + (k + 1) = i + 1 + k by omega, List.getD_cons_succ] at this
    have hput := h.put hP x
    have hoff := h.byteOffs
    have hmod := Nat.mod_lt W.length hP
    have hsize : p.dataBytesPerChunk = checkptHdrSize + p.payload := by
      unfold Param.payload at hP ⊢
      omega
    have hlen : (W ++ [x]).length = W.length + 1 := by simp
    have hfirst : d.checkpt.byteOffs < p.dataBytesPerChunk := by omega
    -- The rest of the call goes on behind the byte.
    have hgoes : ∀ d', Streamed p e d₁ (W ++ [x]) d' → W.length + 1 < failPoint p d₁ →
        WrSpec p e d₁ W (x :: bs) (d.checkpt.byteOffs :: wrOffsets p e byteAt bs.length (i + 1) d')
          (wrFails p e byteAt bs.length (i + 1) d') (checkptWrLoop p e byteAt bs.length (i + 1) d') := by
      intro d' hd' hlt
      obtain ⟨h1, h2, h3⟩ := ih (i + 1) (W ++ [x]) d' hrest (by omega) hd'
      rw [hlen] at h2 h3
      have hadd : W.length + (x :: bs).length = W.length + 1 + bs.length := by simp; omega
      refine ⟨?_, fun hlt => ?_, fun hge => ?_⟩
      · intro o ho
        rcases List.mem_cons.mp ho with rfl | ho
        · exact hfirst
        · exact h1 o ho
      · rw [hadd] at hlt
        simpa using h2 hlt
      · rw [hadd] at hge ⊢
        exact h3 hge
    have hend : W.length + 1 = (W.length / p.payload + 1) * p.payload ↔ W.length % p.payload + 1 = p.payload := by
      have := Nat.div_add_mod' W.length p.payload
      rw [Nat.add_mul, Nat.one_mul]
      omega
    simp only [List.length_cons, wrOffsets, wrFails, checkptWrLoop, hx]
    by_cases hfull : W.length % p.payload + 1 = p.payload
    · have hcond : p.dataBytesPerChunk ≤ (d.checkpt.put x).byteOffs := by
        change p.dataBytesPerChunk ≤ d.checkpt.byteOffs + 1
        omega
      have hbytes' := hend.mpr hfull
      by_cases hj : W.length / p.payload < roomPages p d₁
      · obtain ⟨hok, hs⟩ := hput.flush hp hP hres hfull hj
        have hle : (W.length / p.payload + 1) * p.payload ≤ roomPages p d₁ * p.payload :=
          Nat.mul_le_mul_right _ hj
        simp only [if_pos hcond, if_pos hok]
        refine hgoes _ hs ?_
        rw [failPoint, Nat.add_mul, Nat.one_mul]
        omega
      · have hdiv : W.length / p.payload = roomPages p d₁ := by
          have : W.length / p.payload < roomPages p d₁ + 1 := (Nat.div_lt_iff_lt_mul hP).mpr hW
          omega
        obtain ⟨hfail, -, hoffs⟩ := checkptFlushBuffer_full hp hput.onStream hput.cursor hres hdiv
        have hpoint : W.length + 1 = failPoint p d₁ := by rw [failPoint, ← hdiv, hbytes']
        simp only [if_pos hcond, hfail, Bool.false_eq_true, if_false]
        refine ⟨by simpa using hfirst, fun hlt => ?_, fun _ => ⟨rfl, decide_eq_decide.mpr ?_, ?_⟩⟩
        · rw [List.length_cons] at hlt
          omega
        · rw [List.length_cons]
          omega
        · rw [hoffs]
          exact hcond
    · have hcond : ¬p.dataBytesPerChunk ≤ (d.checkpt.put x).byteOffs := by
        change ¬p.dataBytesPerChunk ≤ d.checkpt.byteOffs + 1
        omega
      simp only [if_neg hcond]
      refine hgoes _ (hput.stays hP (by omega)) ?_
      by_contra hge
      have heq : W.length + 1 = failPoint p d₁ := by omega
      refine hfull ?_
      have hdvd : p.payload ∣ W.length + 1 := ⟨_, by rw [heq, failPoint, Nat.mul_comm]⟩
      rcases succ_mod_cases hP W.length with h1 | h1
      · exact h1.1
      · have := Nat.mod_eq_zero_of_dvd hdvd
        omega

end

end Yaffs
