import Yaffs.Rescan

/-!
# The scan of a yaffs1 device

`yaffs1_scan` goes over the blocks in the order of their numbers, and in each over the pages up to
the first that is erased. What becomes of a chunk is told by `laterPage` over the copies met so.
-/

namespace Yaffs

variable {g : Geometry} {e : Env} {m : MountParam} {flash : ℕ → Option Page} {serial : ℕ → ℕ} {ty : ℕ → ObjType}
  {state : ℕ → BlockState} {o k b n : ℕ} {kept : Option ℕ} {s : ScanDev} {d : BlockDev}

/-- What the scan of a yaffs1 device with chunk groups goes by. -/
structure Scannable (g : Geometry) (m : MountParam) (flash : ℕ → Option Page) (serial : ℕ → ℕ)
    (ty : ℕ → ObjType) : Prop where
  group : g.chunkGrpSize ≠ 1
  reader : m.reader = compatReader g.toParam flash serial
  typed : Typed g flash ty
  fits : FitTags g flash

/-! ## Pages -/

/-- `yaffs1_scan` on a page that is used and not deleted. -/
theorem scanPage1_goes (hs : Scannable g m flash serial ty) (hk : k ≠ 0)
    (h : Scanning g flash state ty o k kept b n n s) (hb : n / g.chunksPerBlock = b) (hn : n ∈ g.chunks) {p : Page}
    (hp : flash n = some p) (hlive : p.tags.isDeleted = false) {r : PageRead}
    (hr : r.tags = compatExtTags g.toParam p.tags) :
    let q := if 0 < r.tags.chunkId then scanData1 g e m b n r.tags s else scanHdr1 g e m b n r s
    Goes e q.2 (Scanning g flash state ty o k (keptNext flash serial o k kept n) b (n + 1) (n + 1) q.1) := by
  obtain ⟨hid, hchunk⟩ := hs.fits n hn p hp hlive
  have hid' : r.tags.objId = p.tags.objId := by
    rw [hr]
    exact Nat.mod_eq_of_lt (by unfold maxObjectId at hid; omega)
  have hchunk' : r.tags.chunkId = p.tags.chunkId := by
    rw [hr]
    exact Nat.mod_eq_of_lt hchunk
  have hpos : 0 < r.tags.objId := hid' ▸ Nat.pos_of_ne_zero (hs.typed.id n hn p hp hlive)
  have hlt : r.tags.objId < 2 ^ 31 := by
    unfold maxObjectId at hid
    omega
  dsimp only
  split_ifs with hdata
  · refine scanData1_goes h hb hn hs.group hs.reader hpos hlt ?_ hdata.ne' ?_ (fun a ha => ?_) ?_
    · rw [hid']
      exact hs.typed.data n hn p hp hlive (hchunk' ▸ hdata.ne')
    · unfold maxChunkId
      omega
    · exact h.pages.met a (h.objs.inUse a ha).2.1
    · simp [hp, tagsMatch, hid', hchunk', hlive]
  · have hzero : p.tags.chunkId = 0 := by omega
    have hnext : keptNext flash serial o k kept n = kept := by
      unfold keptNext
      rw [if_neg]
      simp [hp, tagsMatch, hzero, hk.symm]
    rw [hnext]
    refine scanHdr1_goes h hb hn hk hs.reader r hp ?_ hpos hlt ?_ ?_
    · rw [hid', ← hzero]
      rfl
    · rw [hid']
      exact (hs.typed.hdr n hn p hp hlive hzero).symm
    · rw [hid']
      exact hs.typed.parent n hn p hp hlive hzero

theorem Scanning.pass {n₁ n₂ : ℕ} (h : Scanning g flash state ty o k kept b n n s) (h₁ : n ≤ n₁) (h₂ : n ≤ n₂) :
    Scanning g flash state ty o k kept b n₁ n₂ s :=
  ⟨h.pages.pass h₂, h.current, h.objs.pass h₁ h.pages.met⟩

/-! ## Blocks -/

section

variable {N i : ℕ}

/-- The scan of a block ends at an erased page. -/
theorem scanBlockLoop1_erased (hrd : m.reader = compatReader g.toParam flash serial)
    (hp : flash (b * g.chunksPerBlock + i) = none) : scanBlockLoop1 g e m b (N + 1) i s =
      if i = 0 then (((s.mapBlk countCall).mapBlk (countFree (g.chunksPerBlock - i))).mapBlk fun d =>
        { d with nErasedBlocks := d.nErasedBlocks + 1 }, .empty, true)
      else (((s.mapBlk countCall).mapBlk (countFree (g.chunksPerBlock - i))).mapBlk fun d =>
        { d with alloc := ⟨none, i, b⟩ }, .full, true) := by
  rw [scanBlockLoop1, hrd]
  simp only [onDev_rdChunk, compatReader, hp]
  rfl

/-- A deleted page is counted. -/
theorem scanBlockLoop1_deleted (hrd : m.reader = compatReader g.toParam flash serial) {p : Page}
    (hp : flash (b * g.chunksPerBlock + i) = some p) (hdel : p.tags.isDeleted = true) :
    scanBlockLoop1 g e m b (N + 1) i s =
      scanBlockLoop1 g e m b N (i + 1) ((s.mapBlk countCall).mapBlk (countFree 1)) := by
  rw [scanBlockLoop1, hrd]
  simp [onDev_rdChunk, compatReader, hp, compatExtTags, hdel]

/-- A page in use is taken. -/
theorem scanBlockLoop1_live (hrd : m.reader = compatReader g.toParam flash serial) {p : Page}
    (hp : flash (b * g.chunksPerBlock + i) = some p) (hlive : p.tags.isDeleted = false) :
    let r := compatReader g.toParam flash serial s.nand.calls (b * g.chunksPerBlock + i)
    let q := if 0 < r.tags.chunkId then
        scanData1 g e m b (b * g.chunksPerBlock + i) r.tags (s.mapBlk countCall)
      else scanHdr1 g e m b (b * g.chunksPerBlock + i) r (s.mapBlk countCall)
    scanBlockLoop1 g e m b (N + 1) i s =
      if q.2 then scanBlockLoop1 g e m b N (i + 1) q.1 else (q.1, .full, false) := by
  rw [scanBlockLoop1, hrd]
  simp [onDev_rdChunk, compatReader, hp, compatExtTags, hlive]

end

/-- The pages of `cs` up to the first that is erased. -/
def upToErased (flash : ℕ → Option Page) (cs : List ℕ) : List ℕ :=
  cs.takeWhile fun c => (flash c).isSome

/-- What the scan of a block up to its end leaves, with the state the block gets. -/
structure Ended (g : Geometry) (flash : ℕ → Option Page) (state : ℕ → BlockState) (ty : ℕ → ObjType)
    (o k : ℕ) (kept : Option ℕ) (b : ℕ) (s : ScanDev) (st : BlockState) : Prop where
  scanned : Scanning g flash state ty o k kept b ((b + 1) * g.chunksPerBlock) ((b + 1) * g.chunksPerBlock) s
  state : st = .full ∨ st = .empty ∧ NoBits g b s.chunkBits

/-- The loop of `yaffs1_scan` over the rest of a block. -/
theorem scanBlockLoop1_goes (hs : Scannable g m flash serial ty) (hk : k ≠ 0) (hb : b ∈ g.blocks) (N : ℕ) :
    ∀ i s kept, i + N = g.chunksPerBlock →
      Scanning g flash state ty o k kept b (b * g.chunksPerBlock + i) (b * g.chunksPerBlock + i) s →
      let r := scanBlockLoop1 g e m b N i s
      Goes e r.2.2 (Ended g flash state ty o k
        ((upToErased flash (List.range' (b * g.chunksPerBlock + i) N)).foldl (keptNext flash serial o k) kept)
        b r.1 r.2.1) := by
  induction N with
  | zero =>
    intro i s kept hi h
    have hend : b * g.chunksPerBlock + i = (b + 1) * g.chunksPerBlock := by
      rw [Nat.add_one_mul]
      omega
    exact .inl ⟨rfl, hend ▸ h, .inl rfl⟩
  | succ N ih =>
    intro i s kept hi h
    have hlt : i < g.chunksPerBlock := by omega
    have hle : b * g.chunksPerBlock + i ≤ (b + 1) * g.chunksPerBlock := by
      rw [Nat.add_one_mul]
      omega
    have hdiv : (b * g.chunksPerBlock + i) / g.chunksPerBlock = b := by
      rw [Nat.mul_comm, Nat.mul_add_div chunksPerBlock_pos, Nat.div_eq_of_lt hlt, Nat.add_zero]
    have hmem : b * g.chunksPerBlock + i ∈ g.chunks := mem_chunks.mpr (hdiv.symm ▸ hb)
    have h1 := h.mapBlk (f := countCall) rfl rfl rfl
    unfold upToErased
    rw [List.range'_succ, List.takeWhile_cons]
    cases hp : flash (b * g.chunksPerBlock + i) with
    | none =>
      rw [scanBlockLoop1_erased hs.reader hp, Option.isSome_none, if_neg Bool.false_ne_true]
      have h2 := (h1.mapBlk (f := countFree (g.chunksPerBlock - i)) rfl rfl rfl).pass hle hle
      by_cases hi0 : i = 0
      · rw [if_pos hi0]
        refine .inl ⟨rfl, h2.mapBlk rfl rfl rfl, .inr ⟨rfl, fun c hc => ?_⟩⟩
        refine eq_false_of_ne_true fun hbit => ?_
        have hmet : c < b * g.chunksPerBlock + i := h.pages.met c hbit
        have := Nat.lt_div_mul_add (a := c) (chunksPerBlock_pos (g := g))
        have := Nat.div_mul_le_self c g.chunksPerBlock
        rw [hc] at this
        omega
      · rw [if_neg hi0]
        exact .inl ⟨rfl, h2.mapBlk rfl rfl rfl, .inl rfl⟩
    | some p =>
      rw [Option.isSome_some, if_pos rfl, List.foldl_cons]
      cases hdel : p.tags.isDeleted with
      | true =>
        rw [scanBlockLoop1_deleted hs.reader hp hdel]
        have hnext : keptNext flash serial o k kept (b * g.chunksPerBlock + i) = kept := by
          unfold keptNext
          rw [if_neg]
          simp [hp, tagsMatch, hdel]
        have h2 := h1.mapBlk (f := countFree 1) rfl rfl rfl
        rw [hnext]
        exact ih (i + 1) _ kept (by omega) (h2.pass (Nat.le_succ _) (Nat.le_succ _))
      | false =>
        have hpage := scanPage1_goes (e := e) hs hk h1 hdiv hmem hp hdel
          (r := compatReader g.toParam flash serial s.nand.calls (b * g.chunksPerBlock + i)) (by simp [compatReader, hp])
        rw [scanBlockLoop1_live hs.reader hp hdel]
        dsimp only at hpage ⊢
        rcases hpage with ⟨hok, h2⟩ | ⟨hno, hmemory⟩
        · rw [if_pos hok]
          exact ih (i + 1) _ _ (by omega) h2
        · rw [if_neg (by rw [hno]; decide)]
          exact .inr ⟨rfl, hmemory⟩

/-! ## The device -/

/-- The blocks below page `n` have been scanned. -/
structure Scanned (g : Geometry) (flash : ℕ → Option Page) (state : ℕ → BlockState) (ty : ℕ → ObjType)
    (o k : ℕ) (kept : Option ℕ) (n : ℕ) (s : ScanDev) : Prop where
  pages : MetPages g flash state n s.toBlockDev
  objs : Entered g flash ty o k kept n s

theorem MetPages.setState (h : MetPages g flash state n d) {st : BlockState}
    (hst : st = .full ∨ NoBits g b d.chunkBits) (hcheckpt : st ≠ .checkpoint) (hn : (b + 1) * g.chunksPerBlock ≤ n) :
    MetPages g flash state n (d.setState b st) := by
  have hinfo : ∀ b', ((d.setState b st).blockInfo b').blockState =
      if b' = b then st else (d.blockInfo b').blockState := by
    intro b'
    by_cases hb : b' = b <;> simp [BlockDev.setState, BlockDev.modBlock, hb]
  have hpages : ∀ b', ((d.setState b st).blockInfo b').pagesInUse = (d.blockInfo b').pagesInUse := by
    intro b'
    by_cases hb : b' = b <;> simp [BlockDev.setState, BlockDev.modBlock, hb]
  have hpos := chunksPerBlock_pos (g := g)
  rw [Nat.add_one_mul] at hn
  refine { h with
    uncheckpointed := fun b' => ?_
    holds := fun c hc => ?_
    pages := fun b' => ?_
    ahead := fun b' hb' => ?_
    done := fun c hc hne => ?_ }
  · rw [hinfo]
    split_ifs
    · exact hcheckpt
    · exact h.uncheckpointed b'
  · rw [hinfo]
    split_ifs with hcb
    · rcases hst with rfl | hno
      · rfl
      · exact absurd (hno c hcb) (by simp [show d.chunkBits c = true from hc])
    · exact h.holds c hc
  · rw [hpages]
    exact h.pages b'
  · have hne : b' ≠ b := by
      rintro rfl
      omega
    rw [hinfo, if_neg hne]
    exact h.ahead b' hb'
  · rw [hinfo] at hne
    split_ifs at hne with hcb
    · rw [hcb, Nat.add_one_mul]
      exact hn
    · exact h.done c hc hne

/-- The end of the scan of a block. -/
theorem finishBlock_met (h : MetPages g flash state n d) (hne : (d.blockInfo b).blockState ≠ .needsScan)
    (hn : (b + 1) * g.chunksPerBlock ≤ n) : MetPages g flash state n (finishBlock g e b d) ∧
      (finishBlock g e b d).chunkBits = d.chunkBits := by
  unfold finishBlock
  rw [if_neg hne]
  dsimp only
  split_ifs with hdirty
  · have hno := h.noBits hdirty.1
    have hdis := blockBecameDirty_disused (e := e) h.uncheckpointed hno hdirty.1
    exact ⟨h.disused hdis hno hn, hdis.quiet.bits⟩
  · exact ⟨h, rfl⟩

/-- A step that leaves the pages in use. -/
theorem Entered.mapBlk (h : Entered g flash ty o k kept n s) {f : BlockDev → BlockDev}
    (hf : (f s.toBlockDev).chunkBits = s.chunkBits) : Entered g flash ty o k kept n (s.mapBlk f) := by
  have hbits : (s.mapBlk f).chunkBits = s.chunkBits := hf
  refine ⟨h.typed, h.sound, ?_, h.entry, ?_, ?_⟩
  · rw [hbits]
    exact h.hdr
  · rw [hbits]
    exact h.inUse
  · rw [hbits]
    exact h.only

/-- What the pages of block `b` make of the page of the chunk. -/
def keptBlock (g : Geometry) (flash : ℕ → Option Page) (serial : ℕ → ℕ) (state : ℕ → BlockState) (o k : ℕ)
    (kept : Option ℕ) (b : ℕ) : Option ℕ :=
  if state b = .needsScan then (upToErased flash (g.chunksOf b)).foldl (keptNext flash serial o k) kept else kept

/-- `yaffs1_scan` on a block. -/
theorem scanBlock1_goes (hs : Scannable g m flash serial ty) (hk : k ≠ 0) (hb : b ∈ g.blocks)
    (h : Scanned g flash state ty o k kept (b * g.chunksPerBlock) s) :
    Goes e (scanBlock1 g e m b s).2 (Scanned g flash state ty o k (keptBlock g flash serial state o k kept b)
      ((b + 1) * g.chunksPerBlock) (scanBlock1 g e m b s).1) := by
  have hstate : (s.blockInfo b).blockState = state b := h.pages.ahead b le_rfl
  have hle : b * g.chunksPerBlock ≤ (b + 1) * g.chunksPerBlock := Nat.mul_le_mul_right _ (Nat.le_succ b)
  -- what remains once the pages of the block have been met
  have hend : ∀ {s : ScanDev} {kept : Option ℕ} {st : BlockState},
      MetPages g flash state ((b + 1) * g.chunksPerBlock) (s.setState b st) → st ≠ .needsScan →
      Entered g flash ty o k kept ((b + 1) * g.chunksPerBlock) s →
      Scanned g flash state ty o k kept ((b + 1) * g.chunksPerBlock)
        (s.mapBlk fun d => finishBlock g e b (d.setState b st)) := by
    intro s kept st hp hst ho
    have hne : ((s.setState b st).blockInfo b).blockState ≠ .needsScan := by
      simpa [BlockDev.setState, BlockDev.modBlock] using hst
    obtain ⟨hfin, hbits⟩ := finishBlock_met (e := e) hp hne le_rfl
    exact ⟨hfin, ho.mapBlk hbits⟩
  unfold scanBlock1 keptBlock
  dsimp only
  rw [hstate]
  split_ifs with hscan
  · have hstart : Scanning g flash state ty o k kept b (b * g.chunksPerBlock + 0) (b * g.chunksPerBlock + 0) s :=
      ⟨h.pages, hstate.trans hscan, h.objs⟩
    have hloop := scanBlockLoop1_goes (e := e) hs hk hb g.chunksPerBlock 0 s kept (Nat.zero_add _) hstart
    dsimp only at hloop
    rcases hloop with ⟨hok, hended⟩ | hno
    · refine .inl ⟨hok, hend ?_ ?_ hended.scanned.objs⟩
      · refine hended.scanned.pages.setState (hended.state.imp_right And.right) ?_ le_rfl
        rcases hended.state with h0 | h0
        · simp [h0]
        · simp [h0.1]
      · rcases hended.state with h0 | h0
        · simp [h0]
        · simp [h0.1]
    · exact .inr hno
  · have hpass := h.pages.pass hle
    have hno : NoBits g b s.chunkBits := by
      intro c hc
      refine eq_false_of_ne_true fun hbit => ?_
      have hmet := h.pages.met c hbit
      have := Nat.div_mul_le_self c g.chunksPerBlock
      rw [hc] at this
      omega
    have hcheckpt : state b ≠ .checkpoint := hstate ▸ h.pages.uncheckpointed b
    exact .inl ⟨rfl, hend (hpass.setState (.inr hno) hcheckpt le_rfl) hscan (h.objs.pass hle h.pages.met)⟩

/-- `yaffs1_scan` on the blocks of a device. -/
theorem scanBlocks1_goes (hs : Scannable g m flash serial ty) (hk : k ≠ 0) (N : ℕ) : ∀ b s kept,
    (∀ b' ∈ List.range' b N, b' ∈ g.blocks) → Scanned g flash state ty o k kept (b * g.chunksPerBlock) s →
    Goes e (scanBlocks1 g e m (List.range' b N) s).2
      (Scanned g flash state ty o k ((List.range' b N).foldl (keptBlock g flash serial state o k) kept)
        ((b + N) * g.chunksPerBlock) (scanBlocks1 g e m (List.range' b N) s).1) := by
  induction N with
  | zero => exact fun b s kept _ h => .inl ⟨rfl, h⟩
  | succ N ih =>
    intro b s kept hmem h
    rw [List.range'_succ] at hmem ⊢
    have hstep := scanBlock1_goes (e := e) hs hk (hmem b List.mem_cons_self) h
    rw [List.foldl_cons, scanBlocks1]
    rcases hstep with ⟨hok, h1⟩ | ⟨hno, hmemory⟩
    · rw [if_pos hok]
      have := ih (b + 1) _ _ (fun b' hb' => hmem b' (List.mem_cons_of_mem b hb')) h1
      rwa [show b + 1 + N = b + (N + 1) by omega] at this
    · rw [if_neg (by rw [hno]; decide)]
      exact .inr ⟨hno, hmemory⟩

/-! ## The whole scan -/

/-- The pages `yaffs1_scan` meets, in the order in which it meets them. -/
def pagesMet (p : Param) (flash : ℕ → Option Page) (markedBad : ℕ → Bool) : List ℕ :=
  p.blocks.flatMap fun b => if markedBad b then [] else upToErased flash (p.chunksOf b)

/-- The page that `yaffs1_scan` has in the file for chunk `k` of `o`. -/
def keptPage (p : Param) (flash : ℕ → Option Page) (serial : ℕ → ℕ) (markedBad : ℕ → Bool) (o k : ℕ) : Option ℕ :=
  (pagesMet p flash markedBad).foldl (keptNext flash serial o k) none

/-- A block is scanned that is not marked bad and has a page. -/
def compatState (p : Param) (flash : ℕ → Option Page) (markedBad : ℕ → Bool) (b : ℕ) : BlockState :=
  if markedBad b then .dead else if (flash (b * p.chunksPerBlock)).isNone then .empty else .needsScan

theorem keptPage_eq {markedBad : ℕ → Bool} (hstate : ∀ b ∈ g.blocks, state b = compatState g.toParam flash markedBad b) :
    g.blocks.foldl (keptBlock g flash serial state o k) none = keptPage g.toParam flash serial markedBad o k := by
  unfold keptPage pagesMet
  rw [List.foldl_flatMap]
  refine List.foldl_ext _ _ _ fun kept b hb => ?_
  unfold keptBlock
  rw [hstate b hb]
  unfold compatState
  cases hbad : markedBad b with
  | true => rfl
  | false =>
    rw [if_neg Bool.false_ne_true, if_neg Bool.false_ne_true]
    cases hp : flash (b * g.chunksPerBlock) with
    | none =>
      obtain ⟨n, hn⟩ := Nat.exists_eq_succ_of_ne_zero (chunksPerBlock_pos (g := g)).ne'
      have hnil : upToErased flash (g.chunksOf b) = [] := by
        unfold upToErased Param.chunksOf
        rw [hn, List.range'_succ, ← hn, List.takeWhile_cons, hp]
        rfl
      rw [hnil]
      rfl
    | some p => rfl

/-- The blocks before their scan. -/
structure Queried (flash : ℕ → Option Page) (state : ℕ → BlockState) (d : BlockDev) : Prop where
  bits : ∀ c, d.chunkBits c = false
  pages : ∀ b, (d.blockInfo b).pagesInUse = 0
  flash : d.nand.flash = flash
  state : ∀ b, (d.blockInfo b).blockState = state b

theorem queryBlock1_queried {markedBad : ℕ → Bool} (hq : m.query = compatQuery g.toParam flash markedBad)
    (h : Queried flash state d) :
    Queried flash (Function.update state b (compatState g.toParam flash markedBad b)) (queryBlock1 g m d b) := by
  have hstate : ((initBlock g b (m.query b) d).blockInfo b).blockState = compatState g.toParam flash markedBad b := by
    have hseq : (m.query b).seqNumber = 0 := by
      rw [hq]
      unfold compatQuery
      split_ifs <;> rfl
    simp only [initBlock, BlockDev.modBlock, Function.update_self, hseq]
    rw [if_neg (by decide), if_neg fun h0 => absurd h0.1 (by decide), hq]
    unfold compatQuery compatState
    split_ifs <;> rfl
  have h1 : Queried flash (Function.update state b (compatState g.toParam flash markedBad b))
      (initBlock g b (m.query b) d) := by
    refine ⟨fun c => ?_, fun b' => ?_, h.flash, fun b' => ?_⟩
    · change (if c / g.chunksPerBlock = b then false else d.chunkBits c) = false
      rw [h.bits, ite_self]
    · by_cases hb : b' = b
      · simp [initBlock, BlockDev.modBlock, hb]
      · simpa [initBlock, BlockDev.modBlock, clearChunkBits, hb] using h.pages b'
    · by_cases hb : b' = b
      · rw [hb, Function.update_self, hstate]
      · rw [Function.update_of_ne hb, ← h.state b']
        simp [initBlock, BlockDev.modBlock, clearChunkBits, hb]
  unfold queryBlock1
  dsimp only
  split_ifs
  · exact { h1 with }
  · exact h1

theorem foldl_queryBlock1 {markedBad : ℕ → Bool} (hq : m.query = compatQuery g.toParam flash markedBad) (l : List ℕ) :
    ∀ d state, Queried flash state d → Queried flash
      (fun b => if b ∈ l then compatState g.toParam flash markedBad b else state b) (l.foldl (queryBlock1 g m) d) := by
  induction l with
  | nil =>
    intro d state h
    simpa using h
  | cons b l ih =>
    intro d state h
    have h1 := ih _ _ (queryBlock1_queried hq h (b := b))
    refine { h1 with state := fun b' => ?_ }
    rw [List.foldl_cons, h1.state b']
    by_cases hb : b' = b
    · simp [hb]
    · simp [hb]

theorem mountObj_file (x : ℕ) : (mountObj m x).deferredFree = false ∧ ∀ k, (mountObj m x).file.entry k = 0 := by
  have hfile : (mountObj m x).deferredFree = false ∧ (mountObj m x).file = {} := by
    unfold mountObj initialObj
    split_ifs <;> exact ⟨rfl, rfl⟩
  refine ⟨hfile.1, fun k => ?_⟩
  rw [hfile.2]
  unfold FileVar.entry FileVar.find
  split_ifs <;> rfl

/-- The device before its blocks are scanned. -/
theorem Queried.scanned (h : Queried flash state d) (hty : Typed g flash ty) (hcheckpt : ∀ b, state b ≠ .checkpoint)
    (old : BlockDev) (n : ℕ) : Scanned g flash state ty o k none n ((mountDev g m old).mapBlk fun _ => d) := by
  have hno : ∀ c, ¬((mountDev g m old).mapBlk fun _ => d).chunkBits c = true :=
    fun c hc => Bool.false_ne_true ((h.bits c).symm.trans hc)
  have hpages : ∀ b, countChunkBits g b d.chunkBits ≤ (d.blockInfo b).pagesInUse := by
    intro b
    rw [countChunkBits_eq_zero.mpr fun c _ => h.bits c, h.pages]
  refine ⟨⟨fun b => (h.state b).symm ▸ hcheckpt b, fun c hc => absurd hc (hno c), fun c hc => absurd hc (hno c),
    fun c hc => absurd hc (hno c), fun c hc => absurd hc (hno c), hpages, fun b _ => h.state b,
    fun c _ => congrFun h.flash c, fun c hc => absurd hc (hno c)⟩, ⟨fun x hx => ⟨?_, (mountObj_file x).1⟩,
    fun x hx hfile => ?_, fun x hx => absurd hx Bool.false_ne_true, (mountObj_file o).2 k,
    fun c hc => absurd hc (by simp), fun c _ hc => absurd hc (hno c)⟩⟩
  · rw [hty.fake x hx]
    change (mountObj m x).variantType = .directory
    rcases List.mem_cons.mp hx with rfl | hx
    · rfl
    rcases List.mem_cons.mp hx with rfl | hx
    · unfold mountObj
      split_ifs <;> rfl
    rcases List.mem_cons.mp hx with rfl | hx
    · rfl
    rw [List.mem_singleton.mp hx]
    rfl
  · rw [hty.fake x hx] at hfile
    exact absurd hfile (by decide)

/-- What a chunk is found to be once a device has been scanned. -/
structure Recovered (g : Geometry) (flash : ℕ → Option Page) (o k : ℕ) (kept : Option ℕ) (d : Dev) : Prop where
  found : findChunkInFile g d o k = kept
  used : ∀ c, kept = some c → d.chunkBits c = true ∧ d.nand.flash c = flash c
  only : ∀ c, d.chunkBits c = true → ((flash c).any fun p => tagsMatch p.tags o k) = true → kept = some c

theorem Scanned.recovered (h : Scanned g flash state ty o k kept n s) (hgrp : g.chunkGrpSize ≠ 1) :
    Recovered g flash o k kept s.toDev where
  found := by
    have hentry := h.objs.entry
    cases kept with
    | none => exact findChunkInFile_eq_none hentry
    | some c =>
      obtain ⟨-, hbit, hm⟩ := h.objs.inUse c rfl
      have hne : (s.obj o).file.entry k ≠ 0 := by
        rw [hentry]
        exact groupOf_ne_zero (h.pages.mem c hbit)
      obtain ⟨v, hv⟩ := Option.ne_none_iff_exists'.mp (FileVar.has_of_entry hne)
      have hval : v = groupOf g c := by
        simpa [FileVar.entry, hv] using hentry
      unfold findChunkInFile
      rw [hv, Option.bind_some, hval]
      refine h.pages.find_first hbit hm hgrp fun c' _ hbit' hm' => ?_
      exact (Option.some.inj (h.objs.only c' (h.pages.met c' hbit') hbit' hm')).symm
  used c hc := by
    obtain ⟨-, hbit, -⟩ := h.objs.inUse c hc
    exact ⟨hbit, h.pages.used c hbit⟩
  only c hbit hm := h.objs.only c (h.pages.met c hbit) hbit hm

/-! ## Interrupted renames -/

/-- No header tells of a rename that was interrupted. -/
def Unshadowed (g : Geometry) (flash : ℕ → Option Page) : Prop :=
  ∀ c ∈ g.chunks, ∀ p, flash c = some p → p.tags.isDeleted = false → p.tags.chunkId = 0 →
    p.data.objHdr.shadows = none

theorem findOrCreateByNumber_fixers (x : ℕ) (type : ObjType) (s : ScanDev) :
    (findOrCreateByNumber g e x type s).1.shadowFixers = s.shadowFixers := by
  unfold findOrCreateByNumber
  dsimp only
  split <;> rfl

theorem scanData1_fixers (c : ℕ) (t : ExtTags) (s : ScanDev) :
    (scanData1 g e m b c t s).1.shadowFixers = s.shadowFixers := by
  have hfind := findOrCreateByNumber_fixers (g := g) (e := e) t.objId .file (s.mapBlk (takeScanned b c))
  unfold scanData1
  dsimp only
  split
  · exact hfind
  · dsimp only
    split_ifs <;> exact hfind

theorem resolveHdr1_fixers (c x serialNumber : ℕ) (s : ScanDev) :
    (resolveHdr1 g e c x serialNumber s).shadowFixers = s.shadowFixers := by
  unfold resolveHdr1
  split_ifs <;> rfl

theorem loadObj1_fixers (c x serialNumber : ℕ) (oh : ObjHdr) (s : ScanDev) :
    (loadObj1 g e m c x serialNumber oh s).1.shadowFixers = s.shadowFixers := by
  have hvariant : ∀ s : ScanDev, (loadVariant1 e m x oh s).1.shadowFixers = s.shadowFixers := by
    intro s
    unfold loadVariant1
    split
    · dsimp only
      split_ifs <;> rfl
    all_goals rfl
  unfold loadObj1
  exact (hvariant _).trans (findOrCreateByNumber_fixers _ _ _)

theorem scanHdr1_fixers (hrd : m.reader = compatReader g.toParam flash serial) {p : Page} (hp : flash n = some p)
    (hshadow : p.data.objHdr.shadows = none) (r : PageRead) (s : ScanDev) :
    (scanHdr1 g e m b n r s).1.shadowFixers = s.shadowFixers := by
  have hdata : ∀ i, (compatReader g.toParam flash serial i n).data = p.data := by
    intro i
    unfold compatReader
    rw [hp]
  have hfind : ∀ s, (findHdrObj1 g e r.tags p.data.objHdr s).1.shadowFixers = s.shadowFixers := by
    intro s
    unfold findHdrObj1
    refine (findOrCreateByNumber_fixers _ _ _).trans ?_
    split
    · split_ifs <;> rfl
    · rfl
  unfold scanHdr1
  rw [hrd, onDev_rdChunk]
  dsimp only
  rw [hdata, hshadow]
  have h1 := hfind ((s.mapBlk (takeScanned b n)).mapBlk countCall)
  generalize findHdrObj1 g e r.tags p.data.objHdr ((s.mapBlk (takeScanned b n)).mapBlk countCall) = q at h1 ⊢
  obtain ⟨s1, found⟩ := q
  cases found with
  | none => exact h1
  | some x =>
    dsimp only
    split_ifs
    · exact (resolveHdr1_fixers _ _ _ _).trans h1
    · exact (resolveHdr1_fixers _ _ _ _).trans h1
    · exact (loadObj1_fixers _ _ _ _ _).trans ((resolveHdr1_fixers _ _ _ _).trans h1)

/-- Without interrupted renames there is nothing to be fixed. -/
theorem scanBlockLoop1_fixers (hrd : m.reader = compatReader g.toParam flash serial) (hfit : FitTags g flash)
    (hun : Unshadowed g flash) (hb : b ∈ g.blocks) (N : ℕ) : ∀ i s, i + N = g.chunksPerBlock →
    (scanBlockLoop1 g e m b N i s).1.shadowFixers = s.shadowFixers := by
  induction N with
  | zero => exact fun i s _ => rfl
  | succ N ih =>
    intro i s hi
    cases hp : flash (b * g.chunksPerBlock + i) with
    | none =>
      rw [scanBlockLoop1_erased hrd hp]
      split_ifs <;> rfl
    | some p =>
      cases hdel : p.tags.isDeleted with
      | true =>
        rw [scanBlockLoop1_deleted hrd hp hdel]
        exact ih (i + 1) _ (by omega)
      | false =>
        have hdiv : (b * g.chunksPerBlock + i) / g.chunksPerBlock = b := by
          rw [Nat.mul_comm, Nat.mul_add_div chunksPerBlock_pos, Nat.div_eq_of_lt (by omega), Nat.add_zero]
        have hpage : ∀ (r : PageRead) (s : ScanDev), r.tags = compatExtTags g.toParam p.tags →
            (if 0 < r.tags.chunkId then scanData1 g e m b (b * g.chunksPerBlock + i) r.tags s
              else scanHdr1 g e m b (b * g.chunksPerBlock + i) r s).1.shadowFixers = s.shadowFixers := by
          intro r s hr
          split_ifs with hdata
          · exact scanData1_fixers _ _ _
          · have hmem : b * g.chunksPerBlock + i ∈ g.chunks := mem_chunks.mpr (hdiv.symm ▸ hb)
            have hchunk : p.tags.chunkId = 0 := by
              rw [hr] at hdata
              have hmod : p.tags.chunkId % 2 ^ 20 = 0 := by simpa [compatExtTags] using hdata
              rwa [Nat.mod_eq_of_lt (hfit _ hmem p hp hdel).2] at hmod
            exact scanHdr1_fixers hrd hp (hun _ hmem p hp hdel hchunk) r s
        have h1 := hpage (compatReader g.toParam flash serial s.nand.calls (b * g.chunksPerBlock + i)) (s.mapBlk countCall)
          (by simp [compatReader, hp])
        rw [scanBlockLoop1_live hrd hp hdel]
        revert h1
        generalize (if 0 < _ then _ else _ : ScanDev × Bool) = q
        intro h1
        split_ifs
        · exact (ih (i + 1) _ (by omega)).trans h1
        · exact h1

theorem scanBlocks1_fixers (hrd : m.reader = compatReader g.toParam flash serial) (hfit : FitTags g flash)
    (hun : Unshadowed g flash) (l : List ℕ) : ∀ s, (∀ b ∈ l, b ∈ g.blocks) →
    (scanBlocks1 g e m l s).1.shadowFixers = s.shadowFixers := by
  induction l with
  | nil => exact fun s _ => rfl
  | cons b l ih =>
    intro s hl
    have h1 : (scanBlock1 g e m b s).1.shadowFixers = s.shadowFixers := by
      unfold scanBlock1
      dsimp only
      split_ifs
      · exact scanBlockLoop1_fixers hrd hfit hun (hl b List.mem_cons_self) _ 0 s (Nat.zero_add _)
      · rfl
    unfold scanBlocks1
    dsimp only
    split_ifs
    · exact (ih _ fun b' hb' => hl b' (List.mem_cons_of_mem b hb')).trans h1
    · exact h1

theorem linkFixup_aside (s : ScanDev) : Aside s.toDev (linkFixup s).toDev := by
  have hfold : ∀ (l : List ℕ) (d : Dev), Aside d (l.foldl linkFixupStep d) := by
    intro l
    induction l with
    | nil => exact Aside.refl
    | cons x l ih =>
      intro d
      refine Aside.trans ?_ (ih _)
      unfold linkFixupStep
      split
      · exact (Aside.modObj d (.of_file rfl rfl rfl rfl)).trans (Aside.modObj _ (.of_file rfl rfl rfl rfl))
      · exact Aside.modObj d (.of_file rfl rfl rfl rfl)
  exact hfold s.hardList s.toDev

/-- `yaffs1_scan` of a device that was `old` in memory and on flash. -/
theorem scanForwards_goes (hs : Scannable g m flash serial ty) (hun : Unshadowed g flash) (hk : k ≠ 0)
    {markedBad : ℕ → Bool} (hq : m.query = compatQuery g.toParam flash markedBad) {b : BlockDev}
    (hflash : b.nand.flash = flash) : Goes e (scanForwards g e m (mountDev g m b)).2
      (Recovered g flash o k (keptPage g.toParam flash serial markedBad o k)
        (scanForwards g e m (mountDev g m b)).1.toDev) := by
  have hqueried := foldl_queryBlock1 (g := g) hq g.blocks
    { mountBlocks b with seqNumber := lowestSequenceNumber } (fun _ => .unknown)
    ⟨fun _ => rfl, fun _ => rfl, hflash, fun _ => rfl⟩
  set d0 := g.blocks.foldl (queryBlock1 g m) { mountBlocks b with seqNumber := lowestSequenceNumber } with hd0
  set state : ℕ → BlockState := fun b => if b ∈ g.blocks then compatState g.toParam flash markedBad b else .unknown
    with hstate
  have hcheckpt : ∀ x, state x ≠ .checkpoint := by
    intro x
    simp only [hstate]
    unfold compatState
    split_ifs <;> simp
  have hstart := hqueried.scanned (m := m) (k := k) (o := o) hs.typed hcheckpt b (g.startBlock * g.chunksPerBlock)
  have hscan := scanBlocks1_goes (e := e) hs hk (g.endBlock + 1 - g.startBlock) g.startBlock _ none
    (fun b hb => hb) hstart
  have hfix := scanBlocks1_fixers (e := e) hs.reader hs.fits hun g.blocks ((mountDev g m b).mapBlk fun _ => d0)
    fun b hb => hb
  have hkept : (List.range' g.startBlock (g.endBlock + 1 - g.startBlock)).foldl (keptBlock g flash serial state o k) none =
      keptPage g.toParam flash serial markedBad o k := by
    refine keptPage_eq fun b hb => ?_
    simp only [hstate, hb, if_true]
  rw [hkept] at hscan
  have hdev : scanForwards g e m (mountDev g m b) =
      (let r := scanBlocks1 g e m g.blocks ((mountDev g m b).mapBlk fun _ => d0)
      ({ linkFixup r.1 with shadowFixers := [] }, r.2)) := by
    unfold scanForwards
    have hnone : ∀ r : ScanDev × Bool, r.1.shadowFixers = [] →
        ({ (linkFixup r.1).mapDev fun d => (linkFixup r.1).shadowFixers.foldl (fixShadow g e) d with
          shadowFixers := [] }, r.2) = ({ linkFixup r.1 with shadowFixers := [] }, r.2) := by
      intro r hr
      rw [show (linkFixup r.1).shadowFixers = [] from hr]
      rfl
    exact hnone _ hfix
  rw [hdev]
  change Goes e (scanBlocks1 g e m g.blocks ((mountDev g m b).mapBlk fun _ => d0)).2
    (Scanned g flash state ty o k (keptPage g.toParam flash serial markedBad o k) _
      (scanBlocks1 g e m g.blocks ((mountDev g m b).mapBlk fun _ => d0)).1) at hscan
  rcases hscan with ⟨hok, h⟩ | hno
  · have h1 : Scanned g flash state ty o k (keptPage g.toParam flash serial markedBad o k) _
        { linkFixup (scanBlocks1 g e m g.blocks ((mountDev g m b).mapBlk fun _ => d0)).1 with shadowFixers := [] } :=
      ⟨h.pages.congr (linkFixup_aside _).info (linkFixup_aside _).bits (linkFixup_aside _).flash,
        h.objs.aside (linkFixup_aside _) fun _ hv => hv⟩
    exact .inl ⟨hok, h1.recovered hs.group⟩
  · exact .inr hno

end Yaffs
