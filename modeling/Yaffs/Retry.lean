import Yaffs.Collector
import Mathlib.Algebra.Order.BigOperators.Group.List
import Mathlib.Algebra.Group.Action.Defs

/-!
# Trying a write again

`yaffs_write_new_chunk` tries another chunk when one is not erased or cannot be programmed. It
gives up the rest of the allocation block each time. A block whose pages are all unused by then
may be erased at once and be allocated again, with one more strike against it : `retries` bounds
how often, and the loop ends.
-/

namespace Yaffs

variable {g : Geometry} {e : Env} {d : BlockDev} {T : ℕ → BlockState → Prop} {b c : ℕ}

/-! ## How often a block can fail -/

/-- Failing writes until a block with this many strikes is to be retired. The counter has three
bits. -/
def strikesLeft (strikes : ℕ) : ℕ :=
  if 3 < (strikes + 1) % 8 then 1 else 5 - (strikes + 1) % 8

theorem strikesLeft_succ {s : ℕ} (h : ¬3 < (s + 1) % 8) : strikesLeft ((s + 1) % 8) < strikesLeft s := by
  unfold strikesLeft
  rw [if_neg h]
  split_ifs <;> omega

theorem strikesLeft_le (s : ℕ) : strikesLeft s ≤ 5 := by
  unfold strikesLeft
  split_ifs <;> omega

/-- A bound on the rounds of the write loop that use the block. -/
def retries (bi : BlockInfo) : ℕ :=
  match bi.blockState with
  | .empty | .checkpoint => 1 + (if bi.gcPrioritise then 1 else 0) + strikesLeft bi.chunkErrorStrikes
  | .allocating => 8
  | _ => 0

theorem retries_le (bi : BlockInfo) : retries bi ≤ 8 := by
  have := strikesLeft_le bi.chunkErrorStrikes
  unfold retries
  split
  · split_ifs <;> omega
  · split_ifs <;> omega
  · exact le_rfl
  · exact Nat.zero_le _

theorem retries_lt {bi : BlockInfo} (h : bi.blockState ≠ .allocating) : retries bi < 8 := by
  have := strikesLeft_le bi.chunkErrorStrikes
  unfold retries
  split
  · split_ifs <;> omega
  · split_ifs <;> omega
  · next hs => exact absurd hs h
  · exact Nat.succ_pos _

/-- The same strikes, and a state that is the same or `full`. -/
structure Milder (bi bi' : BlockInfo) : Prop where
  gcPrioritise : bi'.gcPrioritise = bi.gcPrioritise
  strikes : bi'.chunkErrorStrikes = bi.chunkErrorStrikes
  needsRetiring : bi'.needsRetiring = bi.needsRetiring
  state : bi'.blockState = bi.blockState ∨ bi'.blockState = .full

namespace Milder

variable {bi bi' bi'' : BlockInfo}

theorem refl (bi : BlockInfo) : Milder bi bi :=
  ⟨rfl, rfl, rfl, Or.inl rfl⟩

theorem trans (h : Milder bi bi') (h' : Milder bi' bi'') : Milder bi bi'' where
  gcPrioritise := h'.gcPrioritise.trans h.gcPrioritise
  strikes := h'.strikes.trans h.strikes
  needsRetiring := h'.needsRetiring.trans h.needsRetiring
  state := h'.state.elim (fun hs => hs ▸ h.state) Or.inr

theorem retries_le (h : Milder bi bi') : retries bi' ≤ retries bi := by
  unfold retries
  rw [h.gcPrioritise, h.strikes]
  rcases h.state with hs | hs <;> rw [hs]
  exact Nat.zero_le _

end Milder

/-- All blocks are milder. -/
def MilderDev (d d' : BlockDev) : Prop :=
  ∀ b, Milder (d.blockInfo b) (d'.blockInfo b)

namespace MilderDev

variable {d' d'' : BlockDev}

theorem refl (d : BlockDev) : MilderDev d d :=
  fun b => Milder.refl (d.blockInfo b)

theorem trans (h : MilderDev d d') (h' : MilderDev d' d'') : MilderDev d d'' :=
  fun b => (h b).trans (h' b)

theorem of_info (h : d'.blockInfo = d.blockInfo) : MilderDev d d' := by
  intro b
  rw [h]
  exact Milder.refl _

theorem of_update {bi : BlockInfo} (h : d'.blockInfo = Function.update d.blockInfo b bi)
    (hb : Milder (d.blockInfo b) bi) : MilderDev d d' := by
  intro b'
  rw [h]
  by_cases hne : b' = b
  · subst hne
    simpa using hb
  · simpa [hne] using Milder.refl (d.blockInfo b')

end MilderDev

theorem skipRestOfBlock_milder : MilderDev d (skipRestOfBlock d) := by
  unfold skipRestOfBlock
  split
  · split_ifs
    · exact MilderDev.of_update rfl ⟨rfl, rfl, rfl, Or.inr rfl⟩
    · exact MilderDev.refl d
  · exact MilderDev.refl d

theorem summaryWriteLoop_milder (hdr : SummaryHeader) (st : List SummaryTags) (n : ℕ) :
    ∀ (i chunkId offset nBytes : ℕ) (d : BlockDev),
      MilderDev d (summaryWriteLoop g e b hdr st n i chunkId offset nBytes d).1 := by
  induction n with
  | zero => exact fun _ _ _ _ d => MilderDev.refl d
  | succ n ih =>
    intro i chunkId offset nBytes d
    have hpage : ∀ c p, MilderDev d (countSummaryChunk b c (driverWrite e c p d).1) := fun c p =>
      MilderDev.of_update rfl ⟨rfl, rfl, rfl, Or.inl rfl⟩
    unfold summaryWriteLoop
    simp only
    split_ifs
    · exact hpage _ _
    · exact (hpage _ _).trans (ih _ _ _ _ _)
    · exact MilderDev.of_info rfl

theorem summaryWrite_milder : MilderDev d (summaryWrite g e b d) := by
  unfold summaryWrite
  simp only
  split_ifs
  · exact (summaryWriteLoop_milder _ _ _ _ _ _ _ d).trans
      (MilderDev.of_update rfl ⟨rfl, rfl, rfl, Or.inl rfl⟩)
  · exact summaryWriteLoop_milder _ _ _ _ _ _ _ d

theorem summaryAdd_milder (t : ExtTags) : MilderDev d (summaryAdd g e t c d) := by
  have hsum : ∀ f : ℕ → SummaryTags, MilderDev d { d with sumTags := f } :=
    fun _ => MilderDev.of_info rfl
  unfold summaryAdd
  simp only
  split_ifs
  · have hclear : ∀ d' : BlockDev, MilderDev d' (summaryClear d') := fun _ => MilderDev.of_info rfl
    exact (((hsum _).trans summaryWrite_milder).trans (hclear _)).trans skipRestOfBlock_milder
  · exact hsum _
  · exact MilderDev.refl d

theorem programChunk_milder (data : PageData) (t : ExtTags) :
    MilderDev d (programChunk g e c data t d).1 := by
  have hdrv : MilderDev d (driverWrite e c ⟨stampTags d t, data⟩ d).1 := MilderDev.of_info rfl
  have hwr : MilderDev d (wrChunkTagsNand g e c data t d).1 := hdrv.trans (summaryAdd_milder _)
  unfold programChunk
  simp only
  split_ifs
  · exact hwr
  · exact hwr.trans (MilderDev.of_info rfl)

theorem erasedCheck_milder : MilderDev d (erasedCheck g e c d).1 := by
  have h1 : MilderDev d (if g.alwaysCheckErased then
      d.modBlock (c / g.chunksPerBlock) (fun bi => { bi with skipErasedCheck := false }) else d) := by
    split_ifs
    · exact MilderDev.of_update rfl ⟨rfl, rfl, rfl, Or.inl rfl⟩
    · exact MilderDev.refl d
  have hread : ∀ d' : BlockDev, MilderDev d' (checkChunkErased e c d').1 :=
    fun _ => MilderDev.of_info rfl
  unfold erasedCheck
  simp only
  split_ifs at h1 ⊢
  · exact h1
  · exact h1.trans (hread _)
  · exact h1
  · exact h1.trans (hread _)

/-! ## Deletion and erasure -/

theorem checkptInvalidate_retries (b : ℕ) :
    retries ((checkptInvalidate g e d).blockInfo b) ≤ retries (d.blockInfo b) := by
  have hstep : ∀ (d : BlockDev) (a : ℕ),
      retries ((checkptEraseBlock g e d a).blockInfo b) ≤ retries (d.blockInfo b) := by
    intro d a
    unfold checkptEraseBlock
    simp only
    split_ifs with hs
    · by_cases hb : b = a
      · subst hb
        simp [BlockDev.setState, BlockDev.modBlock, eraseBlock, retries, hs]
      · simp [BlockDev.setState, BlockDev.modBlock, eraseBlock, hb]
    · by_cases hb : b = a
      · subst hb
        simp [BlockDev.setState, BlockDev.modBlock, driverMarkBad, retries]
      · simp [BlockDev.setState, BlockDev.modBlock, driverMarkBad, eraseBlock, hb]
    · exact le_rfl
  have hfold : ∀ (l : List ℕ) (d : BlockDev),
      retries ((l.foldl (checkptEraseBlock g e) d).blockInfo b) ≤ retries (d.blockInfo b) := by
    intro l
    induction l with
    | nil => exact fun d => le_rfl
    | cons a l ih => exact fun d => (ih _).trans (hstep d a)
  unfold checkptInvalidate checkptErase
  split_ifs
  · exact hfold g.blocks _
  · exact le_rfl

theorem checkptInvalidate_info (hs : (d.blockInfo b).blockState ≠ .checkpoint) :
    (checkptInvalidate g e d).blockInfo b = d.blockInfo b := by
  have hstep : ∀ (d : BlockDev) (a : ℕ), (d.blockInfo b).blockState ≠ .checkpoint →
      (checkptEraseBlock g e d a).blockInfo b = d.blockInfo b := by
    intro d a hs
    exact (checkptEraseBlock_quiet a).info b hs
  have hfold : ∀ (l : List ℕ) (d : BlockDev), (d.blockInfo b).blockState ≠ .checkpoint →
      (l.foldl (checkptEraseBlock g e) d).blockInfo b = d.blockInfo b := by
    intro l
    induction l with
    | nil => exact fun d _ => rfl
    | cons a l ih =>
      intro d hs
      have hinfo := hstep d a hs
      exact (ih _ (by rwa [hinfo])).trans hinfo
  unfold checkptInvalidate checkptErase
  split_ifs
  · exact hfold g.blocks { d with isCheckpointed := false } hs
  · rfl

/-- `d'` may use the blocks other than `b` as often as `d`, or less. -/
def WearsOnly (b : ℕ) (d d' : BlockDev) : Prop :=
  ∀ b', b' ≠ b → retries (d'.blockInfo b') ≤ retries (d.blockInfo b')

namespace WearsOnly

variable {d' d'' : BlockDev}

theorem trans (h : WearsOnly b d d') (h' : WearsOnly b d' d'') : WearsOnly b d d'' :=
  fun b' hb => (h' b' hb).trans (h b' hb)

theorem of_info (h : ∀ b', b' ≠ b → d'.blockInfo b' = d.blockInfo b') : WearsOnly b d d' :=
  fun b' hb => by rw [h b' hb]

theorem modBlock (f : BlockInfo → BlockInfo) : WearsOnly b d (d.modBlock b f) :=
  of_info fun b' hb => by simp [BlockDev.modBlock, hb]

end WearsOnly

theorem MilderDev.wearsOnly {d' : BlockDev} (h : MilderDev d d') : WearsOnly b d d' :=
  fun b' _ => (h b').retries_le

theorem checkptInvalidate_wearsOnly : WearsOnly b d (checkptInvalidate g e d) :=
  fun b' _ => checkptInvalidate_retries b'

theorem becomeDirty_info : (becomeDirty g b d).blockInfo =
    Function.update d.blockInfo b { d.blockInfo b with blockState := .dirty } := by
  simp [becomeDirty, BlockDev.setState, BlockDev.modBlock, clearOldestDirtySeq_blockInfo]

theorem retireBlock_wearsOnly : WearsOnly b d (retireBlock g e b d) := by
  obtain ⟨n, hn, -⟩ := markRetired_eq g e b (clearOldestDirtySeq g b (checkptInvalidate g e d))
  unfold retireBlock
  rw [hn]
  refine (checkptInvalidate_wearsOnly (g := g) (e := e)).trans (WearsOnly.of_info fun b' hb => ?_)
  simp [BlockDev.modBlock, hb, clearOldestDirtySeq_blockInfo]

/-- The block has been erased, or is dead. -/
def Renewed (bi bi' : BlockInfo) : Prop :=
  bi'.blockState = .dead ∨ bi.needsRetiring = false ∧ bi'.blockState = .empty ∧
    bi'.gcPrioritise = false ∧ bi'.chunkErrorStrikes = bi.chunkErrorStrikes

theorem blockBecameDirty_renewed :
    Renewed (d.blockInfo b) ((blockBecameDirty g e b d).blockInfo b) ∧
      WearsOnly b d (blockBecameDirty g e b d) := by
  have hdirty : WearsOnly b d (becomeDirty g b d) :=
    WearsOnly.of_info fun b' hb => by simp [becomeDirty_info, hb]
  have hbi : (becomeDirty g b d).blockInfo b = { d.blockInfo b with blockState := .dirty } := by
    simp [becomeDirty_info]
  have hinv : (checkptInvalidate g e (becomeDirty g b d)).blockInfo b =
      { d.blockInfo b with blockState := .dirty } := by
    rw [checkptInvalidate_info (by simp [hbi]), hbi]
  have hspare := hdirty.trans (checkptInvalidate_wearsOnly (g := g) (e := e))
  unfold blockBecameDirty eraseUnlessRetiring
  simp only [hbi]
  by_cases hret : (d.blockInfo b).needsRetiring = true
  · rw [if_pos hret, if_neg Bool.false_ne_true]
    refine ⟨Or.inl retireBlock_state, WearsOnly.trans ?_ retireBlock_wearsOnly⟩
    exact hdirty.trans (WearsOnly.of_info fun _ _ => rfl)
  rw [if_neg hret]
  split_ifs with hok
  · refine ⟨Or.inr ⟨by simpa using hret, ?_, ?_, ?_⟩, hspare.trans (WearsOnly.of_info fun b' hb => ?_)⟩
    · simp [cleanBlock, clearChunkBits, BlockDev.modBlock]
    · simp [cleanBlock, clearChunkBits, BlockDev.modBlock]
    · simp [cleanBlock, clearChunkBits, BlockDev.modBlock, eraseBlock, hinv]
    · simp [cleanBlock, clearChunkBits, BlockDev.modBlock, eraseBlock, hb]
  · refine ⟨Or.inl retireBlock_state, WearsOnly.trans ?_ retireBlock_wearsOnly⟩
    exact hspare.trans (WearsOnly.of_info fun _ _ => rfl)

/-- A deletion leaves the state of the block as it was, or erases it. An allocation block is
not erased. -/
theorem chunkDel_worn (m : Bool) :
    (((chunkDel g e c m d).blockInfo (c / g.chunksPerBlock)).blockState =
        (d.blockInfo (c / g.chunksPerBlock)).blockState ∨
      (d.blockInfo (c / g.chunksPerBlock)).blockState ≠ .allocating ∧
        Renewed (d.blockInfo (c / g.chunksPerBlock))
          ((chunkDel g e c m d).blockInfo (c / g.chunksPerBlock))) ∧
      WearsOnly (c / g.chunksPerBlock) d (chunkDel g e c m d) := by
  have hmark : (markIfNeeded g e c m (updateOldestDirtySeq g (c / g.chunksPerBlock) d)).blockInfo =
      d.blockInfo := by
    obtain ⟨n, hn, -⟩ := markIfNeeded_eq g e c m (updateOldestDirtySeq g (c / g.chunksPerBlock) d)
    rw [hn]
    exact updateOldestDirtySeq_blockInfo
  unfold chunkDel
  simp only
  generalize markIfNeeded g e c m (updateOldestDirtySeq g (c / g.chunksPerBlock) d) = d2 at hmark ⊢
  have hinfo : (releaseChunk (c / g.chunksPerBlock) c d2).blockInfo (c / g.chunksPerBlock) =
      { d.blockInfo (c / g.chunksPerBlock) with
        pagesInUse := (d.blockInfo (c / g.chunksPerBlock)).pagesInUse - 1 } := by
    simp [releaseChunk, BlockDev.clearChunkBit, BlockDev.modBlock, hmark]
  have hspare : WearsOnly (c / g.chunksPerBlock) d (releaseChunk (c / g.chunksPerBlock) c d2) :=
    WearsOnly.of_info fun b' hb => by
      simp [releaseChunk, BlockDev.clearChunkBit, BlockDev.modBlock, hmark, hb]
  split_ifs with h0 hholds hdirty
  · exact ⟨Or.inl rfl, WearsOnly.of_info fun _ _ => rfl⟩
  · obtain ⟨hrenew, hspare'⟩ := blockBecameDirty_renewed (g := g) (e := e) (b := c / g.chunksPerBlock)
      (d := releaseChunk (c / g.chunksPerBlock) c d2)
    rw [hinfo] at hrenew hdirty
    refine ⟨Or.inr ⟨?_, hrenew⟩, hspare.trans hspare'⟩
    simp only [BlockInfo.becameDirty, Bool.and_eq_true, bne_iff_ne] at hdirty
    exact hdirty.1.2
  · exact ⟨Or.inl (by rw [hinfo]), hspare⟩
  · exact ⟨Or.inl (by rw [hmark]), WearsOnly.of_info fun _ _ => by rw [hmark]⟩

/-! ## Chunks in use -/

variable {S : ℕ → Prop} {useReserver : Bool} {data : PageData} {t : ExtTags}

/-- A write that ends with the chunk `r`, or with none, has put that chunk into use, with the data
and the tags, and but for pages of a block summary no other. What was in use stays. -/
structure LeavesInUse (data : PageData) (t : ExtTags) (d d' : BlockDev) (r : Option ℕ) : Prop where
  old : ∀ c, d.chunkBits c = true → d'.chunkBits c = true ∧ d'.nand.flash c = d.nand.flash c
  new : ∀ c, d.chunkBits c = false → d'.chunkBits c = true → r = some c ∨
    ∃ p, d'.nand.flash c = some p ∧ p.tags.objId = objectIdSummary
  written : ∀ c, r = some c → d.chunkBits c = false ∧ d'.chunkBits c = true ∧
    ∃ p, d'.nand.flash c = some p ∧ p.data = data ∧ p.tags.objId = t.objId ∧
      p.tags.chunkId = t.chunkId ∧ p.tags.nBytes = t.nBytes

theorem Extends.leavesInUse {d' : BlockDev} (h : Extends g T S d d') : LeavesInUse data t d d' none :=
  ⟨h.old, fun c hc hc' => Or.inr (h.new c hc hc'), fun _ hr => by simp at hr⟩

theorem LeavesInUse.trans {d' d'' : BlockDev} {r : Option ℕ} (h : LeavesInUse data t d d' none)
    (h' : LeavesInUse data t d' d'' r) : LeavesInUse data t d d'' r where
  old := fun c hc =>
    have h1 := h.old c hc
    have h2 := h'.old c h1.1
    ⟨h2.1, h2.2.trans h1.2⟩
  new := fun c hc hc'' => by
    cases hmid : d'.chunkBits c with
    | true =>
      rcases h.new c hc hmid with hr | ⟨p, hp, hid⟩
      · simp at hr
      · exact Or.inr ⟨p, (h'.old c hmid).2.trans hp, hid⟩
    | false => exact h'.new c hmid hc''
  written := fun c hr => by
    obtain ⟨hmid, hbit, hpage⟩ := h'.written c hr
    refine ⟨?_, hbit, hpage⟩
    by_contra hc
    have := (h.old c (by simpa using hc)).1
    simp [hmid] at this

/-- A chunk that is given up is no longer in use. -/
theorem Holds.giveUp {d' : BlockDev} (h : Holds g T S c d d') (m : Bool) :
    LeavesInUse data t d (skipRestOfBlock (chunkDel g e c m d')) none := by
  have hdel := chunkDel_spec (e := e) h.keeps.blk h.bit m
  have hskip : (skipRestOfBlock (chunkDel g e c m d')).chunkBits = (chunkDel g e c m d').chunkBits ∧
      (skipRestOfBlock (chunkDel g e c m d')).nand = (chunkDel g e c m d').nand := by
    unfold skipRestOfBlock
    split
    · split_ifs
      · exact ⟨rfl, rfl⟩
      · exact ⟨rfl, rfl⟩
    · exact ⟨rfl, rfl⟩
  have hbits : ∀ c', c' ≠ c → (chunkDel g e c m d').chunkBits c' = d'.chunkBits c' := fun c' hne => by
    rw [hdel.quiet.bits]
    simp [BlockDev.clearChunkBit, hne]
  have hflash : ∀ c', c' ≠ c → d'.chunkBits c' = true →
      (chunkDel g e c m d').nand.flash c' = d'.nand.flash c' := fun c' hne hc' => by
    have := congrFun hdel.live c'
    rw [Function.update_of_ne hne] at this
    simpa [BlockDev.live, hbits c' hne, hc'] using this
  refine ⟨fun c' hc' => ?_, fun c' hc' hc'' => ?_, fun _ hr => by simp at hr⟩
  · rw [hskip.1, hskip.2, hbits c' (h.ne hc'), hflash c' (h.ne hc') (h.old c' hc').1]
    exact h.old c' hc'
  · rw [hskip.1] at hc''
    have hne : c' ≠ c := by
      rintro rfl
      rw [hdel.quiet.bits] at hc''
      simp [BlockDev.clearChunkBit] at hc''
    rw [hbits c' hne] at hc''
    rw [hskip.2, hflash c' hne hc'']
    exact Or.inr (h.new c' hne hc' hc'')

/-! ## A round of the loop -/

theorem erasedCheck_state (b : ℕ) :
    ((erasedCheck g e c d).1.blockInfo b).blockState = (d.blockInfo b).blockState := by
  have h1 : ∀ b, ((if g.alwaysCheckErased then
      d.modBlock (c / g.chunksPerBlock) (fun bi => { bi with skipErasedCheck := false })
      else d).blockInfo b).blockState = (d.blockInfo b).blockState := by
    intro b
    split_ifs
    · by_cases hb : b = c / g.chunksPerBlock
      · simp [BlockDev.modBlock, hb]
      · simp [BlockDev.modBlock, hb]
    · rfl
  unfold erasedCheck
  simp only
  split_ifs at h1 ⊢
  · exact h1 b
  · exact h1 b
  · exact h1 b
  · exact h1 b

/-- An allocated chunk is in the block that was open, or in an empty one that has been opened. -/
theorem allocChunk_worn (h : Ready g T S d) {d1 : BlockDev}
    (hc : allocChunk g useReserver d = (d1, some c)) :
    WearsOnly (c / g.chunksPerBlock) d d1 ∧ c / g.chunksPerBlock ∈ g.blocks ∧
      (retries (d.blockInfo (c / g.chunksPerBlock)) = 8 ∨
        (d.blockInfo (c / g.chunksPerBlock)).blockState = .empty ∧
        (d1.blockInfo (c / g.chunksPerBlock)).blockState = .allocating ∧
        (d1.blockInfo (c / g.chunksPerBlock)).gcPrioritise =
          (d.blockInfo (c / g.chunksPerBlock)).gcPrioritise ∧
        (d1.blockInfo (c / g.chunksPerBlock)).chunkErrorStrikes =
          (d.blockInfo (c / g.chunksPerBlock)).chunkErrorStrikes) := by
  have htake : ∀ (b : ℕ) (d' : BlockDev), WearsOnly b d' (takePage g b d').1 := fun b d' =>
    WearsOnly.of_info fun b' hb => by
      unfold takePage
      simp only
      split_ifs <;> simp [closeBlock, usePage, BlockDev.setState, BlockDev.modBlock, BlockDev.setChunkBit, hb]
  have hpage := (ensureAllocBlock_spec h).2.1.page_lt
  unfold allocChunk at hc
  simp only at hc
  split_ifs at hc
  · simp at hc
  cases hb : (ensureAllocBlock g d).alloc.block with
  | none => simp [hb] at hc
  | some b =>
    simp only [hb, Prod.mk.injEq, Option.some.injEq] at hc
    obtain ⟨rfl, rfl⟩ := hc
    have hdiv : (takePage g b (ensureAllocBlock g d)).2 / g.chunksPerBlock = b := chunk_div (hpage b hb)
    rw [hdiv]
    rcases ensureAllocBlock_cases (g := g) d with ⟨a, ha, -, heq⟩ | ⟨b', a, -, hmem, hs, ha, hp, heq⟩
    · rw [heq] at hb ⊢
      obtain ⟨hmem, hs, -⟩ := h.blk.alloc_block b (ha ▸ hb)
      refine ⟨(WearsOnly.of_info fun _ _ => rfl).trans (htake b _), hmem, Or.inl ?_⟩
      simp [retries, hs]
    · rw [heq] at hb ⊢
      obtain rfl : b' = b := Option.some.inj (ha.symm.trans hb)
      have hopen : WearsOnly b' d { takeBlock b' d with alloc := a } :=
        WearsOnly.of_info fun b hb => by simp [takeBlock, BlockDev.modBlock, hb]
      refine ⟨hopen.trans (htake b' _), hmem, Or.inr ⟨hs, ?_⟩⟩
      have htwo := g.two_le_chunksPerBlock
      unfold takePage
      simp only
      rw [if_neg (by simp only [usePage, hp]; omega)]
      simp [usePage, takeBlock, BlockDev.modBlock, BlockDev.setChunkBit]

/-- What becomes of the block of a chunk that is given up, in a state with no more strikes than
`bi` has. -/
theorem giveUp_retries {d d' : BlockDev} {m : Bool} {bi : BlockInfo} (hd : Ready g T S d)
    (h : Holds g T S c d d')
    (hbi : retries bi = 8 ∨ bi.blockState = .empty ∧
      ((d'.blockInfo (c / g.chunksPerBlock)).blockState = .allocating ∨
        ∀ bi', Renewed (d'.blockInfo (c / g.chunksPerBlock)) bi' → retries bi' < retries bi)) :
    retries ((skipRestOfBlock (chunkDel g e c m d')).blockInfo (c / g.chunksPerBlock)) < retries bi ∧
      WearsOnly (c / g.chunksPerBlock) d' (skipRestOfBlock (chunkDel g e c m d')) := by
  have hdel := chunkDel_spec (e := e) h.keeps.blk h.bit m
  obtain ⟨hworn, hspare⟩ := chunkDel_worn (g := g) (e := e) (c := c) (d := d') m
  have hmild := skipRestOfBlock_milder (d := chunkDel g e c m d')
  refine ⟨?_, hspare.trans hmild.wearsOnly⟩
  have hmem := h.keeps.blk.bit_mem c h.bit
  have hblk := (h.discard (e := e) hd m).keeps.blk
  have hclosed : ((skipRestOfBlock (chunkDel g e c m d')).blockInfo (c / g.chunksPerBlock)).blockState ≠
      .allocating := by
    intro hs
    have := hblk.alloc_state _ hmem hs
    rw [skipRestOfBlock_none hblk] at this
    exact Option.some_ne_none _ this.symm
  have hpos : 0 < retries bi := by
    rcases hbi with hbi | ⟨hs, -⟩
    · omega
    · simp only [retries, hs]
      omega
  rcases hworn with hsame | ⟨hne, hren⟩
  · have hin := h.keeps.blk.bit_state c h.bit
    have hzero : retries ((skipRestOfBlock (chunkDel g e c m d')).blockInfo (c / g.chunksPerBlock)) = 0 := by
      rcases (hmild (c / g.chunksPerBlock)).state with hs | hs
      · rw [hs, hsame] at hclosed
        rw [hsame] at hs
        unfold retries
        rw [hs]
        revert hclosed hin
        cases (d'.blockInfo (c / g.chunksPerBlock)).blockState <;> simp [BlockState.inService]
      · simp [retries, hs]
    omega
  · rcases hbi with hbi | ⟨-, hs | hlt⟩
    · rw [hbi]
      exact retries_lt hclosed
    · exact absurd hs hne
    · exact (hmild _).retries_le.trans_lt (hlt _ hren)

/-- A failing write counts against the block, unless one already did since its last erasure. -/
structure Struck (bi bi' : BlockInfo) : Prop where
  prior : bi.gcPrioritise = true → bi'.chunkErrorStrikes = bi.chunkErrorStrikes
  strike : bi.gcPrioritise = false → bi'.chunkErrorStrikes = (bi.chunkErrorStrikes + 1) % 8 ∧
    (3 < (bi.chunkErrorStrikes + 1) % 8 → bi'.needsRetiring = true)

theorem Struck.retries_lt {bi bi' bi'' : BlockInfo} (h : Struck bi bi') (hs : bi.blockState = .empty)
    (hren : Renewed bi' bi'') : retries bi'' < retries bi := by
  rcases hren with hdead | ⟨hret, hempty, hprior, hstrikes⟩
  · simp only [retries, hdead, hs]
    omega
  · simp only [retries, hempty, hs, hprior, hstrikes]
    cases hp : bi.gcPrioritise with
    | true =>
      rw [h.prior hp]
      simp
    | false =>
      obtain ⟨hstrike, hfull⟩ := h.strike hp
      have hlt := strikesLeft_succ (s := bi.chunkErrorStrikes) fun h3 => by simp [hfull h3] at hret
      rw [hstrike]
      simpa using hlt

theorem Struck.retire {bi bi' : BlockInfo} (h : Struck bi bi') : Struck bi { bi' with needsRetiring := true } :=
  ⟨h.prior, fun hp => ⟨(h.strike hp).1, fun _ => rfl⟩⟩

theorem Struck.congr {bi bi0 bi' : BlockInfo} (h : Struck bi bi') (hp : bi.gcPrioritise = bi0.gcPrioritise)
    (hs : bi.chunkErrorStrikes = bi0.chunkErrorStrikes) : Struck bi0 bi' := by
  obtain ⟨hprior, hstrike⟩ := h
  rw [hp, hs] at hprior hstrike
  exact ⟨hprior, hstrike⟩

theorem handleChunkError_struck : Struck (d.blockInfo b) ((handleChunkError b d).blockInfo b) := by
  unfold handleChunkError
  split_ifs with hp
  · exact ⟨fun _ => rfl, fun h => absurd hp (by simp [h])⟩
  · refine ⟨fun h => absurd h hp, fun _ => ?_⟩
    simp only [BlockDev.modBlock, Function.update_self, Bool.or_eq_true, decide_eq_true_eq]
    exact ⟨trivial, Or.inr⟩

theorem handleChunkError_wearsOnly : WearsOnly b d (handleChunkError b d) := by
  unfold handleChunkError
  split_ifs
  · exact WearsOnly.of_info fun _ _ => rfl
  · exact WearsOnly.of_info fun b' hb => by simp [BlockDev.modBlock, hb]

/-- A round that is tried again uses up a block, and leaves the device ready for the next. -/
structure Worn (g : Geometry) (T : ℕ → BlockState → Prop) (S : ℕ → Prop) (d d' : BlockDev) : Prop where
  ready : Ready g T S d'
  wears : ∃ b ∈ g.blocks, retries (d'.blockInfo b) < retries (d.blockInfo b) ∧ WearsOnly b d d'

theorem writeAttempt_round (h : Ready g T S d) (data : PageData) (t : ExtTags) :
    LeavesInUse data t d (writeAttempt g e data t useReserver d).1
        (writeAttempt g e data t useReserver d).2.chunk ∧
      ((writeAttempt g e data t useReserver d).2 = .retry →
        Worn g T S d (writeAttempt g e data t useReserver d).1) := by
  have halloc := allocChunk_spec h useReserver
  unfold writeAttempt
  split
  · rename_i d1 heq
    rw [heq] at halloc
    exact ⟨halloc.extends.leavesInUse, fun hr => Attempt.noConfusion hr⟩
  · rename_i d1 c heq
    rw [heq] at halloc
    obtain ⟨hspare, hmem, hblock⟩ := allocChunk_worn h heq
    have hcheck := erasedCheck_flagged (e := e) (S := S) halloc.keeps.blk halloc.touch
    have h2 := halloc.holds.extend hcheck.extends (hcheck.opn halloc.opn)
    have hp2 := hcheck.placed halloc.placed
    have hm2 := erasedCheck_milder (g := g) (e := e) (c := c) (d := d1)
    have hs2 := erasedCheck_state (g := g) (e := e) (c := c) (d := d1) (c / g.chunksPerBlock)
    simp only
    generalize erasedCheck g e c d1 = r at hcheck h2 hp2 hm2 hs2 ⊢
    split_ifs with hok hwr
    · refine ⟨?_, False.elim⟩
      have h3 := programChunk_holds (e := e) h h2 hp2 data t
      obtain ⟨p, hflash, hpage⟩ := programChunk_page (e := e) h h2 hp2 data t hwr
      refine ⟨h3.old, fun c' hc' hc'' => ?_, fun c' hr => ?_⟩
      · by_cases hne : c' = c
        · exact Or.inl (congrArg some hne.symm)
        · exact Or.inr (h3.new c' hne hc' hc'')
      · obtain rfl : c = c' := Option.some.inj hr
        exact ⟨h3.unused, h3.bit, p, hflash, hpage.1, hpage.2.1, hpage.2.2.1, hpage.2.2.2.1⟩
    · have h3 := programChunk_holds (e := e) h h2 hp2 data t
      have hm3 := hm2.trans (programChunk_milder (g := g) (e := e) (c := c) data t)
      generalize programChunk g e c data t r.1 = w at h3 hm3 hwr ⊢
      have hw1 := handleChunkError_flagged (S := S) h3.keeps.blk h3.touch
      have hstruck := handleChunkError_struck (b := c / g.chunksPerBlock) (d := w.1)
      have hspare1 := handleChunkError_wearsOnly (b := c / g.chunksPerBlock) (d := w.1)
      unfold handleChunkWrError
      simp only
      generalize handleChunkError (c / g.chunksPerBlock) w.1 = d3 at hw1 hstruck hspare1 ⊢
      split_ifs
      · have hw2 := hw1.trans (Flagged.modBlock (f := fun bi => { bi with needsRetiring := true })
          hw1.keeps.blk h3.touch fun _ => rfl)
        have hinfo : (d3.modBlock (c / g.chunksPerBlock) fun bi => { bi with needsRetiring := true }).blockInfo
            (c / g.chunksPerBlock) = { d3.blockInfo (c / g.chunksPerBlock) with needsRetiring := true } := by
          simp [BlockDev.modBlock]
        have h4 := h3.extend hw2.extends (hw2.opn h3.opn)
        obtain ⟨hlt, hspare'⟩ := giveUp_retries (e := e) (m := true) h h4
          (hblock.imp_right fun hb => ⟨hb.1, Or.inr fun bi' hren => by
            rw [hinfo] at hren
            exact (hstruck.retire.congr ((hm3 _).gcPrioritise.trans hb.2.2.1)
              ((hm3 _).strikes.trans hb.2.2.2)).retries_lt hb.1 hren⟩)
        exact ⟨h4.giveUp true, fun _ => ⟨(h4.discard h true).ready h, c / g.chunksPerBlock, hmem, hlt,
          ((hspare.trans hm3.wearsOnly).trans hspare1).trans ((WearsOnly.modBlock _).trans hspare')⟩⟩
      · have h4 := h3.extend hw1.extends (hw1.opn h3.opn)
        obtain ⟨hlt, hspare'⟩ := giveUp_retries (e := e) (m := true) h h4
          (hblock.imp_right fun hb => ⟨hb.1, Or.inr fun bi' hren =>
            (hstruck.congr ((hm3 _).gcPrioritise.trans hb.2.2.1)
              ((hm3 _).strikes.trans hb.2.2.2)).retries_lt hb.1 hren⟩)
        exact ⟨h4.giveUp true, fun _ => ⟨(h4.discard h true).ready h, c / g.chunksPerBlock, hmem, hlt,
          ((hspare.trans hm3.wearsOnly).trans hspare1).trans hspare'⟩⟩
    · obtain ⟨hlt, hspare'⟩ := giveUp_retries (e := e) (m := true) h h2
        (hblock.imp_right fun hb => ⟨hb.1, Or.inl (hs2.trans hb.2.1)⟩)
      exact ⟨h2.giveUp true, fun _ => ⟨(h2.discard h true).ready h, c / g.chunksPerBlock, hmem, hlt,
        (hspare.trans hm2.wearsOnly).trans hspare'⟩⟩

/-! ## The loop -/

/-- The rounds the write loop may still make. -/
def roundsLeft (g : Geometry) (d : BlockDev) : ℕ :=
  (g.blocks.map fun b => retries (d.blockInfo b)).sum

theorem roundsLeft_lt_writeRounds : roundsLeft g d < writeRounds g := by
  have := List.sum_le_card_nsmul (g.blocks.map fun b => retries (d.blockInfo b)) 8 (by
    intro n hn
    obtain ⟨b, -, rfl⟩ := List.mem_map.mp hn
    exact retries_le _)
  rw [List.length_map, smul_eq_mul] at this
  unfold roundsLeft writeRounds
  omega

theorem Worn.roundsLeft_lt {d' : BlockDev} (h : Worn g T S d d') : roundsLeft g d' < roundsLeft g d := by
  obtain ⟨b, hb, hlt, hspare⟩ := h.wears
  refine List.sum_lt_sum _ _ (fun b' _ => ?_) ⟨b, hb, hlt⟩
  by_cases hne : b' = b
  · exact hne ▸ hlt.le
  · exact hspare b' hne

/-- The loop of `yaffs_write_new_chunk` ends, after `attempts` rounds so far : when there is no
space, when a chunk is written, or when it gives up. -/
inductive WriteEnds (g : Geometry) (e : Env) (data : PageData) (t : ExtTags) (useReserver : Bool) :
    ℕ → BlockDev → BlockDev × Option ℕ → Prop
  | noSpace {attempts : ℕ} {d d' : BlockDev} : writeAttempt g e data t useReserver d = (d', .noSpace) →
      WriteEnds g e data t useReserver attempts d (d', none)
  | written {attempts c : ℕ} {d d' : BlockDev} : writeAttempt g e data t useReserver d = (d', .written c) →
      WriteEnds g e data t useReserver attempts d (d', some c)
  | giveUp {attempts : ℕ} {d d' : BlockDev} : writeAttempt g e data t useReserver d = (d', .retry) →
      ¬(g.wrAttempts = 0 ∨ attempts + 1 ≤ g.wrAttempts) →
      WriteEnds g e data t useReserver attempts d (d', none)
  | again {attempts : ℕ} {d d' : BlockDev} {r : BlockDev × Option ℕ} :
      writeAttempt g e data t useReserver d = (d', .retry) →
      (g.wrAttempts = 0 ∨ attempts + 1 ≤ g.wrAttempts) →
      WriteEnds g e data t useReserver (attempts + 1) d' r → WriteEnds g e data t useReserver attempts d r

theorem writeNewChunkLoop_ends (data : PageData) (t : ExtTags) (useReserver : Bool) (n : ℕ) :
    ∀ (attempts : ℕ) (d : BlockDev), Ready g T S d → roundsLeft g d < n →
      WriteEnds g e data t useReserver attempts d (writeNewChunkLoop g e data t useReserver n attempts d) ∧
        LeavesInUse data t d (writeNewChunkLoop g e data t useReserver n attempts d).1
          (writeNewChunkLoop g e data t useReserver n attempts d).2 := by
  induction n with
  | zero => exact fun _ _ _ hn => absurd hn (Nat.not_lt_zero _)
  | succ n ih =>
    intro attempts d h hn
    obtain ⟨huse, hworn⟩ := writeAttempt_round (e := e) h data t
    unfold writeNewChunkLoop
    split
    · next d' heq =>
      rw [heq] at huse
      exact ⟨.noSpace heq, huse⟩
    · next d' c heq =>
      rw [heq] at huse
      exact ⟨.written heq, huse⟩
    · next d' heq =>
      rw [heq] at huse hworn
      have hworn := hworn rfl
      split_ifs with hagain
      · obtain ⟨hends, huse'⟩ := ih (attempts + 1) d' hworn.ready (by
          have hlt : roundsLeft g d' < roundsLeft g d := hworn.roundsLeft_lt
          omega)
        exact ⟨.again heq hagain hends, huse.trans huse'⟩
      · exact ⟨.giveUp heq hagain, huse⟩

/-- `yaffs_write_new_chunk` ends, for any setting of `wr_attempts`. It returns a chunk that it has put
into use with the data and the tags, or none ; other chunks come into use for block summaries only. -/
theorem writeNewChunk_ends (hblk : BlkInv g T d) (hopn : OpenInv g d) (data : PageData) (t : ExtTags)
    (useReserver : Bool) :
    WriteEnds g e data t useReserver 0 (checkptInvalidate g e d) (writeNewChunk g e data t useReserver d) ∧
      LeavesInUse data t d (writeNewChunk g e data t useReserver d).1
        (writeNewChunk g e data t useReserver d).2 := by
  have hready : Ready g T (fun _ => True) d := ⟨hblk, hopn, fun _ _ => trivial⟩
  obtain ⟨hends, huse⟩ := writeNewChunkLoop_ends (e := e) data t useReserver (writeRounds g) 0
    (checkptInvalidate g e d) ((checkptInvalidate_wrote hready).ready hready) roundsLeft_lt_writeRounds
  exact ⟨hends, (checkptInvalidate_extends hready).leavesInUse.trans huse⟩

theorem writeNewChunk_ends_shaky :
    let d := blankBlocks sampleGeometry fun _ => false
    let r := writeNewChunk sampleGeometry shakyEnv (.bytes []) { objId := 257, chunkId := 1 } false d
    WriteEnds sampleGeometry shakyEnv (.bytes []) { objId := 257, chunkId := 1 } false 0
        (checkptInvalidate sampleGeometry shakyEnv d) r ∧
      LeavesInUse (.bytes []) { objId := 257, chunkId := 1 } d r.1 r.2 :=
  writeNewChunk_ends (blankBlocks_blk _ (fun _ _ => False) _) (blankBlocks_opn _ _) _ _ _

end Yaffs
