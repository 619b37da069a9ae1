import Yaffs.Filling

/-!
# Where a write puts its page

On a yaffs1 device whose driver does what it is told, `yaffs_write_new_chunk` programs one page, and
otherwise only deletion marks. The page lies in a good block behind pages that have been programmed,
so a scan that reads a block up to its first erased page meets it.
-/

namespace Yaffs

variable {g : Geometry} {e : Env} {T : ℕ → BlockState → Prop} {S : ℕ → Prop} {d d' d'' : BlockDev} {b c : ℕ}

/-- Programs, erasures and the marking of bad blocks succeed. -/
structure Env.Programs (e : Env) : Prop where
  writeOk : ∀ n, e.writeOk n = true
  eraseOk : ∀ n, e.eraseOk n = true
  markOk : ∀ n, e.markOk n = true

/-! ## Steps without new pages -/

/-- A step that programs nothing but deletion marks. -/
structure NoNews (d d' : BlockDev) : Prop where
  pages : ∀ c p, d'.nand.flash c = some p → p.tags.isDeleted = false → d.nand.flash c = some p
  good : ∀ b, (d'.blockInfo b).blockState ≠ .dead →
    (d.blockInfo b).blockState ≠ .dead ∧ d'.nand.markedBad b = d.nand.markedBad b

namespace NoNews

theorem refl (d : BlockDev) : NoNews d d :=
  ⟨fun _ _ h _ => h, fun _ h => ⟨h, rfl⟩⟩

theorem trans (h : NoNews d d') (h' : NoNews d' d'') : NoNews d d'' where
  pages c p hp hlive := h.pages c p (h'.pages c p hp hlive) hlive
  good b hb := by
    obtain ⟨hb', hbad'⟩ := h'.good b hb
    obtain ⟨hb, hbad⟩ := h.good b hb'
    exact ⟨hb, hbad'.trans hbad⟩

/-- A step that leaves the flash, and takes no dead block into service. -/
theorem of_flash (hflash : d'.nand.flash = d.nand.flash) (hbad : d'.nand.markedBad = d.nand.markedBad)
    (hdead : ∀ b, (d'.blockInfo b).blockState ≠ .dead → (d.blockInfo b).blockState ≠ .dead) : NoNews d d' where
  pages _ _ hp _ := hflash ▸ hp
  good b hb := ⟨hdead b hb, congrFun hbad b⟩

/-- A step that leaves the flash and the states of blocks. -/
theorem of_same (hflash : d'.nand.flash = d.nand.flash) (hbad : d'.nand.markedBad = d.nand.markedBad)
    (hstate : ∀ b, (d'.blockInfo b).blockState = (d.blockInfo b).blockState) : NoNews d d' :=
  of_flash hflash hbad fun b hb => hstate b ▸ hb

theorem setState {s : BlockState} (hb : (d.blockInfo b).blockState ≠ .dead) : NoNews d (d.setState b s) := by
  refine of_flash rfl rfl fun b' hb' => ?_
  by_cases hbb : b' = b
  · exact hbb ▸ hb
  · simpa [BlockDev.setState, BlockDev.modBlock, hbb] using hb'

theorem modBlock {f : BlockInfo → BlockInfo} (hf : (f (d.blockInfo b)).blockState = (d.blockInfo b).blockState) :
    NoNews d (d.modBlock b f) := by
  refine of_same rfl rfl fun b' => ?_
  by_cases hbb : b' = b
  · rw [hbb]
    simpa [BlockDev.modBlock] using hf
  · simp [BlockDev.modBlock, hbb]

theorem eraseBlock (he : e.Programs) : NoNews d (Yaffs.eraseBlock g e b d).1 where
  pages c p hp _ := by
    simp only [Yaffs.eraseBlock, he.eraseOk, if_true] at hp
    split_ifs at hp
    exact hp
  good b hb := ⟨hb, rfl⟩

theorem markDeleted (he : e.Programs) : NoNews d (Yaffs.markDeleted e c d) where
  pages c' p hp hlive := by
    simp only [Yaffs.markDeleted, driverWrite, he.writeOk, if_true] at hp
    by_cases hc : c' = c
    · rw [hc, Function.update_self] at hp
      rw [← Option.some.inj hp] at hlive
      exact absurd hlive (by simp)
    · rwa [Function.update_of_ne hc] at hp
  good b hb := ⟨hb, rfl⟩

end NoNews

/-! ## Blocks -/

theorem checkptInvalidate_noNews (he : e.Programs) : NoNews d (checkptInvalidate g e d) := by
  have hstep : ∀ (d : BlockDev) (b : ℕ), NoNews d (checkptEraseBlock g e d b) := by
    intro d b
    unfold checkptEraseBlock
    split_ifs with hs
    · have h1 : NoNews d (eraseBlock g e b d).1 := NoNews.eraseBlock he
      have h2 : NoNews (eraseBlock g e b d).1 ((eraseBlock g e b d).1.setState b .empty) :=
        NoNews.setState (by
          change (d.blockInfo b).blockState ≠ .dead
          simp [hs])
      dsimp only
      rw [if_pos (show (eraseBlock g e b d).2 = true from he.eraseOk _)]
      exact (h1.trans h2).trans (NoNews.of_same rfl rfl fun _ => rfl)
    · exact NoNews.refl d
  have hfold : ∀ (l : List ℕ) (d : BlockDev), NoNews d (l.foldl (checkptEraseBlock g e) d) := by
    intro l
    induction l with
    | nil => exact NoNews.refl
    | cons b l ih => exact fun d => (hstep d b).trans (ih _)
  unfold checkptInvalidate
  split_ifs
  · have h1 : NoNews d { d with isCheckpointed := false } := NoNews.of_same rfl rfl fun _ => rfl
    exact (h1.trans (hfold _ _)).trans (NoNews.of_same rfl rfl fun _ => rfl)
  · exact NoNews.refl d

theorem clearOldestDirtySeq_noNews : NoNews d (clearOldestDirtySeq g b d) := by
  unfold clearOldestDirtySeq
  split_ifs
  · exact NoNews.of_same rfl rfl fun _ => rfl
  · exact NoNews.refl d

theorem updateOldestDirtySeq_noNews : NoNews d (updateOldestDirtySeq g b d) := by
  unfold updateOldestDirtySeq
  split_ifs
  · exact NoNews.of_same rfl rfl fun _ => rfl
  · exact NoNews.refl d

/-- A block that is retired is dead. -/
theorem retireBlock_noNews (he : e.Programs) : NoNews d (retireBlock g e b d) := by
  have h1 := (checkptInvalidate_noNews (g := g) (d := d) he).trans (clearOldestDirtySeq_noNews (g := g) (b := b))
  unfold retireBlock
  refine h1.trans ?_
  generalize clearOldestDirtySeq g b (checkptInvalidate g e d) = d1
  have hmark : (markRetired g e b d1).nand.flash = d1.nand.flash ∧ (markRetired g e b d1).blockInfo = d1.blockInfo ∧
      ∀ b', b' ≠ b → (markRetired g e b d1).nand.markedBad b' = d1.nand.markedBad b' := by
    unfold markRetired markBad driverMarkBad
    rw [he.markOk]
    split_ifs
    · exact ⟨rfl, rfl, fun _ _ => rfl⟩
    · exact ⟨rfl, rfl, fun b' hb' => Function.update_of_ne hb' _ _⟩
  obtain ⟨hflash, hinfo, hbad⟩ := hmark
  refine ⟨fun c p hp _ => hflash ▸ hp, fun b' hb' => ?_⟩
  by_cases hbb : b' = b
  · exact absurd (by simp [BlockDev.modBlock, hbb]) hb'
  · refine ⟨?_, hbad b' hbb⟩
    simpa [BlockDev.modBlock, hbb, hinfo] using hb'

theorem blockBecameDirty_noNews (he : e.Programs) (hb : (d.blockInfo b).blockState ≠ .dead) :
    NoNews d (blockBecameDirty g e b d) := by
  have h1 : NoNews d (becomeDirty g b d) := by
    have h0 := clearOldestDirtySeq_noNews (g := g) (d := d) (b := b)
    have hb0 : ((clearOldestDirtySeq g b d).blockInfo b).blockState ≠ .dead := by
      rwa [clearOldestDirtySeq_blockInfo]
    exact (h0.trans (NoNews.setState hb0 (s := .dirty))).trans (NoNews.of_same rfl rfl fun _ => rfl)
  have h2 : NoNews d (eraseUnlessRetiring g e b (becomeDirty g b d)).1 := by
    unfold eraseUnlessRetiring
    split_ifs
    · exact h1
    · exact (h1.trans (checkptInvalidate_noNews he)).trans (NoNews.eraseBlock he)
  have hdirty : ((eraseUnlessRetiring g e b (becomeDirty g b d)).1.blockInfo b).blockState ≠ .dead := by
    have hs := becomeDirty_state (g := g) (d := d) (b := b)
    unfold eraseUnlessRetiring
    split_ifs
    · simp [hs]
    · change ((checkptInvalidate g e (becomeDirty g b d)).blockInfo b).blockState ≠ .dead
      rw [checkptInvalidate_state (by simp [hs]), hs]
      decide
  unfold blockBecameDirty
  dsimp only
  generalize eraseUnlessRetiring g e b (becomeDirty g b d) = r at h2 hdirty ⊢
  split_ifs
  · refine h2.trans (NoNews.of_flash rfl rfl fun b' hb' => ?_)
    by_cases hbb : b' = b
    · exact hbb ▸ hdirty
    · simpa [cleanBlock, clearChunkBits, BlockDev.modBlock, hbb] using hb'
  · have h3 : NoNews d { r.1 with nFreeChunks := r.1.nFreeChunks - g.chunksPerBlock } :=
      h2.trans (NoNews.of_same rfl rfl fun _ => rfl)
    exact h3.trans (retireBlock_noNews he)

/-! ## Deletion -/

/-- A page leaves the management area. -/
theorem release_noNews (he : e.Programs) : NoNews d (
    if (d.blockInfo (c / g.chunksPerBlock)).blockState.holdsChunks then
      let d := releaseChunk (c / g.chunksPerBlock) c d
      if (d.blockInfo (c / g.chunksPerBlock)).becameDirty then blockBecameDirty g e (c / g.chunksPerBlock) d else d
    else d) := by
  have hstate : ∀ b', ((releaseChunk (c / g.chunksPerBlock) c d).blockInfo b').blockState =
      (d.blockInfo b').blockState := by
    intro b'
    by_cases hb : b' = c / g.chunksPerBlock <;> simp [releaseChunk, BlockDev.clearChunkBit, BlockDev.modBlock, hb]
  have h1 : NoNews d (releaseChunk (c / g.chunksPerBlock) c d) := NoNews.of_same rfl rfl hstate
  by_cases hheld : (d.blockInfo (c / g.chunksPerBlock)).blockState.holdsChunks
  · rw [if_pos hheld]
    have hdead : ((releaseChunk (c / g.chunksPerBlock) c d).blockInfo (c / g.chunksPerBlock)).blockState ≠ .dead := by
      rw [hstate]
      intro hdead
      rw [hdead] at hheld
      exact absurd hheld (by decide)
    dsimp only
    generalize releaseChunk (c / g.chunksPerBlock) c d = d1 at h1 hdead ⊢
    split_ifs
    · exact h1.trans (blockBecameDirty_noNews he hdead)
    · exact h1
  · rw [if_neg hheld]
    exact NoNews.refl d

theorem chunkDel_noNews (he : e.Programs) (m : Bool) : NoNews d (chunkDel g e c m d) := by
  have h1 : NoNews d (markIfNeeded g e c m (updateOldestDirtySeq g (c / g.chunksPerBlock) d)) := by
    unfold markIfNeeded
    split_ifs
    · exact updateOldestDirtySeq_noNews.trans (NoNews.markDeleted he)
    · exact updateOldestDirtySeq_noNews
  unfold chunkDel
  split_ifs
  · exact NoNews.refl d
  all_goals exact h1.trans (release_noNews he)

/-- The page that is deleted gets a mark. -/
theorem chunkDel_marks (he : e.Programs) (hy : g.isYaffs2 = false) (hc : c ≠ 0)
    (hs : (d.blockInfo (c / g.chunksPerBlock)).blockState ≠ .collecting) {p : Page}
    (hp : (chunkDel g e c true d).nand.flash c = some p) : p.tags.isDeleted = true := by
  have hinfo := updateOldestDirtySeq_blockInfo (g := g) (d := d) (b := c / g.chunksPerBlock)
  have hmark : markIfNeeded g e c true (updateOldestDirtySeq g (c / g.chunksPerBlock) d) =
      markDeleted e c (updateOldestDirtySeq g (c / g.chunksPerBlock) d) := by
    unfold markIfNeeded
    rw [if_pos]
    simp [hy, hinfo, hs]
  refine eq_true_of_ne_false fun hlive => ?_
  unfold chunkDel at hp
  dsimp only at hp
  rw [if_neg hc, hmark] at hp
  have hmarked := (release_noNews (g := g) he).pages c p hp hlive
  simp only [markDeleted, driverWrite, he.writeOk, if_true, Function.update_self] at hmarked
  rw [← Option.some.inj hmarked] at hlive
  exact absurd hlive (by simp)

theorem skipRestOfBlock_noNews : NoNews d (skipRestOfBlock d) := by
  unfold skipRestOfBlock
  split
  · split_ifs with hs
    · exact (NoNews.setState (by simp [hs.2])).trans (NoNews.of_same rfl rfl fun _ => rfl)
    · exact NoNews.refl d
  · exact NoNews.refl d

theorem handleChunkError_noNews : NoNews d (handleChunkError b d) ∧
    ∀ b', ((handleChunkError b d).blockInfo b').blockState = (d.blockInfo b').blockState := by
  have h1 : NoNews d (d.modBlock b fun bi =>
      { bi with
        gcPrioritise := true
        chunkErrorStrikes := (bi.chunkErrorStrikes + 1) % 8
        needsRetiring := bi.needsRetiring || decide (3 < (bi.chunkErrorStrikes + 1) % 8) }) := NoNews.modBlock rfl
  unfold handleChunkError
  split_ifs
  · exact ⟨NoNews.refl d, fun _ => rfl⟩
  · refine ⟨h1.trans (NoNews.of_same rfl rfl fun _ => rfl), fun b' => ?_⟩
    by_cases hb : b' = b <;> simp [BlockDev.modBlock, hb]

/-- A page whose programming is given up gets a mark. -/
theorem handleChunkWrError_marks (he : e.Programs) (hy : g.isYaffs2 = false) (hc : c ≠ 0)
    (hs : (d.blockInfo (c / g.chunksPerBlock)).blockState ≠ .collecting) (erasedOk : Bool) :
    NoNews d (handleChunkWrError g e c erasedOk d) ∧
      ∀ p, (handleChunkWrError g e c erasedOk d).nand.flash c = some p → p.tags.isDeleted = true := by
  obtain ⟨h1, hs1⟩ := handleChunkError_noNews (d := d) (b := c / g.chunksPerBlock)
  have h2 : ∃ d2, (if erasedOk then (handleChunkError (c / g.chunksPerBlock) d).modBlock (c / g.chunksPerBlock) fun bi =>
      { bi with needsRetiring := true } else handleChunkError (c / g.chunksPerBlock) d) = d2 ∧ NoNews d d2 ∧
      (d2.blockInfo (c / g.chunksPerBlock)).blockState = (d.blockInfo (c / g.chunksPerBlock)).blockState := by
    refine ⟨_, rfl, ?_⟩
    split_ifs
    · refine ⟨h1.trans (NoNews.modBlock rfl), ?_⟩
      rw [← hs1]
      simp [BlockDev.modBlock]
    · exact ⟨h1, hs1 _⟩
  obtain ⟨d2, heq, h2, hs2⟩ := h2
  have hskip : ∀ d : BlockDev, (skipRestOfBlock d).nand = d.nand := by
    intro d
    unfold skipRestOfBlock
    split
    · split_ifs <;> rfl
    · rfl
  unfold handleChunkWrError
  dsimp only
  rw [heq]
  refine ⟨h2.trans ((chunkDel_noNews he true).trans skipRestOfBlock_noNews), fun p hp => ?_⟩
  rw [hskip] at hp
  exact chunkDel_marks he hy hc (hs2 ▸ hs) hp

/-! ## Writing -/

theorem ensureAllocBlock_noNews : NoNews d (ensureAllocBlock g d) := by
  rcases ensureAllocBlock_cases (g := g) d with ⟨a, -, -, heq⟩ | ⟨b, a, -, -, hs, -, -, heq⟩
  · rw [heq]
    exact NoNews.of_same rfl rfl fun _ => rfl
  · rw [heq]
    refine NoNews.of_flash rfl rfl fun b' hb' => ?_
    by_cases hbb : b' = b
    · simp [hbb, hs]
    · simpa [takeBlock, BlockDev.modBlock, hbb] using hb'

/-- A device a write can go on with : the blocks in service are good, and the pages below the cursor
of the allocation block have been programmed. -/
structure Writable (g : Geometry) (d : BlockDev) : Prop where
  good : ∀ b, (d.blockInfo b).blockState ≠ .dead → d.nand.markedBad b = false
  filled : ∀ b, d.alloc.block = some b → ∀ c, c / g.chunksPerBlock = b → c % g.chunksPerBlock < d.alloc.page →
    d.nand.flash c ≠ none

theorem Writable.noNews (h : Writable g d) (hn : NoNews d d') (hnone : d'.alloc.block = none) : Writable g d' where
  good b hb := by
    obtain ⟨hb', hbad⟩ := hn.good b hb
    exact hbad.trans (h.good b hb')
  filled b hb := absurd (hnone.symm.trans hb) (by simp)

/-- A page has been put into chunk `c`, in a good block behind programmed pages. -/
structure Lands (g : Geometry) (c : ℕ) (d d' : BlockDev) : Prop where
  pages : ∀ x p, x ≠ c → d'.nand.flash x = some p → p.tags.isDeleted = false → d.nand.flash x = some p
  good : d'.nand.markedBad (c / g.chunksPerBlock) = false
  behind : ∀ x, x / g.chunksPerBlock = c / g.chunksPerBlock → x ≤ c → d'.nand.flash x ≠ none

theorem NoNews.lands (hn : NoNews d d') (h : Lands g c d' d'') : Lands g c d d'' :=
  { h with pages := fun x p hx hp hlive => hn.pages x p (h.pages x p hx hp hlive) hlive }

/-- A new allocation block has no page yet. -/
theorem Writable.ensureAllocBlock (h : Writable g d) : Writable g (ensureAllocBlock g d) := by
  have hgood : ∀ b, ((Yaffs.ensureAllocBlock g d).blockInfo b).blockState ≠ .dead →
      (Yaffs.ensureAllocBlock g d).nand.markedBad b = false := by
    intro b hb
    obtain ⟨hb', hbad⟩ := (ensureAllocBlock_noNews (g := g) (d := d)).good b hb
    exact hbad.trans (h.good b hb')
  refine ⟨hgood, fun b hb c hc hlt => ?_⟩
  rcases ensureAllocBlock_cases (g := g) d with ⟨a, ha, hsame, heq⟩ | ⟨b', a, -, -, -, -, hpage, heq⟩
  · rw [heq] at hb hlt ⊢
    have hd : d.alloc.block = some b := ha.symm.trans hb
    have hcursor : a = d.alloc := hsame (by simp [hd])
    exact h.filled b hd c hc (by simpa [hcursor] using hlt)
  · rw [heq] at hlt
    exact absurd hlt (by simp [hpage])

theorem erasedCheck_nand (c : ℕ) (d : BlockDev) : (erasedCheck g e c d).1.nand.flash = d.nand.flash ∧
    (erasedCheck g e c d).1.nand.markedBad = d.nand.markedBad ∧
    ∀ b, ((erasedCheck g e c d).1.blockInfo b).blockState = (d.blockInfo b).blockState := by
  have h1 : ∀ b, ((d.modBlock (c / g.chunksPerBlock) fun bi => { bi with skipErasedCheck := false }).blockInfo b).blockState =
      (d.blockInfo b).blockState := by
    intro b
    by_cases hb : b = c / g.chunksPerBlock <;> simp [BlockDev.modBlock, hb]
  unfold erasedCheck
  dsimp only
  split_ifs
  · exact ⟨rfl, rfl, h1⟩
  · exact ⟨rfl, rfl, h1⟩
  · exact ⟨rfl, rfl, fun _ => rfl⟩
  · exact ⟨rfl, rfl, fun _ => rfl⟩

theorem programChunk_nand (he : e.Programs) (hsum : g.hasSummaries = false) (c : ℕ) (data : PageData) (t : ExtTags)
    (d : BlockDev) :
    (programChunk g e c data t d).1.nand.flash = Function.update d.nand.flash c (some ⟨stampTags d t, data⟩) ∧
    (programChunk g e c data t d).1.nand.markedBad = d.nand.markedBad ∧
    (programChunk g e c data t d).1.blockInfo = d.blockInfo := by
  unfold programChunk wrChunkTagsNand summaryAdd
  simp only [hsum, Bool.false_and, Bool.false_eq_true, if_false]
  have hw : ∀ q : Page, (driverWrite e c q d).1.nand.flash = Function.update d.nand.flash c (some q) := by
    intro q
    simp [driverWrite, he.writeOk]
  split_ifs
  · exact ⟨hw _, rfl, rfl⟩
  · exact ⟨hw _, rfl, rfl⟩

/-- What one round of the loop of `yaffs_write_new_chunk` leaves. -/
def RoundResult (g : Geometry) (d d' : BlockDev) : Attempt → Prop
  | .noSpace => NoNews d d'
  | .retry => NoNews d d' ∧ d'.alloc.block = none
  | .written c => Lands g c d d'

theorem takePage_same (hs : (d.blockInfo b).blockState = .allocating) : (takePage g b d).1.nand = d.nand ∧
    NoNews d (takePage g b d).1 ∧ ((takePage g b d).1.blockInfo b).blockState ≠ .collecting := by
  have h1 : NoNews d (usePage g b d) := by
    refine NoNews.of_same rfl rfl fun b' => ?_
    by_cases hb : b' = b <;> simp [usePage, BlockDev.setChunkBit, BlockDev.modBlock, hb]
  have hs1 : ((usePage g b d).blockInfo b).blockState = .allocating := by
    simpa [usePage, BlockDev.setChunkBit, BlockDev.modBlock] using hs
  unfold takePage
  dsimp only
  split_ifs
  · refine ⟨rfl, ?_, by simp [closeBlock, BlockDev.setState, BlockDev.modBlock]⟩
    exact (h1.trans (NoNews.setState (by simp [hs1]) (s := .full))).trans (NoNews.of_same rfl rfl fun _ => rfl)
  · exact ⟨rfl, h1, by simp [hs1]⟩

theorem writeAttempt_lands (he : e.Programs) (hy : g.isYaffs2 = false) (h : Ready g T S d) (hw : Writable g d)
    (data : PageData) {t : ExtTags} (ht : t.isDeleted = false) (hid : t.objId ≠ objectIdSummary) (useReserver : Bool) :
    RoundResult g d (writeAttempt g e data t useReserver d).1 (writeAttempt g e data t useReserver d).2 := by
  have hsum : g.hasSummaries = false := by simp [Param.hasSummaries, hy]
  have hspec := writeAttempt_spec (e := e) h data ht hid useReserver
  have hblk : BlkInv g T (writeAttempt g e data t useReserver d).1 := by
    cases hr : (writeAttempt g e data t useReserver d).2.chunk with
    | none =>
      rw [hr] at hspec
      exact hspec.keeps.blk
    | some c =>
      rw [hr] at hspec
      obtain ⟨-, -, p, -, hwrote⟩ := hspec
      exact hwrote.keeps.blk
  have h0 := ensureAllocBlock_noNews (g := g) (d := d)
  have hw0 := hw.ensureAllocBlock
  obtain ⟨hkeep0, hopn0, -, hnand0, -⟩ := ensureAllocBlock_spec h
  unfold writeAttempt allocChunk at hblk ⊢
  dsimp only at hblk ⊢
  split_ifs at hblk ⊢ with hres
  · exact h0.trans (NoNews.of_same rfl rfl fun _ => rfl)
  · generalize ensureAllocBlock g d = d0 at *
    cases hb : d0.alloc.block with
    | none => exact h0.trans (NoNews.of_same rfl rfl fun _ => rfl)
    | some b =>
      rw [hb] at hblk
      dsimp only at hblk ⊢
      obtain ⟨hmem, hs, -⟩ := hkeep0.blk.alloc_block b hb
      have hpage := hopn0.page_lt b hb
      have hdiv : (b * g.chunksPerBlock + d0.alloc.page) / g.chunksPerBlock = b := by
        rw [Nat.mul_comm, Nat.mul_add_div chunksPerBlock_pos, Nat.div_eq_of_lt hpage, Nat.add_zero]
      obtain ⟨hnand1, hnews1, hs1⟩ := takePage_same (g := g) hs
      have h1 := h0.trans hnews1
      have hc : (takePage g b d0).2 = b * g.chunksPerBlock + d0.alloc.page := rfl
      rw [hc] at hblk ⊢
      generalize hceq : b * g.chunksPerBlock + d0.alloc.page = c at *
      generalize (takePage g b d0).1 = d1 at *
      obtain ⟨hflash2, hbad2, hstate2⟩ := erasedCheck_nand (g := g) (e := e) c d1
      have h2 : NoNews d (erasedCheck g e c d1).1 := h1.trans (NoNews.of_same hflash2 hbad2 hstate2)
      generalize erasedCheck g e c d1 = r at *
      have hc0 : c ≠ 0 := by
        rintro rfl
        have := pos_of_mem_blocks hmem
        simp at hdiv
        omega
      obtain ⟨hflash3, hbad3, hinfo3⟩ := programChunk_nand he hsum c data t r.1
      split_ifs at hblk ⊢ with hok hwr
      · refine ⟨fun x p hx hp hlive => ?_, ?_, fun x hx hle => ?_⟩
        · refine h2.pages x p ?_ hlive
          rw [← Function.update_of_ne hx (some ⟨stampTags r.1 t, data⟩) r.1.nand.flash, ← hflash3]
          exact hp
        · change (programChunk g e c data t r.1).1.nand.markedBad (c / g.chunksPerBlock) = false
          rw [hbad3, hbad2, hnand1, hdiv]
          exact hw0.good b (by simp [hs])
        · change (programChunk g e c data t r.1).1.nand.flash x ≠ none
          rw [hflash3]
          rcases hle.eq_or_lt with rfl | hlt
          · simp
          · rw [Function.update_of_ne hlt.ne, hflash2, hnand1]
            refine hw0.filled b hb x (hx.trans hdiv) ?_
            have := Nat.div_add_mod x g.chunksPerBlock
            rw [hx, hdiv, Nat.mul_comm] at this
            omega
      · have hs3 : ((programChunk g e c data t r.1).1.blockInfo (c / g.chunksPerBlock)).blockState ≠ .collecting := by
          rw [hinfo3, hstate2, hdiv]
          exact hs1
        obtain ⟨h4, hmarks⟩ := handleChunkWrError_marks he hy hc0 hs3 (!(r.1.blockInfo (c / g.chunksPerBlock)).skipErasedCheck)
        refine ⟨⟨fun x p hp hlive => ?_, fun b' hb' => ?_⟩, skipRestOfBlock_none hblk⟩
        · have hx : x ≠ c := by
            rintro rfl
            rw [hmarks p hp] at hlive
            exact absurd hlive (by simp)
          have hp3 := h4.pages x p hp hlive
          rw [hflash3, Function.update_of_ne hx] at hp3
          exact h2.pages x p hp3 hlive
        · obtain ⟨hb3, hbad4⟩ := h4.good b' hb'
          rw [hinfo3] at hb3
          obtain ⟨hb, hbad⟩ := h2.good b' hb3
          exact ⟨hb, (hbad4.trans (congrFun hbad3 b')).trans hbad⟩
      · exact ⟨h2.trans ((chunkDel_noNews he true).trans skipRestOfBlock_noNews), skipRestOfBlock_none hblk⟩

/-- What `yaffs_write_new_chunk` leaves when it ends with the chunk `r`, or with none. -/
def Landed (g : Geometry) (d d' : BlockDev) : Option ℕ → Prop
  | none => NoNews d d'
  | some c => Lands g c d d'

theorem writeNewChunkLoop_lands (he : e.Programs) (hy : g.isYaffs2 = false) (data : PageData) {t : ExtTags}
    (ht : t.isDeleted = false) (hid : t.objId ≠ objectIdSummary) (useReserver : Bool) (n : ℕ) :
    ∀ (attempts : ℕ) (d : BlockDev), Ready g T S d → Writable g d →
      Landed g d (writeNewChunkLoop g e data t useReserver n attempts d).1
        (writeNewChunkLoop g e data t useReserver n attempts d).2 := by
  induction n with
  | zero => exact fun _ d _ _ => NoNews.refl d
  | succ n ih =>
    intro attempts d h hw
    have hround := writeAttempt_lands he hy h hw data ht hid useReserver
    have hspec := writeAttempt_spec (e := e) h data ht hid useReserver
    unfold writeNewChunkLoop
    split
    · next d' heq =>
      rw [heq] at hround
      exact hround
    · next d' c heq =>
      rw [heq] at hround
      exact hround
    · next d' heq =>
      rw [heq] at hround hspec
      obtain ⟨hnews, hnone⟩ := hround
      have hwrote : Wrote g T S d d' d.kept := hspec
      split_ifs
      · have hrest := ih (attempts + 1) d' (hwrote.ready h) (hw.noNews hnews hnone)
        generalize writeNewChunkLoop g e data t useReserver n (attempts + 1) d' = r at hrest ⊢
        obtain ⟨d2, res⟩ := r
        cases res with
        | none => exact hnews.trans hrest
        | some c => exact hnews.lands hrest
      · exact hnews

/-- `yaffs_write_new_chunk` puts at most one page on the flash. -/
theorem writeNewChunk_lands (he : e.Programs) (hy : g.isYaffs2 = false) (h : Ready g T S d) (hw : Writable g d)
    (data : PageData) {t : ExtTags} (ht : t.isDeleted = false) (hid : t.objId ≠ objectIdSummary) (useReserver : Bool) :
    Landed g d (writeNewChunk g e data t useReserver d).1 (writeNewChunk g e data t useReserver d).2 := by
  have hnews := checkptInvalidate_noNews (g := g) (d := d) he
  have hw1 : Writable g (checkptInvalidate g e d) := by
    have hq := checkptInvalidate_quiet (e := e) h.blk
    refine ⟨fun b hb => ?_, fun b hb c hc hlt => ?_⟩
    · obtain ⟨hb', hbad⟩ := hnews.good b hb
      exact hbad.trans (hw.good b hb')
    · rw [hq.alloc] at hb hlt
      obtain ⟨-, hs, -⟩ := h.blk.alloc_block b hb
      rw [hq.flash c (by simp [isCheckpt, hc, hs])]
      exact hw.filled b hb c hc hlt
  have hloop := writeNewChunkLoop_lands he hy data ht hid useReserver (writeRounds g) 0 _
    ((checkptInvalidate_wrote (e := e) h).ready h) hw1
  unfold writeNewChunk
  generalize writeNewChunkLoop g e data t useReserver (writeRounds g) 0 (checkptInvalidate g e d) = r at hloop ⊢
  obtain ⟨d2, res⟩ := r
  cases res with
  | none => exact hnews.trans hloop
  | some c => exact hnews.lands hloop

end Yaffs
