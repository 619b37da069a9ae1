import Yaffs.Delete
import Yaffs.Run

/-!
# Whole collections keep the invariant

`yaffs_gc_block` ends a collection by finishing the deletion of the files whose last chunk
it has dropped. With the choice of the block this makes `yaffs_check_gc` a gc that keeps
the invariant and is not seen by live objects : it `Collects`.
-/

namespace Yaffs

open Tally

variable {g : Geometry} {e : Env} {T : ℕ → BlockState → Prop} {d d' : Dev} {o b : ℕ}

/-! ## Cleaning up -/

/-- A file that has been soft deleted and has no data left. -/
def Marked (d : Dev) (o : ℕ) : Prop :=
  (d.obj o).softDel = true ∧ (d.obj o).nDataChunks ≤ 0

theorem SameMarks.marked (h : SameMarks d d') (hm : Marked d o) : Marked d' o :=
  ⟨(h o).1.trans hm.1, (h o).2.trans_le hm.2⟩

theorem freeTop_sameMarks (o : ℕ) (d : Dev) : SameMarks d (freeTop o d) :=
  SameMarks.modObj (d := d.mapBlocks freeTnode) (o := o)
    (f := fun ob => { ob with file := { ob.file with top := none } }) ⟨rfl, rfl⟩

/-- A file that has been soft deleted has nothing in its tree. -/
theorem freeTop_inv (h : Inv g T d) (hs : (d.obj o).softDel = true) : Inv g T (freeTop o d) := by
  have hfree : Inv g T (d.mapBlocks freeTnode) := h.countsOnly CountsOnly.freeTnode
  refine hfree.modObj (o := o) (f := fun ob => { ob with file := { ob.file with top := none } })
    ⟨rfl, rfl, rfl, rfl, rfl, id, fun k => ?_, id⟩
  have hzero := (h.own.soft o hs).2 k
  have hnone : ({ (d.obj o).file with top := none } : FileVar).entry k = 0 := by
    simp [FileVar.entry, FileVar.find]
  exact hnone.trans hzero.symm

theorem freeTop_frame (o : ℕ) (d : Dev) : GcFrame [] [] d (freeTop o d) :=
  GcFrame.update (fun _ _ _ _ => Iff.rfl) rfl ⟨rfl, rfl, rfl⟩ rfl

/-- The counts of a device are of no concern to its objects. -/
theorem GcFrame.congr {S : List ℕ} {X : List (ℕ × ℕ)} {d'' : Dev} (h : GcFrame S X d d')
    (hkept : d''.kept = d'.kept) (hobj : d''.obj = d'.obj) (hids : d''.ids = d'.ids)
    (hcache : d''.cache = d'.cache) (hlast : d''.cacheLastUse = d'.cacheLastUse)
    (hdirs : d''.dirtyDirs = d'.dirtyDirs) : GcFrame S X d d'' where
  soft o ho := by
    rw [hobj]
    exact h.soft o ho
  ids o ho hid := h.ids o ho (hids ▸ hid)
  same o ho hs := by
    have hsame := h.same o ho hs
    refine ⟨by rw [hobj]; exact hsame.attrs, by rw [hobj]; exact hsame.file, by rw [hids]; exact hsame.ids, ?_⟩
    rw [hkept]
    exact hsame.content
  children dir := by
    rw [← h.children dir]
    simp only [liveChildren, hobj]
  cache := by
    rw [hcache]
    exact h.cache
  cacheLastUse := hlast.trans h.cacheLastUse
  dirtyDirs := hdirs.trans h.dirtyDirs

theorem collects_id : Collects g T fun d => d :=
  fun _ h _ => Collected.refl h

/-- The deletion of a file that has been soft deleted is finished. -/
theorem gcCleanUp_spec (h : Inv g T d) (hm : Marked d o) :
    Inv g T (gcCleanUp g e d o) ∧ GcFrame [] [] d (gcCleanUp g e d o) ∧
      SameMarks d (gcCleanUp g e d o) := by
  unfold gcCleanUp findByNumber
  by_cases hheld : o ∈ d.ids ∧ (d.obj o).deferredFree = false
  · have htop := freeTop_sameMarks o d
    have hdoom : Doomed (freeTop o d) o := by
      refine ⟨⟨hheld.1, ?_⟩, (htop.marked hm).2⟩
      simpa [freeTop, Dev.modFile, Dev.modObj, Dev.mapBlocks] using hheld.2
    have hdel := genericObjDelWith_deleted (e := e) collects_id (freeTop_inv h hm.1) (Or.inl rfl) hdoom
    have hmarks := htop.trans (genericObjDelWith_sameMarks (g := g) (e := e) o (freeTop o d))
    have htopframe : GcFrame [o] [(o, 0)] d (freeTop o d) := (freeTop_frame o d).mono (by simp) (by simp)
    have hframe := htopframe.trans hdel.frame
    have hlive := hframe.of_soft (by simp) hm.1 ((hmarks o).1.trans hm.1) fun _ => hheld.1
    rw [if_pos hheld]
    exact ⟨⟨hdel.inv.acc, hdel.inv.own⟩, hlive.congr rfl rfl rfl rfl rfl rfl, hmarks⟩
  · rw [if_neg hheld]
    exact ⟨h, GcFrame.refl _ _ d, fun _ => ⟨rfl, rfl⟩⟩

theorem gcCleanUps_spec (l : List ℕ) : ∀ d : Dev, Inv g T d → (∀ o ∈ l, Marked d o) →
    Inv g T (l.foldl (gcCleanUp g e) d) ∧ GcFrame [] [] d (l.foldl (gcCleanUp g e) d) := by
  induction l with
  | nil => exact fun d h _ => ⟨h, GcFrame.refl _ _ d⟩
  | cons o l ih =>
    intro d h hm
    obtain ⟨hinv, hframe, hmarks⟩ := gcCleanUp_spec (e := e) h (hm o (by simp))
    obtain ⟨hinv', hframe'⟩ := ih _ hinv fun o' ho' => hmarks.marked (hm o' (by simp [ho']))
    exact ⟨hinv', hframe.trans hframe'⟩

/-! ## The end of a collection -/

/-- The transit states no collection is in. -/
def NotCollecting (T : ℕ → BlockState → Prop) : Prop :=
  ∀ b, ¬T b .collecting

/-- gc notes something else, but not another block. -/
theorem Collected.setGc (h : Inv g T d) (gc : GcCursor) (hb : gc.block = d.gc.block ∨ gc.block = 0)
    (hd : gc.dirtiest = d.gc.dirtiest ∨ gc.dirtiest = 0) :
    Collected g T [] [] d (d.mapBlocks fun b => { b with gc := gc }) := by
  refine Collected.setBlocks h (h.acc.setGc gc fun b' hne hc => ?_) rfl
  rcases hc with hc | hc
  · exact h.acc.blk.cands b' hne (Or.inl (hc.trans (hb.resolve_right fun h0 => hne (hc.trans h0))))
  · exact h.acc.blk.cands b' hne (Or.inr (Or.inl (hc.trans (hd.resolve_right fun h0 => hne (hc.trans h0)))))

/-- The block was not finished, and is full again. -/
theorem setFull_collected (h : Inv g (orCollecting T b) d) (hb : b ∈ g.blocks)
    (hs : (d.blockInfo b).blockState = .collecting) :
    Collected g T [] [] d (d.mapBlocks fun bd => bd.setState b .full) := by
  refine Collected.setBlocks h (h.acc.modBlock (h.acc.blk.setFull hb hs fun b' s hne ht => ?_) hb rfl ?_ rfl ?_) rfl
  · exact ht.resolve_right fun hc => hne hc.1
  · simp [freeWeight, hs]
  · simp [hs]

/-- A block that is no longer collected needs no leave. -/
theorem Inv.finished (h : Inv g (orCollecting T b) d) (hs : (d.blockInfo b).blockState ≠ .collecting) :
    Inv g T d := by
  have hblk : BlkInv g T d.toBlockDev := h.acc.blk.settle fun b' _ ht => by
    rcases ht with ht | ⟨hbb, hst⟩
    · exact Or.inr ht
    · exact absurd (hbb ▸ hst) hs
  exact ⟨⟨hblk, h.acc.opn, h.acc.free, h.acc.checkptInv, h.acc.programmed⟩, h.own⟩

theorem gcBlockEnd_collected (h : Inv g (orCollecting T b) d) (hb : b ∈ g.blocks) (hcl : CleanList d) :
    Collected g T [] [] d (gcBlockEnd g e b d) := by
  have hon : ∀ x : Dev, Collected g T [] [] d x →
      Collected g T [] [] d (x.mapBlocks fun bd => { bd with gc := { bd.gc with disable := false } }) :=
    fun x hx => hx.trans (Collected.setGc hx.inv { x.gc with disable := false } (Or.inl rfl) (Or.inl rfl))
  unfold gcBlockEnd
  split_ifs with hs
  · exact hon _ (setFull_collected h hb hs)
  · refine hon _ ?_
    obtain ⟨hinv, hframe⟩ := gcCleanUps_spec (e := e) d.gcCleanupList d (h.finished hs)
      fun o ho => (hcl o ho).2
    generalize d.gcCleanupList.foldl (gcCleanUp g e) d = x at hinv hframe
    have hgc := Collected.setGc hinv { x.gc with block := 0, chunk := 0 } (Or.inr rfl) (Or.inl rfl)
    exact ⟨⟨hgc.inv.acc, hgc.inv.own⟩, (hframe.trans hgc.frame).congr rfl rfl rfl rfl rfl rfl,
      fun _ o ho => by simp at ho⟩

theorem stillSomeChunks_eq_false {bd : BlockDev} :
    stillSomeChunks g b bd = false ↔ NoBits g b bd.chunkBits := by
  unfold stillSomeChunks
  rw [List.any_eq_false]
  constructor
  · rintro h c rfl
    have hlt := Nat.mod_lt c (chunksPerBlock_pos (g := g))
    have hc := h (c % g.chunksPerBlock) (List.mem_range.mpr hlt)
    rw [Nat.mul_comm, Nat.div_add_mod] at hc
    simpa using hc
  · intro h i hi
    rw [h _ (chunk_div (List.mem_range.mp hi))]
    simp

theorem gcBlock_collected (h : Inv g T d) (hcl : CleanList d) (hb : b ∈ g.blocks)
    (hs : (d.blockInfo b).blockState = .full) (whole : Bool) :
    Collected g T [] [] d (gcBlock g e b whole d).1 := by
  obtain ⟨hstart, hst⟩ := gcBlockStart_collected h hb hs
  unfold gcBlock
  simp only [hs, reduceCtorEq, decide_false, Bool.false_or]
  generalize d.mapBlocks (gcBlockStart g b) = x at hstart hst
  by_cases hno : stillSomeChunks g b x.toBlockDev = false
  · obtain ⟨hacc, hkept, -⟩ := hstart.inv.acc.erased (e := e) hb (by rw [hst]; rfl)
      (stillSomeChunks_eq_false.mp hno)
    have herase := hstart.trans (Collected.setBlocks hstart.inv hacc hkept)
    simp only [hno, Bool.not_false, if_true]
    exact herase.trans (gcBlockEnd_collected herase.inv hb (herase.clean hcl))
  · have hloop := hstart.trans (gcBlockLoop_collected (e := e) (b := b) g.chunksPerBlock
      (if whole then g.chunksPerBlock else 5) x hstart.inv)
    rw [if_neg (by simpa using hno)]
    exact hloop.trans (gcBlockEnd_collected hloop.inv hb (hloop.clean hcl))

/-! ## Looking for a block -/

/-- A search changes only what gc and the search for the oldest dirty block have noted. -/
structure Searched (g : Geometry) (T : ℕ → BlockState → Prop) (bd bd' : BlockDev) : Prop where
  eq : bd' = { bd with
    gc := bd'.gc, oldestDirtySeq := bd'.oldestDirtySeq, oldestDirtyBlock := bd'.oldestDirtyBlock }
  blk : BlkInv g T bd'
  gc : bd'.gc.block = bd.gc.block ∧ bd'.gc.chunk = bd.gc.chunk

/-- The block `r` has been found : gc can take it up. -/
def Found (g : Geometry) (bd : BlockDev) (r : ℕ) : Prop :=
  r ≠ 0 → r ∈ g.blocks ∧ (bd.blockInfo r).blockState.collectable = true

section Search

variable {bd bd' bd'' : BlockDev} {r : ℕ}

theorem Searched.refl (h : BlkInv g T bd) : Searched g T bd bd :=
  ⟨rfl, h, rfl, rfl⟩

theorem Searched.trans (h : Searched g T bd bd') (h' : Searched g T bd' bd'') : Searched g T bd bd'' :=
  ⟨by rw [h'.eq, h.eq], h'.blk, h'.gc.1.trans h.gc.1, h'.gc.2.trans h.gc.2⟩

theorem Searched.blockInfo (h : Searched g T bd bd') : bd'.blockInfo = bd.blockInfo := by
  rw [h.eq]

theorem Searched.chunkBits (h : Searched g T bd bd') : bd'.chunkBits = bd.chunkBits := by
  rw [h.eq]

theorem Searched.found (h : Searched g T bd bd') : Found g bd' r ↔ Found g bd r := by
  simp only [Found, h.blockInfo]

theorem Searched.accounts {soft : ℕ → Bool} (h : Searched g T bd bd') (hd : Accounts g T soft bd) :
    Accounts g T soft bd' := by
  have hblk := h.blk
  rw [h.eq] at hblk ⊢
  exact ⟨hblk, { hd.opn with }, { hd.free with }, hd.checkptInv, hd.programmed⟩

theorem Searched.kept (h : Searched g T bd bd') : bd'.kept = bd.kept := by
  rw [h.eq]
  rfl

/-- gc notes a block it has found as the dirtiest. -/
theorem Searched.note (h : BlkInv g T bd) (gc : GcCursor)
    (hgc : gc.block = bd.gc.block ∧ gc.chunk = bd.gc.chunk)
    (hd : gc.dirtiest = bd.gc.dirtiest ∨ Found g bd gc.dirtiest) :
    Searched g T bd { bd with gc := gc } where
  eq := rfl
  blk := { h with
    cands := fun b hb hc => by
      rcases hc with hc | hc | hc
      · exact h.cands b hb (Or.inl (hc.trans hgc.1))
      · rcases hd with hd | hd
        · exact h.cands b hb (Or.inr (Or.inl (hc.trans hd)))
        · rw [hc] at hb ⊢
          exact hd hb
      · exact h.cands b hb (Or.inr (Or.inr hc)) }
  gc := hgc

theorem Searched.dirtiest (h : BlkInv g T bd) (hr : Found g bd r) (n : ℕ) :
    Searched g T bd { bd with gc := { bd.gc with dirtiest := r, pagesInUse := n } } :=
  Searched.note h { bd.gc with dirtiest := r, pagesInUse := n } ⟨rfl, rfl⟩ (Or.inr hr)

/-! ## The oldest dirty block -/

theorem oldestDirtyFold_spec (l : List ℕ) (hl : ∀ b ∈ l, b ∈ g.blocks) : ∀ acc : ℕ × ℕ,
    acc.1 ≤ bd.seqNumber + 1 →
    (acc.2 ≠ 0 → acc.2 ∈ g.blocks ∧ (bd.blockInfo acc.2).blockState = .full ∧
      (bd.blockInfo acc.2).seqNumber = acc.1 ∧ acc.1 ≤ bd.seqNumber) →
    let r := l.foldl (oldestDirtyStep g bd) acc
    r.2 ≠ 0 → r.2 ∈ g.blocks ∧ (bd.blockInfo r.2).blockState = .full ∧
      (bd.blockInfo r.2).seqNumber = r.1 ∧ r.1 ≤ bd.seqNumber := by
  induction l with
  | nil => exact fun acc _ hacc => hacc
  | cons b l ih =>
    intro acc hle hacc
    rw [List.foldl_cons]
    refine ih (fun b' hb' => hl b' (by simp [hb'])) _ ?_ ?_
    · simp only [oldestDirtyStep]
      split_ifs with hc
      · exact hc.2.2.le.trans hle
      · exact hle
    · simp only [oldestDirtyStep]
      split_ifs with hc
      · exact fun _ => ⟨hl b (by simp), hc.1, rfl, by have := hc.2.2; omega⟩
      · exact hacc

theorem findOldestDirtySeq_searched (h : BlkInv g T bd) : Searched g T bd (findOldestDirtySeq g bd) := by
  unfold findOldestDirtySeq calcOldestDirtySeq
  split_ifs with hzero hy
  · simp only
    split_ifs with hne
    · obtain ⟨hmem, hfull, hseq, hle⟩ :=
        oldestDirtyFold_spec g.blocks (fun _ hb => hb) _ le_rfl (fun h0 => absurd rfl h0) hne
      exact ⟨rfl, { h with
        cands := fun b hb hc => by
          rcases hc with hc | hc | hc
          · exact h.cands b hb (Or.inl hc)
          · exact h.cands b hb (Or.inr (Or.inl hc))
          · rw [hc]
            exact ⟨hmem, by rw [hfull]; rfl⟩
        oldest_seq := fun _ => ⟨hy, hseq⟩
        oldest_le := hle }, rfl, rfl⟩
    · exact Searched.refl h
  · exact Searched.refl h
  · exact Searched.refl h

theorem blockOkForGc_searched (h : BlkInv g T bd) (b : ℕ) :
    Searched g T bd (blockOkForGc g b bd).1 := by
  unfold blockOkForGc
  split_ifs
  · exact findOldestDirtySeq_searched h
  · exact Searched.refl h

/-! ## Choosing a block -/

/-- A search that has found `r.2`, or no block. -/
structure Finds (g : Geometry) (T : ℕ → BlockState → Prop) (bd : BlockDev) (r : BlockDev × ℕ) : Prop where
  searched : Searched g T bd r.1
  found : Found g bd r.2

theorem Finds.none (h : Searched g T bd bd') : Finds g T bd (bd', 0) :=
  ⟨h, fun h0 => absurd rfl h0⟩

theorem Finds.after {r : BlockDev × ℕ} (h : Searched g T bd bd') (hr : Finds g T bd' r) : Finds g T bd r :=
  ⟨h.trans hr.searched, h.found.mp hr.found⟩

theorem found_of_full (hb : r ∈ g.blocks) (hs : (bd.blockInfo r).blockState = .full) : Found g bd r :=
  fun _ => ⟨hb, by rw [hs]; rfl⟩

theorem found_oldest (h : BlkInv g T bd) : Found g bd bd.oldestDirtyBlock :=
  fun hne => h.cands _ hne (Or.inr (Or.inr rfl))

theorem found_dirtiest (h : BlkInv g T bd) : Found g bd bd.gc.dirtiest :=
  fun hne => h.cands _ hne (Or.inr (Or.inl rfl))

theorem refreshFold_found (l : List ℕ) (hl : ∀ b ∈ l, b ∈ g.blocks) : ∀ acc : ℕ × ℕ,
    Found g bd acc.1 → Found g bd (l.foldl (refreshStep bd) acc).1 := by
  induction l with
  | nil => exact fun acc hacc => hacc
  | cons b l ih =>
    intro acc hacc
    rw [List.foldl_cons]
    refine ih (fun b' hb' => hl b' (by simp [hb'])) _ ?_
    simp only [refreshStep]
    split_ifs with hc
    · exact found_of_full (hl b (by simp)) hc.1
    · exact hacc

theorem findRefreshBlock_finds (h : BlkInv g T bd) : Finds g T bd (findRefreshBlock g bd) := by
  unfold findRefreshBlock
  dsimp only
  split_ifs
  · exact Finds.none (Searched.refl h)
  · exact Finds.none (Searched.note h _ ⟨rfl, rfl⟩ (Or.inl rfl))
  · exact ⟨Searched.note h _ ⟨rfl, rfl⟩ (Or.inl rfl),
      refreshFold_found g.blocks (fun _ hb => hb) (0, 0) fun h0 => absurd rfl h0⟩

theorem prioritisedFold_finds (l : List ℕ) (hl : ∀ b ∈ l, b ∈ g.blocks) : ∀ acc : BlockDev × ℕ × Bool,
    Finds g T bd (acc.1, acc.2.1) →
    let r := l.foldl (prioritisedStep g) acc
    Finds g T bd (r.1, r.2.1) := by
  induction l with
  | nil => exact fun acc hacc => hacc
  | cons b l ih =>
    intro acc hacc
    rw [List.foldl_cons]
    refine ih (fun b' hb' => hl b' (by simp [hb'])) _ ?_
    unfold prioritisedStep
    split_ifs with hne hp hs
    · exact hacc
    · refine ⟨hacc.searched.trans (blockOkForGc_searched hacc.searched.blk b), ?_⟩
      simp only
      split_ifs
      · exact hacc.searched.found.mp (found_of_full (hl b (by simp)) hs)
      · exact fun h0 => absurd rfl h0
    · exact Finds.none hacc.searched
    · exact hacc

theorem findPrioritised_finds (h : BlkInv g T bd) : Finds g T bd (findPrioritised g bd) := by
  have hstart : Searched g T bd { bd with gc := { bd.gc with dirtiest := 0 } } :=
    Searched.note h _ ⟨rfl, rfl⟩ (Or.inr fun h0 => absurd rfl h0)
  have hfold := prioritisedFold_finds g.blocks (fun _ hb => hb)
    ({ bd with gc := { bd.gc with dirtiest := 0 } }, 0, false) (Finds.none hstart)
  unfold findPrioritised
  simp only at hfold ⊢
  split_ifs
  · exact ⟨hfold.searched, hfold.searched.found.mp (found_oldest hfold.searched.blk)⟩
  · exact hfold
  · exact ⟨hfold.searched.trans (Searched.note hfold.searched.blk _ ⟨rfl, rfl⟩ (Or.inl rfl)), hfold.found⟩

theorem findDirtiestLoop_searched (n : ℕ) : ∀ bd : BlockDev, BlkInv g T bd →
    Searched g T bd (findDirtiestLoop g n bd) := by
  induction n with
  | zero => exact fun bd h => Searched.refl h
  | succ n ih =>
    intro bd h
    have hfinder := Searched.note h { bd.gc with blockFinder := g.nextBlock bd.gc.blockFinder } ⟨rfl, rfl⟩
      (Or.inl rfl)
    rw [findDirtiestLoop]
    simp only
    split_ifs with hgo hcand hok
    · have hsearch := blockOkForGc_searched hfinder.blk (g.nextBlock bd.gc.blockFinder)
      have hfound := hsearch.found.mpr (found_of_full (nextBlock_mem _) hcand.1)
      have hnote := hsearch.trans (Searched.dirtiest hsearch.blk hfound
        (bd.blockInfo (g.nextBlock bd.gc.blockFinder)).pagesUsed)
      exact hfinder.trans (hnote.trans (ih _ hnote.blk))
    · have hsearch := blockOkForGc_searched hfinder.blk (g.nextBlock bd.gc.blockFinder)
      exact hfinder.trans (hsearch.trans (ih _ hsearch.blk))
    · exact hfinder.trans (ih _ hfinder.blk)
    · exact Searched.refl h

theorem findDirtiest_finds (h : BlkInv g T bd) (aggressive background : Bool) :
    Finds g T bd (findDirtiest g aggressive background bd) := by
  have hloop := findDirtiestLoop_searched (gcIterations g aggressive) bd h
  unfold findDirtiest
  simp only
  split_ifs
  · exact ⟨hloop, hloop.found.mp (found_dirtiest hloop.blk)⟩
  · exact Finds.none hloop

theorem findOldest_finds (h : BlkInv g T bd) (background : Bool) :
    Finds g T bd (findOldest g background bd) := by
  have hsearch := findOldestDirtySeq_searched h
  have hfound := found_oldest hsearch.blk
  unfold findOldest
  generalize findOldestDirtySeq g bd = x at hsearch hfound
  generalize (if background then 10 else 20) = patience
  dsimp only
  split_ifs
  · exact ⟨hsearch.trans (Searched.dirtiest hsearch.blk hfound _), hsearch.found.mp hfound⟩
  · exact Finds.none (hsearch.trans (Searched.note hsearch.blk _ ⟨rfl, rfl⟩ (Or.inl rfl)))
  · exact Finds.none (Searched.refl h)

theorem gcSelected_finds {r : BlockDev × ℕ} (h : Finds g T bd r) : Finds g T bd (gcSelected r) := by
  unfold gcSelected
  simp only
  split_ifs
  · exact ⟨h.searched.trans (Searched.note h.searched.blk _ ⟨rfl, rfl⟩ (Or.inr fun h0 => absurd rfl h0)), h.found⟩
  · exact Finds.none (h.searched.trans (Searched.note h.searched.blk _ ⟨rfl, rfl⟩ (Or.inl rfl)))

/-- A search that has found nothing goes on. -/
theorem Finds.orElse {r : BlockDev × ℕ} (h : Finds g T bd r) {f : BlockDev → BlockDev × ℕ}
    (hf : ∀ x, BlkInv g T x → Finds g T x (f x)) : Finds g T bd (if r.2 = 0 then f r.1 else r) := by
  split_ifs
  · exact Finds.after h.searched (hf _ h.searched.blk)
  · exact h

theorem findGcBlock_finds (h : BlkInv g T bd) (aggressive background : Bool) :
    Finds g T bd (findGcBlock g aggressive background bd) := by
  have hfirst : Finds g T bd
      (if bd.gc.hasPendingPrioritised && !aggressive then findPrioritised g bd else (bd, 0)) := by
    split_ifs
    · exact findPrioritised_finds h
    · exact Finds.none (Searched.refl h)
  refine gcSelected_finds ((hfirst.orElse fun x hx => ?_).orElse fun x hx => ?_)
  · exact findDirtiest_finds hx _ _
  · exact findOldest_finds hx _

end Search

/-! ## The whole gc -/

/-- Between collections a block gc can take up is full. -/
theorem BlkInv.full {bd : BlockDev} (h : BlkInv g T bd) (hT : NotCollecting T) (hb : b ∈ g.blocks)
    (hs : (bd.blockInfo b).blockState.collectable = true) : (bd.blockInfo b).blockState = .full := by
  have hst := h.states b hb
  have hcol := hT b
  revert hs hst
  generalize (bd.blockInfo b).blockState = s
  cases s <;> simp [BlockState.collectable, BlockState.settled, hcol]

theorem Searched.collected {bd : BlockDev} (h : Inv g T d) (hs : Searched g T d.toBlockDev bd) :
    Collected g T [] [] d { d with toBlockDev := bd } :=
  Collected.setBlocks h (hs.accounts h.acc) hs.kept

/-- The device after a search, with the block it has found as the one to collect. -/
theorem startGc_collected (h : Inv g T d) {f : BlockDev → BlockDev × ℕ}
    (hf : ∀ x, BlkInv g T x → Finds g T x (f x)) :
    Collected g T [] [] d { d.mapBlocks (fun b => startGc (f b)) with gcCleanupList := [] } := by
  have hfind := hf d.toBlockDev h.acc.blk
  have hcol := Searched.collected h hfind.searched
  have hfound := hfind.searched.found.mpr hfind.found
  have hacc := hcol.inv.acc.setGc { (f d.toBlockDev).1.gc with block := (f d.toBlockDev).2, chunk := 0 }
    fun b hne hb => by
      rcases hb with hb | hb
      · obtain rfl : b = (f d.toBlockDev).2 := hb
        exact hfound hne
      · exact hcol.inv.acc.blk.cands b hne (Or.inr (Or.inl hb))
  have hset := hcol.trans (Collected.setBlocks hcol.inv hacc rfl)
  exact ⟨⟨hset.inv.acc, hset.inv.own⟩, hset.frame.congr rfl rfl rfl rfl rfl rfl, fun _ o ho => by simp at ho⟩

theorem chooseGcBlock_collected (h : Inv g T d) (aggressive background : Bool) :
    Collected g T [] [] d (chooseGcBlock g aggressive background d) := by
  have hskip : Collected g T [] [] d (d.mapBlocks fun b => { b with gc := { b.gc with skip := 5 } }) :=
    Collected.setGc h { d.gc with skip := 5 } (Or.inl rfl) (Or.inl rfl)
  unfold chooseGcBlock
  generalize d.mapBlocks (fun b => { b with gc := { b.gc with skip := 5 } }) = x at hskip
  have hrefresh : Collected g T [] [] d (if x.gc.block < 1 && !aggressive then
      { x.mapBlocks fun b => startGc (findRefreshBlock g b) with gcCleanupList := [] } else x) := by
    split_ifs
    · exact hskip.trans (startGc_collected hskip.inv fun _ hx => findRefreshBlock_finds hx)
    · exact hskip
  dsimp only
  generalize (if x.gc.block < 1 && !aggressive then
    { x.mapBlocks fun b => startGc (findRefreshBlock g b) with gcCleanupList := [] } else x) = y at hrefresh ⊢
  split_ifs
  · exact hrefresh.trans (startGc_collected hrefresh.inv fun _ hx => findGcBlock_finds hx _ _)
  · exact hrefresh

theorem gcRound_collected (hT : NotCollecting T) (h : Inv g T d) (hcl : CleanList d)
    (aggressive background : Bool) : Collected g T [] [] d (gcRound g e aggressive background d) := by
  have hchoose := chooseGcBlock_collected h aggressive background
  unfold gcRound
  simp only
  generalize chooseGcBlock g aggressive background d = x at hchoose
  split_ifs with hpos
  · obtain ⟨hb, hcol⟩ := hchoose.inv.acc.blk.cands x.gc.block hpos.ne' (Or.inl rfl)
    exact hchoose.trans (gcBlock_collected hchoose.inv (hchoose.clean hcl) hb
      (hchoose.inv.acc.blk.full hT hb hcol) aggressive)
  · exact hchoose

theorem gcMode_searched {bd : BlockDev} (h : BlkInv g T bd) (background : Bool) :
    Searched g T bd (gcMode g background bd).1 := by
  unfold gcMode
  dsimp only
  split_ifs
  · exact Searched.refl h
  · exact Searched.refl h
  · exact Searched.note h _ ⟨rfl, rfl⟩ (Or.inl rfl)
  · exact Searched.note h _ ⟨rfl, rfl⟩ (Or.inl rfl)

theorem checkGcLoop_collected (hT : NotCollecting T) (background : Bool) (n : ℕ) : ∀ d : Dev, Inv g T d →
    CleanList d → Collected g T [] [] d (checkGcLoop g e background n d) := by
  induction n with
  | zero => exact fun d h _ => Collected.refl h
  | succ n ih =>
    intro d h hcl
    have hmode := Searched.collected h (gcMode_searched h.acc.blk background)
    have hagain : ∀ x : Dev, Collected g T [] [] d x → Collected g T [] [] d
        (if x.nErasedBlocks < (g.nReservedBlocks : ℤ) ∧ 0 < x.gc.block then
          checkGcLoop g e background n x else x) := by
      intro x hx
      split_ifs
      · exact hx.trans (ih x hx.inv (hx.clean hcl))
      · exact hx
    rw [checkGcLoop]
    simp only [Dev.onBlocks]
    split
    · exact hmode
    · next aggressive _ =>
      have hround := hmode.trans (gcRound_collected (e := e) hT hmode.inv (hmode.clean hcl) aggressive background)
      exact hagain _ hround

/-- `yaffs_check_gc` keeps the invariant, and no live object sees it. -/
theorem checkGc_collects (hT : NotCollecting T) (background : Bool) :
    Collects g T (checkGc g e background) := by
  intro d h hcl
  have hasked : Collected g T [] [] d (d.onBlocks (gcControl e)).1 :=
    Collected.setBlocks h (h.acc.countsOnly ⟨_, _, rfl⟩) rfl
  unfold checkGc
  simp only
  split_ifs
  · exact hasked.trans (checkGcLoop_collected hT background 2 _ hasked.inv (hasked.clean hcl))
  · exact hasked

/-- Writing a header, with the gc before it. -/
theorem updateOh_collected (hT : NotCollecting T) (h : Inv g T d) (hcl : CleanList d)
    (hs : (d.obj o).softDel = false) (ho : Held d o) (name : Option Name) (force isShrink : Bool)
    (shadows : ℕ) : Collected g T [] [(o, 0)] d (updateOh g e o name force isShrink shadows d).1 :=
  updateOhWith_collected (checkGc_collects hT false) h (Or.inr ⟨hcl, hs⟩) ho name force isShrink shadows

/-! ## Blank flash -/

theorem blankBlock_of_mem (bad : ℕ → Bool) (hb : b ∈ g.blocks) :
    blankBlock g bad b = { blockState := if bad b then .dead else .empty } := by
  unfold blankBlock
  rw [if_pos hb]

theorem blankBlocks_blk (g : Geometry) (T : ℕ → BlockState → Prop) (bad : ℕ → Bool) :
    BlkInv g T (blankBlocks g bad) where
  bit_mem _ hc := absurd hc Bool.false_ne_true
  bit_state _ hc := absurd hc Bool.false_ne_true
  pages b hb := by
    change (blankBlock g bad b).pagesInUse = _
    rw [blankBlock_of_mem bad hb]
    exact (countChunkBits_eq_zero.mpr fun _ _ => rfl).symm
  states b hb := by
    change (blankBlock g bad b).blockState.settled = true ∨ _
    rw [blankBlock_of_mem bad hb]
    cases hbad : bad b <;> exact Or.inl (by simp [BlockState.settled])
  alloc_state b hb hs := by
    change (blankBlock g bad b).blockState = _ at hs
    rw [blankBlock_of_mem bad hb] at hs
    cases hbad : bad b <;> simp [hbad] at hs
  alloc_block _ hb := absurd hb (by simp [blankBlocks])
  erased := by
    change (nGoodBlocks g bad : ℤ) = tally g.blocks (stateWeight .empty) (blankBlock g bad)
    rw [tally_countP (q := fun b => !bad b) (k := 1), mul_one, nGoodBlocks]
    intro b hb
    rw [blankBlock_of_mem bad hb]
    cases hbad : bad b <;> simp [stateWeight]
  fresh b hb hs := by
    change (blankBlock g bad b).hasSummary = _ at hs
    rw [blankBlock_of_mem bad hb] at hs
    exact absurd hs Bool.false_ne_true
  summary _ hc := absurd hc Bool.false_ne_true
  cands b hb hc := absurd (by rcases hc with h | h | h <;> exact h) hb
  oldest_seq h := absurd rfl h
  oldest_le := Nat.zero_le _

theorem blankBlocks_opn (g : Geometry) (bad : ℕ → Bool) : OpenInv g (blankBlocks g bad) :=
  ⟨fun _ hb => absurd hb (by simp [blankBlocks]), fun _ hb => absurd hb (by simp [blankBlocks]),
    fun _ hb => absurd hb (by simp [blankBlocks])⟩

theorem blankBlocks_free (g : Geometry) (bad : ℕ → Bool) :
    FreeInv g (fun _ => false) 0 (blankBlocks g bad) where
  soft_bit _ hc := absurd hc Bool.false_ne_true
  soft_pages b hb := by
    change (blankBlock g bad b).softDelPages = _
    rw [blankBlock_of_mem bad hb]
    exact (countChunkBits_eq_zero.mpr fun _ _ => rfl).symm
  free := by
    change ((nGoodBlocks g bad * g.chunksPerBlock : ℕ) : ℤ) =
      tally g.blocks (freeWeight g) (blankBlock g bad) + 0
    rw [tally_countP (q := fun b => !bad b) (k := g.chunksPerBlock), nGoodBlocks, Nat.cast_mul, add_zero]
    intro b hb
    rw [blankBlock_of_mem bad hb]
    cases hbad : bad b <;> simp [freeWeight]

theorem blankBlocks_accounts (g : Geometry) (T : ℕ → BlockState → Prop) (bad : ℕ → Bool) :
    Accounts g T (fun _ => false) (blankBlocks g bad) where
  blk := blankBlocks_blk g T bad
  opn := blankBlocks_opn g bad
  free := blankBlocks_free g bad
  checkptInv := by
    refine Eq.symm (tally_zero fun b hb => ?_)
    change stateWeight .checkpoint (blankBlock g bad b) = 0
    rw [blankBlock_of_mem bad hb]
    cases hbad : bad b <;> simp [stateWeight]
  programmed _ hc := absurd hc Bool.false_ne_true

theorem initialObj_plain (o : ℕ) : (initialObj o).file = {} ∧ (initialObj o).hdrChunk = 0 ∧
    (initialObj o).nDataChunks = 0 ∧ (initialObj o).softDel = false ∧ (initialObj o).deferredFree = false := by
  unfold initialObj
  split_ifs <;> exact ⟨rfl, rfl, rfl, rfl, rfl⟩

/-- A device mounted on blank flash meets the invariant. -/
theorem freshDev_inv (g : Geometry) (T : ℕ → BlockState → Prop) (bad : ℕ → Bool) :
    Inv g T (freshDev g bad) where
  acc := blankBlocks_accounts g T bad
  own := by
    have hnone : ∀ c, (freshDev g bad).kept c = none := fun _ => rfl
    have hentry : ∀ o k, ((freshDev g bad).obj o).file.entry k = 0 := by
      intro o k
      change (initialObj o).file.entry k = 0
      rw [(initialObj_plain o).1]
      simp [FileVar.entry, FileVar.find]
    refine ⟨by change [_, _, _, _].Nodup; decide, ?_, fun c p hp => ?_, fun c _ p _ hp _ _ => ?_, fun o ho => ?_,
      fun o k hk => absurd (hentry o k) hk, fun o ho => ?_, fun o => ?_, fun o => ?_⟩
    · change ∀ o ∈ [objectIdLostNFound, objectIdRoot, objectIdDeleted, objectIdUnlinked], o ≠ objectIdSummary
      decide
    · exact absurd hp (by simp [hnone])
    · exact absurd hp (by simp [hnone])
    · exact absurd (initialObj_plain o).2.1 ho
    · exact absurd ((initialObj_plain o).2.2.2.1.symm.trans ho) Bool.false_ne_true
    · exact (initialObj_plain o).2.2.1.trans (tally_zero fun c _ => rfl).symm
    · change (initialObj o).file.topLevel ≤ _
      rw [(initialObj_plain o).1]
      exact Nat.zero_le _

end Yaffs
