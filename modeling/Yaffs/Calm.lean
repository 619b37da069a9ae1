import Yaffs.Ties

/-!
# Calls that leave objects where they are

Reading, writing, resizing and flushing a file touch what ties the objects together only when they
collect garbage.
-/

namespace Yaffs

variable {g : Geometry} {e : Env} {d d' d'' : Dev} {o : ℕ}

/-- The device gets there by steps that leave what ties the objects together, and by gc. -/
inductive Calm (g : Geometry) (e : Env) : Dev → Dev → Prop
  | refl (d : Dev) : Calm g e d d
  | same {d d' d'' : Dev} (h : Calm g e d d') (hs : SameTies d' d'') : Calm g e d d''
  | gc {d d' : Dev} (h : Calm g e d d') (background : Bool) : Calm g e d (checkGc g e background d')

/-- A function of the core that is quiet. -/
def Calming (g : Geometry) (e : Env) (f : Dev → Dev) : Prop :=
  ∀ d, Calm g e d (f d)

namespace Calm

theorem trans (h : Calm g e d d') (h' : Calm g e d' d'') : Calm g e d d'' := by
  induction h' with
  | refl => exact h
  | same _ hs ih => exact ih.same hs
  | gc _ background ih => exact ih.gc background

theorem next {f : Dev → Dev} (h : Calm g e d d') (hf : Calming g e f) : Calm g e d (f d') :=
  h.trans (hf d')

theorem evolves (h : Calm g e d d') (hd : Tied [] d) : Evolves [] [] d d' := by
  induction h with
  | refl => exact Evolves.refl hd
  | same _ hs ih => exact ih.same hs
  | gc _ background ih => exact ih.next (checkGc_evolves background)

end Calm

theorem Calming.evolving {f : Dev → Dev} (h : Calming g e f) : Evolving [] f :=
  fun d hd => (h d).evolves hd

/-! ## Headers -/

theorem updateOh_calm (o : ℕ) (name : Option Name) (force isShrink : Bool) (shadows : ℕ) :
    Calming g e fun d => (updateOh g e o name force isShrink shadows d).1 := by
  intro d
  rcases updateOhWith_step (g := g) (e := e) (checkGc g e false) o name force isShrink shadows d with heq | hstep
  · have hsame : (updateOh g e o name force isShrink shadows d).1 = d := heq
    simp only [hsame]
    exact Calm.refl d
  · exact ((Calm.refl d).gc false).same hstep.sameTies

theorem updateParent_calm (dir : Option ℕ) : Calming g e (updateParent g e dir) := by
  intro d
  unfold updateParent updateParentWith
  cases dir with
  | none => exact Calm.refl d
  | some o =>
    have hmod : Calm g e d (d.modObj o fun ob => { ob with dirty := true }) :=
      (Calm.refl d).same (SameTies.modObj rfl)
    simp only
    split_ifs
    · exact hmod
    · exact hmod.same ⟨fun _ => rfl, rfl, rfl⟩
    · exact hmod.next (updateOh_calm _ _ _ _ _)

/-! ## File data -/

theorem modCache_sameTies (d : Dev) (i : ℕ) (f : Cache → Cache) : SameTies d (d.modCache i f) :=
  ⟨fun _ => rfl, rfl, rfl⟩

theorem replaceChunk_sameTies (o k : ℕ) (prev : Option ℕ) (c : ℕ) (d : Dev) :
    SameTies d (replaceChunk g e o k prev c d) := by
  have hput := putChunkInFile_sameTies (g := g) (e := e) o k c d
  unfold replaceChunk
  cases prev
  · exact hput
  · exact hput.trans (SameTies.mapBlocks _ _)

theorem wrDataChunk_sameTies (o k : ℕ) (data : List UInt8) (nBytes : ℕ) (useReserve : Bool) (d : Dev) :
    SameTies d (wrDataChunk g e o k data nBytes useReserve d).1 := by
  have hprev : SameTies d (if (findChunkInFile g d o k).isNone then putChunkInFile g e o k 0 d else (d, true)).1 := by
    split_ifs
    · exact putChunkInFile_sameTies o k 0 d
    · exact SameTies.refl d
  unfold wrDataChunk
  simp only
  generalize (if (findChunkInFile g d o k).isNone then putChunkInFile g e o k 0 d else (d, true)) = r at hprev ⊢
  split
  · have hwrite := (hprev.trans (SameTies.modFile r.1 o (raiseStoredSize g k nBytes))).trans
      (onBlocks_sameTies _ (writeNewChunk g e (.bytes data) (dataTags o k nBytes) useReserve))
    split
    · exact hwrite.trans (replaceChunk_sameTies _ _ _ _ _)
    · exact hwrite
  · exact hprev

theorem wrDataObj_calm (o k : ℕ) (data : List UInt8) (nBytes : ℕ) (useReserve : Bool) :
    Calming g e fun d => (wrDataObj g e o k data nBytes useReserve d).1 :=
  fun d => ((Calm.refl d).gc false).same (wrDataChunk_sameTies _ _ _ _ _ _)

theorem flushSingleCache_calm (i : ℕ) (discard : Bool) : Calming g e (flushSingleCache g e i discard) := by
  intro d
  have hdiscard : ∀ x, Calm g e d x →
      Calm g e d (if discard then x.modCache i fun c => { c with object := none } else x) := by
    intro x hx
    split_ifs
    · exact hx.same (modCache_sameTies _ _ _)
    · exact hx
  unfold flushSingleCache
  simp only
  refine hdiscard _ ?_
  split
  · next o k _ nBytes data _ =>
    exact (wrDataObj_calm o k data nBytes true d).same (modCache_sameTies _ _ _)
  · exact Calm.refl d

theorem Calming.foldl {α : Type} {f : Dev → α → Dev} (hf : ∀ a, Calming g e fun d => f d a) (l : List α) :
    Calming g e fun d => l.foldl f d := by
  induction l with
  | nil => exact fun d => Calm.refl d
  | cons a l ih => exact fun d => (hf a d).next ih

theorem flushFileCache_calm (o : ℕ) (discard : Bool) : Calming g e (flushFileCache g e o discard) := by
  refine Calming.foldl (fun i d => ?_) _
  simp only [flushFileCacheStep]
  split_ifs
  · exact flushSingleCache_calm i discard d
  · exact Calm.refl d

theorem flushWholeCacheLoop_calm (discard : Bool) (n : ℕ) :
    Calming g e (flushWholeCacheLoop g e discard n) := by
  induction n with
  | zero => exact fun d => Calm.refl d
  | succ n ih =>
    intro d
    unfold flushWholeCacheLoop
    cases firstDirtyObj d with
    | none => exact Calm.refl d
    | some o => exact (flushFileCache_calm o discard d).next ih

theorem grabChunkCache_calm : Calming g e fun d => (grabChunkCache g e d).1 := by
  intro d
  simp only
  unfold grabChunkCache
  split
  · exact Calm.refl d
  · split
    · exact flushSingleCache_calm _ true d
    · exact Calm.refl d

theorem useCache_sameTies (i : ℕ) (isWrite : Bool) (d : Dev) : SameTies d (useCache i isWrite d) := by
  unfold useCache
  simp only
  split_ifs <;> exact ⟨fun _ => rfl, rfl, rfl⟩

theorem invalidateChunkCache_sameTies (o k : ℕ) (d : Dev) : SameTies d (invalidateChunkCache o k d) := by
  unfold invalidateChunkCache
  split
  · exact modCache_sameTies _ _ _
  · exact SameTies.refl d

theorem loadCache_calm (o k : ℕ) : Calming g e fun d => (loadCache g e o k d).1 := by
  intro d
  have hgrab := grabChunkCache_calm (g := g) (e := e) d
  simp only
  unfold loadCache
  simp only
  split
  · exact hgrab.same (modCache_sameTies _ _ _)
  · exact hgrab

theorem fileRdChunk_calm (o k start nCopy : ℕ) : Calming g e fun d => (fileRdChunk g e o k start nCopy d).1 := by
  intro d
  have hthrough : Calm g e d (rdThroughCache g e o k (findChunkCache o k d) start nCopy d).1 := by
    have hload : Calm g e d (loadCache g e o k d).1 := loadCache_calm o k d
    unfold rdThroughCache
    cases findChunkCache o k d with
    | some i => exact (Calm.refl d).same (useCache_sameTies i false d)
    | none =>
      simp only
      generalize loadCache g e o k d = r at hload ⊢
      obtain ⟨x, i⟩ := r
      cases i with
      | none => exact hload
      | some i => exact (hload.same (modCache_sameTies x i _)).same (useCache_sameTies i false _)
  simp only
  unfold fileRdChunk
  simp only
  split_ifs
  · exact hthrough
  · exact Calm.refl d
  · exact Calm.refl d

theorem fileRd_calm (o offset n : ℕ) : Calming g e fun d => (fileRd g e o offset n d).1 := by
  have hloop : ∀ fuel offset n, Calming g e fun d => (fileRdLoop g e o fuel offset n d).1 := by
    intro fuel
    induction fuel with
    | zero => exact fun _ _ d => Calm.refl d
    | succ fuel ih =>
      intro offset n d
      simp only
      unfold fileRdLoop
      split_ifs
      · exact Calm.refl d
      · exact (fileRdChunk_calm _ _ _ _ d).next (ih _ _)
  exact hloop n offset n

theorem cacheForWrite_calm (o k : ℕ) : Calming g e fun d => (cacheForWrite g e o k d).1 := by
  intro d
  simp only
  unfold cacheForWrite
  split
  · split_ifs
    · exact loadCache_calm o k d
    · exact Calm.refl d
  · split_ifs <;> exact Calm.refl d

theorem wrThroughCache_calm (o k start : ℕ) (src : List UInt8) (writeback : ℕ) (writeThrough : Bool) :
    Calming g e fun d => (wrThroughCache g e o k start src writeback writeThrough d).1 := by
  intro d
  have hcache := cacheForWrite_calm (g := g) (e := e) o k d
  simp only
  unfold wrThroughCache
  simp only
  split
  · exact hcache
  · next i _ =>
    have huse := hcache.same ((useCache_sameTies i true _).trans (modCache_sameTies _ i
      fun c => { c with data := patch c.data start src, nBytes := writeback }))
    split_ifs
    · exact (huse.next (wrDataObj_calm o k _ writeback true)).same (modCache_sameTies _ _ _)
    · exact huse

theorem wrChunk_calm (o k start : ℕ) (src : List UInt8) (writeback : ℕ) (writeThrough : Bool) :
    Calming g e fun d => (wrChunk g e o k start src writeback writeThrough d).1 := by
  intro d
  simp only
  unfold wrChunk
  split_ifs
  · exact wrThroughCache_calm _ _ _ _ _ _ d
  · exact wrDataObj_calm _ _ _ _ _ d
  · exact (wrDataObj_calm _ _ _ _ _ d).same (invalidateChunkCache_sameTies _ _ _)

theorem doFileWrLoop_calm (o : ℕ) (writeThrough : Bool) (fuel : ℕ) : ∀ (buffer : List UInt8) (offset : ℕ),
    Calming g e fun d => (doFileWrLoop g e o writeThrough fuel buffer offset d).1 := by
  induction fuel with
  | zero => exact fun _ _ d => Calm.refl d
  | succ fuel ih =>
    intro buffer offset d
    simp only
    unfold doFileWrLoop
    by_cases hempty : buffer.length = 0
    · rw [if_pos hempty]
      exact Calm.refl d
    · rw [if_neg hempty]
      have hchunk := wrChunk_calm (g := g) (e := e) o ((addrToChunk g offset).1 + 1) (addrToChunk g offset).2
        (buffer.take (chunkCopy g (addrToChunk g offset).2 buffer.length))
        (nWriteback g (d.obj o).file ((addrToChunk g offset).1 + 1) (addrToChunk g offset).2 buffer.length)
        writeThrough d
      simp only
      split
      · exact hchunk.next (ih _ _)
      · exact hchunk

theorem doFileWr_calm (o : ℕ) (buffer : List UInt8) (offset : ℕ) (writeThrough : Bool) :
    Calming g e fun d => (doFileWr g e o buffer offset writeThrough d).1 := by
  intro d
  simp only [doFileWr]
  exact (doFileWrLoop_calm o writeThrough _ buffer offset d).same (SameTies.modObj rfl)

/-! ## Resizing -/

theorem pruneChunk_sameTies (o i : ℕ) (d : Dev) : SameTies d (pruneChunk g e o d i) := by
  have hfind : SameTies d (findDelFileChunk g o i d).1 := by
    unfold findDelFileChunk
    split
    · exact SameTies.modFile d o fun f => f.load i 0
    · exact SameTies.refl d
  unfold pruneChunk
  simp only
  split
  · exact hfind
  · split_ifs
    · exact hfind
    · exact hfind
    · exact (hfind.trans (SameTies.modObj rfl)).trans (SameTies.mapBlocks _ _)

theorem rewriteLastChunk_calm (o k partialSize : ℕ) : Calming g e (rewriteLastChunk g e o k partialSize) := by
  intro d
  unfold rewriteLastChunk
  exact wrDataObj_calm _ _ _ _ _ d

theorem resizeFileDown_calm (o newSize : ℕ) : Calming g e (resizeFileDown g e o newSize) := by
  intro d
  have hprune : Calm g e d (pruneChunks g e o newSize d) :=
    Calming.foldl (fun i x => (Calm.refl x).same (pruneChunk_sameTies o i x)) _ d
  have htree : ∀ x : Dev, SameTies x (pruneTree o x) := by
    intro x
    unfold pruneTree
    exact (SameTies.setBlocks x _).trans (SameTies.modFile _ o _)
  have hend : ∀ x, Calm g e d x → Calm g e d
      (pruneTree o (x.modFile o fun f => { f with fileSize := newSize, storedSize := newSize })) :=
    fun x hx => (hx.same (SameTies.modFile _ _ _)).same (htree _)
  unfold resizeFileDown
  simp only
  split_ifs
  · exact hend _ (hprune.next (rewriteLastChunk_calm _ _ _))
  · exact hend _ hprune

theorem fillHoleLoop_calm (o fuel : ℕ) : ∀ pos increase,
    Calming g e fun d => (fillHoleLoop g e o fuel pos increase d).1 := by
  induction fuel with
  | zero => exact fun _ _ d => Calm.refl d
  | succ fuel ih =>
    intro pos increase d
    simp only
    unfold fillHoleLoop
    by_cases hinc : increase = 0
    · rw [if_pos hinc]
      exact Calm.refl d
    · rw [if_neg hinc]
      have hwrite := doFileWr_calm (g := g) (e := e) o
        (List.replicate (min increase g.dataBytesPerChunk) 0) pos false d
      simp only
      split
      · exact hwrite.next (ih _ _)
      · exact hwrite

theorem handleHole_calm (o newSize : ℕ) : Calming g e (handleHole g e o newSize) := by
  intro d
  have hfill : Calm g e d (fillSmallHole g e o newSize d).1 := by
    have hloop := fillHoleLoop_calm (g := g) (e := e) o (newSize - (d.obj o).file.fileSize)
      (d.obj o).file.fileSize (newSize - (d.obj o).file.fileSize) d
    unfold fillSmallHole
    simp only
    split
    · split
      · exact hloop
      · exact hloop.next (resizeFileDown_calm _ _)
    · exact Calm.refl d
  unfold handleHole
  by_cases hno : (d.obj o).variantType ≠ .file ∨ g.isYaffs2 = false ∨ newSize ≤ (d.obj o).file.fileSize
  · rw [if_pos hno]
    exact Calm.refl d
  · rw [if_neg hno]
    simp only
    split
    · exact hfill.next (updateOh_calm _ _ _ _ _)
    · exact hfill

theorem wrFile_calm (o : ℕ) (buffer : List UInt8) (offset : ℕ) (writeThrough : Bool) :
    Calming g e fun d => (wrFile g e o buffer offset writeThrough d).1 :=
  fun d => (handleHole_calm o offset d).next (doFileWr_calm o buffer offset writeThrough)

theorem resizeHdr_calm (o : ℕ) : Calming g e (resizeHdr g e o) := by
  intro d
  unfold resizeHdr
  split_ifs
  · exact updateOh_calm _ _ _ _ _ d
  · exact Calm.refl d

theorem resizeFile_calm (o newSize : ℕ) : Calming g e fun d => (resizeFile g e o newSize d).1 := by
  intro d
  have hinval : SameTies (flushFileCache g e o true d) (invalidateFileCache o (flushFileCache g e o true d)) :=
    ⟨fun _ => rfl, rfl, rfl⟩
  have hflush := ((flushFileCache_calm (g := g) (e := e) o true d).same hinval).gc false
  simp only
  unfold resizeFile
  simp only
  split_ifs
  · exact hflush
  · exact hflush
  · exact ((hflush.next (handleHole_calm _ _)).same (SameTies.modFile _ _ _)).next (resizeHdr_calm _)
  · exact (hflush.next (resizeFileDown_calm _ _)).next (resizeHdr_calm _)

theorem flushFile_calm (o : ℕ) (dataSync discardCache : Bool) :
    Calming g e fun d => (flushFile g e o dataSync discardCache d).1 := by
  intro d
  have hflush := flushFileCache_calm (g := g) (e := e) o discardCache d
  simp only
  unfold flushFile
  split_ifs
  · exact Calm.refl d
  · exact hflush
  · exact hflush.next (updateOh_calm _ _ _ _ _)

end Yaffs
