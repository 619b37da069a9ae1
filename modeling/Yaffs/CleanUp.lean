import Yaffs.Caching

/-!
# The files gc is to delete

When gc drops the last chunk of a file that has been softly deleted, it notes the file on its clean-up
list, and deletes the files of the list once the block has been collected. What the list says is kept by
all that gc does, unless it takes up another block while files are on the list.
-/

namespace Yaffs

variable {g : Geometry} {e : Env}

/-! ## The cursor of gc -/

section Cursor

variable {d : BlockDev} {b c : ℕ}

theorem checkptEraseBlock_chunk : (checkptEraseBlock g.toParam e d b).gc.chunk = d.gc.chunk :=
  (checkptEraseBlock_quiet b).gcChunk

theorem checkptInvalidate_chunk : (checkptInvalidate g e d).gc.chunk = d.gc.chunk := by
  have hfold : ∀ (l : List ℕ) (x : BlockDev),
      (l.foldl (checkptEraseBlock g.toParam e) x).gc.chunk = x.gc.chunk := by
    intro l
    induction l with
    | nil => exact fun _ => rfl
    | cons b l ih => exact fun x => (ih _).trans checkptEraseBlock_chunk
  unfold checkptInvalidate checkptErase
  split_ifs
  · exact hfold _ _
  · rfl

theorem retireBlock_chunk : (retireBlock g e b d).gc.chunk = d.gc.chunk := by
  obtain ⟨n, hn, -⟩ := markRetired_eq g e b (clearOldestDirtySeq g b (checkptInvalidate g e d))
  have hclear : (clearOldestDirtySeq g b (checkptInvalidate g e d)).gc.chunk = d.gc.chunk :=
    (clearOldestDirtySeq_quiet fun _ => False).gcChunk.trans checkptInvalidate_chunk
  unfold retireBlock
  rw [hn]
  exact hclear

theorem blockBecameDirty_chunk : (blockBecameDirty g e b d).gc.chunk = d.gc.chunk := by
  have hdirty : (becomeDirty g b d).gc.chunk = d.gc.chunk := becomeDirty_quiet.gcChunk
  have herase : (eraseUnlessRetiring g e b (becomeDirty g b d)).1.gc.chunk = d.gc.chunk := by
    unfold eraseUnlessRetiring
    split_ifs
    · exact hdirty
    · exact checkptInvalidate_chunk.trans hdirty
  unfold blockBecameDirty
  simp only
  split_ifs
  · exact herase
  · exact retireBlock_chunk.trans herase

theorem chunkDel_chunk (m : Bool) : (chunkDel g e c m d).gc.chunk = d.gc.chunk := by
  have hmark : (markIfNeeded g e c m (updateOldestDirtySeq g (c / g.chunksPerBlock) d)).gc.chunk = d.gc.chunk := by
    have hseq : (updateOldestDirtySeq g (c / g.chunksPerBlock) d).gc.chunk = d.gc.chunk :=
      (updateOldestDirtySeq_quiet fun _ => False).gcChunk
    unfold markIfNeeded markDeleted driverWrite
    split_ifs <;> exact hseq
  unfold chunkDel
  simp only
  split_ifs
  · rfl
  · exact blockBecameDirty_chunk.trans hmark
  · exact hmark
  · exact hmark

theorem skipRestOfBlock_chunk : (skipRestOfBlock d).gc.chunk = d.gc.chunk := by
  unfold skipRestOfBlock
  split
  · split_ifs <;> rfl
  · rfl

theorem allocChunk_chunk (useReserver : Bool) : (allocChunk g useReserver d).1.gc.chunk = d.gc.chunk := by
  have hloop : ∀ (n : ℕ) (x : BlockDev), (findAllocBlockLoop g n x).1.gc.chunk = x.gc.chunk := by
    intro n
    induction n with
    | zero => exact fun _ => rfl
    | succ n ih =>
      intro x
      unfold findAllocBlockLoop
      simp only
      split_ifs
      · rfl
      · exact ih _
  have hensure : (ensureAllocBlock g d).gc.chunk = d.gc.chunk := by
    unfold ensureAllocBlock findAllocBlock
    split_ifs
    · rfl
    · exact hloop _ _
    · rfl
  unfold allocChunk
  simp only
  split_ifs
  · exact hensure
  · split
    · unfold takePage
      simp only
      split_ifs <;> exact hensure
    · exact hensure

theorem summaryAdd_chunk (t : ExtTags) : (summaryAdd g e t c d).gc.chunk = d.gc.chunk := by
  have hloop : ∀ (n b : ℕ) (hdr : SummaryHeader) (st : List SummaryTags) (i k offset nBytes : ℕ) (x : BlockDev),
      (summaryWriteLoop g e b hdr st n i k offset nBytes x).1.gc.chunk = x.gc.chunk := by
    intro n b hdr st
    induction n with
    | zero => exact fun _ _ _ _ _ => rfl
    | succ n ih =>
      intro i k offset nBytes x
      unfold summaryWriteLoop
      simp only
      split_ifs
      · rfl
      · exact ih _ _ _ _ _
      · rfl
  have hwrite : ∀ (b : ℕ) (x : BlockDev), (summaryWrite g e b x).gc.chunk = x.gc.chunk := by
    intro b x
    unfold summaryWrite
    simp only
    split_ifs <;> exact hloop _ _ _ _ _ _ _ _ _
  unfold summaryAdd
  simp only
  split_ifs
  · exact skipRestOfBlock_chunk.trans (hwrite _ _)
  · rfl
  · rfl

theorem programChunk_chunk (data : PageData) (t : ExtTags) :
    (programChunk g e c data t d).1.gc.chunk = d.gc.chunk := by
  have hwrite : (wrChunkTagsNand g e c data t d).1.gc.chunk = d.gc.chunk := summaryAdd_chunk _
  unfold programChunk verifyChunkWritten driverRead
  simp only
  split_ifs <;> exact hwrite

theorem handleChunkWrError_chunk (erasedOk : Bool) :
    (handleChunkWrError g e c erasedOk d).gc.chunk = d.gc.chunk := by
  have herror : (handleChunkError (c / g.chunksPerBlock) d).gc.chunk = d.gc.chunk := by
    unfold handleChunkError
    split_ifs <;> rfl
  unfold handleChunkWrError
  simp only
  split_ifs <;> exact (skipRestOfBlock_chunk.trans (chunkDel_chunk true)).trans herror

theorem writeAttempt_chunk (data : PageData) (t : ExtTags) (useReserver : Bool) :
    (writeAttempt g e data t useReserver d).1.gc.chunk = d.gc.chunk := by
  have halloc := allocChunk_chunk (g := g) (d := d) useReserver
  unfold writeAttempt
  split
  · next x heq =>
    rw [heq] at halloc
    exact halloc
  · next x c heq =>
    rw [heq] at halloc
    have hcheck : (erasedCheck g e c x).1.gc.chunk = x.gc.chunk := by
      unfold erasedCheck checkChunkErased driverRead
      simp only
      split_ifs <;> rfl
    have hprogram := (programChunk_chunk (g := g) (e := e) (c := c) (d := (erasedCheck g e c x).1) data t).trans
      (hcheck.trans halloc)
    simp only
    split_ifs
    · exact hprogram
    · exact (handleChunkWrError_chunk _).trans hprogram
    · exact (skipRestOfBlock_chunk.trans (chunkDel_chunk true)).trans (hcheck.trans halloc)

/-- Writing a chunk does not move the cursor of gc. -/
theorem writeNewChunk_chunk (data : PageData) (t : ExtTags) (useReserver : Bool) :
    (writeNewChunk g e data t useReserver d).1.gc.chunk = d.gc.chunk := by
  have hloop : ∀ (n attempts : ℕ) (x : BlockDev),
      (writeNewChunkLoop g e data t useReserver n attempts x).1.gc.chunk = x.gc.chunk := by
    intro n
    induction n with
    | zero => exact fun _ _ => rfl
    | succ n ih =>
      intro attempts x
      have hattempt := writeAttempt_chunk (g := g) (e := e) (d := x) data t useReserver
      unfold writeNewChunkLoop
      generalize writeAttempt g e data t useReserver x = r at hattempt ⊢
      obtain ⟨y, _ | _ | _⟩ := r
      · exact hattempt
      · simp only
        split_ifs
        · exact (ih _ _).trans hattempt
        · exact hattempt
      · exact hattempt
  exact (hloop _ _ _).trans checkptInvalidate_chunk

theorem summaryGc_chunk : (summaryGc g b d).gc.chunk = d.gc.chunk := by
  have hfold : ∀ (l : List ℕ) (x : BlockDev),
      (l.foldl (fun x page => if x.chunkBits (b * g.chunksPerBlock + page) then
        releaseChunk b (b * g.chunksPerBlock + page) x else x) x).gc.chunk = x.gc.chunk := by
    intro l
    induction l with
    | nil => exact fun _ => rfl
    | cons page l ih =>
      intro x
      rw [List.foldl_cons, ih]
      split_ifs <;> rfl
  unfold summaryGc
  split_ifs
  · exact hfold _ _
  · rfl

theorem CountsOnly.chunk {d' : BlockDev} (h : CountsOnly d d') : d'.gc.chunk = d.gc.chunk := by
  obtain ⟨n, t, rfl⟩ := h
  rfl

end Cursor

/-! ## The clean-up list -/

variable {d d' d'' x : Dev} {o : ℕ}

/-- The files that have been deleted are as before, and no file has lost chunks. -/
structure Fed (d d' : Dev) : Prop where
  ids : d'.ids = d.ids
  list : d'.gcCleanupList = d.gcCleanupList
  deletedFiles : d'.nDeletedFiles = d.nDeletedFiles
  chunk : d'.gc.chunk = d.gc.chunk
  soft : ∀ o, (d'.obj o).softDel = (d.obj o).softDel
  deleted : ∀ o, (d'.obj o).deleted = (d.obj o).deleted
  type : ∀ o, (d'.obj o).variantType = (d.obj o).variantType
  data : ∀ o, (d.obj o).nDataChunks ≤ (d'.obj o).nDataChunks
  size : ∀ o, (d'.obj o).file.fileSize = (d.obj o).file.fileSize

/-- Every file that has been softly deleted and has no data left is on the clean-up list of gc, which is no
longer than the cursor is far, and the deleted files are counted. -/
structure CleanUps (g : Geometry) (d : Dev) : Prop where
  ties : Tied [] d
  listed : ∀ o ∈ d.ids, (d.obj o).softDel = true → (d.obj o).nDataChunks ≤ 0 → o ∈ d.gcCleanupList
  length : d.gcCleanupList.length ≤ d.gc.chunk
  cursor : d.gc.chunk ≤ g.chunksPerBlock
  files : ∀ o ∈ d.ids, (d.obj o).deleted = true → (d.obj o).variantType = .file
  count : d.nDeletedFiles = d.ids.countP fun o => (d.obj o).deleted

/-- The list is kept, and files that have not been deleted lose nothing. -/
structure Minds (g : Geometry) (d d' : Dev) : Prop where
  cleanUps : CleanUps g d'
  soft : ∀ o, (d'.obj o).softDel = (d.obj o).softDel
  data : ∀ o, (d.obj o).softDel = false → (d.obj o).nDataChunks ≤ (d'.obj o).nDataChunks
  size : ∀ o, (d'.obj o).file.fileSize = (d.obj o).file.fileSize

namespace Fed

theorem refl (d : Dev) : Fed d d :=
  ⟨rfl, rfl, rfl, rfl, fun _ => rfl, fun _ => rfl, fun _ => rfl, fun _ => le_rfl, fun _ => rfl⟩

theorem trans (h : Fed d d') (h' : Fed d' d'') : Fed d d'' where
  ids := h'.ids.trans h.ids
  list := h'.list.trans h.list
  deletedFiles := h'.deletedFiles.trans h.deletedFiles
  chunk := h'.chunk.trans h.chunk
  soft o := (h'.soft o).trans (h.soft o)
  deleted o := (h'.deleted o).trans (h.deleted o)
  type o := (h'.type o).trans (h.type o)
  data o := (h.data o).trans (h'.data o)
  size o := (h'.size o).trans (h.size o)

/-- Nothing happens to the objects. -/
theorem blocks {b : BlockDev} (hb : b.gc.chunk = d.gc.chunk) : Fed d { d with toBlockDev := b } :=
  ⟨rfl, rfl, rfl, hb, fun _ => rfl, fun _ => rfl, fun _ => rfl, fun _ => le_rfl, fun _ => rfl⟩

theorem mapBlocks (d : Dev) {f : BlockDev → BlockDev} (hf : (f d.toBlockDev).gc.chunk = d.gc.chunk) :
    Fed d (d.mapBlocks f) :=
  blocks hf

/-- Nothing happens to what deletion goes by. -/
theorem congr (h : Fed d d') (hids : x.ids = d'.ids) (hlist : x.gcCleanupList = d'.gcCleanupList)
    (hfiles : x.nDeletedFiles = d'.nDeletedFiles) (hchunk : x.gc.chunk = d'.gc.chunk) (hobj : x.obj = d'.obj) :
    Fed d x :=
  h.trans ⟨hids, hlist, hfiles, hchunk, fun _ => by rw [hobj], fun _ => by rw [hobj], fun _ => by rw [hobj],
    fun _ => by rw [hobj], fun _ => by rw [hobj]⟩

/-- One object gets other marks than those of a deletion. -/
theorem modObj {f : Obj → Obj} (hs : (f (d.obj o)).softDel = (d.obj o).softDel)
    (hd : (f (d.obj o)).deleted = (d.obj o).deleted) (ht : (f (d.obj o)).variantType = (d.obj o).variantType)
    (hn : (d.obj o).nDataChunks ≤ (f (d.obj o)).nDataChunks)
    (hf : (f (d.obj o)).file.fileSize = (d.obj o).file.fileSize) : Fed d (d.modObj o f) := by
  have hobj : ∀ q, (d.modObj o f).obj q = if q = o then f (d.obj o) else d.obj q := by
    intro q
    by_cases hq : q = o
    · subst hq
      simp [Dev.modObj]
    · simp [Dev.modObj, hq]
  refine ⟨rfl, rfl, rfl, rfl, fun q => ?_, fun q => ?_, fun q => ?_, fun q => ?_, fun q => ?_⟩
  all_goals
    rw [hobj]
    split_ifs with hq
    · subst hq
      assumption
    · rfl

theorem modFile (d : Dev) {f : FileVar → FileVar} (hf : (f (d.obj o).file).fileSize = (d.obj o).file.fileSize) :
    Fed d (d.modFile o f) :=
  modObj rfl rfl rfl le_rfl hf

theorem cleanUps (h : Fed d d') (hd : CleanUps g d) (ht : Tied [] d') : CleanUps g d' where
  ties := ht
  listed o ho hs hn := by
    rw [h.ids] at ho
    rw [h.soft] at hs
    rw [h.list]
    exact hd.listed o ho hs ((h.data o).trans hn)
  length := by
    rw [h.list, h.chunk]
    exact hd.length
  cursor := h.chunk ▸ hd.cursor
  files o ho hdel := by
    rw [h.ids] at ho
    rw [h.deleted] at hdel
    rw [h.type]
    exact hd.files o ho hdel
  count := by
    rw [h.deletedFiles, h.ids, hd.count]
    simp only [h.deleted]

theorem minds (h : Fed d d') (hd : CleanUps g d) (ht : Tied [] d') : Minds g d d' :=
  ⟨h.cleanUps hd ht, h.soft, fun o _ => h.data o, h.size⟩

end Fed

namespace Minds

theorem refl (h : CleanUps g d) : Minds g d d :=
  ⟨h, fun _ => rfl, fun _ _ => le_rfl, fun _ => rfl⟩

theorem trans (h : Minds g d d') (h' : Minds g d' d'') : Minds g d d'' where
  cleanUps := h'.cleanUps
  soft o := (h'.soft o).trans (h.soft o)
  data o ho := (h.data o ho).trans (h'.data o ((h.soft o).trans ho))
  size o := (h'.size o).trans (h.size o)

/-- What follows is of no concern to the files that have been deleted. -/
theorem fed (h : Minds g d d') (hf : Fed d' x) (ht : Tied [] x) : Minds g d x :=
  h.trans (hf.minds h.cleanUps ht)

theorem same (h : Minds g d d') (hf : Fed d' x) (hs : SameTies d' x) : Minds g d x :=
  h.fed hf (hs.evolves h.cleanUps.ties).ties

end Minds

/-! ## Data and headers -/

theorem putChunkInFile_fed (o k c : ℕ) (d : Dev) : Fed d (putChunkInFile g e o k c d).1 := by
  unfold putChunkInFile
  by_cases hfile : (d.obj o).variantType ≠ .file
  · rw [if_pos hfile]
    exact Fed.blocks (chunkDel_chunk true)
  · rw [if_neg hfile]
    obtain ⟨hcounts, hadded, -⟩ := FileVar.addFind_spec (e := e) (d.obj o).file k d.toBlockDev
    have hadd : Fed d ({ d with toBlockDev := ((d.obj o).file.addFind e k d.toBlockDev).1 }.modFile o
        fun _ => ((d.obj o).file.addFind e k d.toBlockDev).2.1) :=
      (Fed.blocks hcounts.chunk).trans (Fed.modObj rfl rfl rfl le_rfl hadded.same.fileSize)
    have hload : ∀ y : Dev, Fed d y → Fed d ((if groupBase g ((y.obj o).file.entry k) = 0 then
        y.modObj o fun ob => { ob with nDataChunks := ob.nDataChunks + 1 } else y).modFile o
          fun f => f.load k (groupOf g c)) := by
      intro y hy
      split_ifs
      · refine (hy.trans (Fed.modObj rfl rfl rfl ?_ rfl)).trans (Fed.modObj rfl rfl rfl le_rfl rfl)
        simp
      · exact hy.trans (Fed.modObj rfl rfl rfl le_rfl rfl)
    simp only
    split
    · split
      · exact hadd
      · exact hload _ hadd
    · exact hadd

theorem onWrite_fed (data : PageData) (t : ExtTags) (useReserve : Bool) (d : Dev) :
    Fed d (d.onBlocks (writeNewChunk g e data t useReserve)).1 :=
  Fed.blocks (writeNewChunk_chunk data t useReserve)

theorem onDel_fed (c : ℕ) (m : Bool) (d : Dev) : Fed d (d.mapBlocks (chunkDel g e c m)) :=
  Fed.mapBlocks d (chunkDel_chunk m)

theorem wrDataChunk_fed (o k : ℕ) (data : List UInt8) (nBytes : ℕ) (useReserve : Bool) (d : Dev) :
    Fed d (wrDataChunk g e o k data nBytes useReserve d).1 := by
  have hprev : Fed d (if (findChunkInFile g d o k).isNone then putChunkInFile g e o k 0 d else (d, true)).1 := by
    split_ifs
    · exact putChunkInFile_fed o k 0 d
    · exact Fed.refl d
  have hreplace : ∀ (prev : Option ℕ) (c : ℕ) (y : Dev), Fed y (replaceChunk g e o k prev c y) := by
    intro prev c y
    have hput := putChunkInFile_fed (g := g) (e := e) o k c y
    unfold replaceChunk
    cases prev
    · exact hput
    · exact hput.trans (onDel_fed _ _ _)
  unfold wrDataChunk
  simp only
  generalize (if (findChunkInFile g d o k).isNone then putChunkInFile g e o k 0 d else (d, true)) = r at hprev ⊢
  split
  · have hraise : Fed r.1 (r.1.modFile o (raiseStoredSize g k nBytes)) := by
      refine Fed.modObj rfl rfl rfl le_rfl ?_
      unfold raiseStoredSize
      simp only
      split_ifs <;> rfl
    have hwrite := (hprev.trans hraise).trans
      (onWrite_fed (g := g) (e := e) (.bytes data) (dataTags o k nBytes) useReserve _)
    split
    · exact hwrite.trans (hreplace _ _ _)
    · exact hwrite
  · exact hprev

/-- After its gc, `yaffs_update_oh` changes nothing that concerns deleted files. -/
theorem updateOhWith_fed (gc : Dev → Dev) (o : ℕ) (name : Option Name) (force isShrink : Bool) (shadows : ℕ)
    (d : Dev) : (updateOhWith g e gc o name force isShrink shadows d).1 = d ∨
      ¬((d.obj o).fake = true ∧ o ≠ objectIdRoot ∧ force = false) ∧
        Fed (gc d) (updateOhWith g e gc o name force isShrink shadows d).1 := by
  unfold updateOhWith
  by_cases hfake : (d.obj o).fake = true ∧ o ≠ objectIdRoot ∧ force = false
  · rw [if_pos hfake]
    exact Or.inl rfl
  · rw [if_neg hfake]
    refine Or.inr ⟨hfake, ?_⟩
    have hwrite := onWrite_fed (g := g) (e := e) (.hdr (objHdr (gc d) o name isShrink shadows))
      (hdrTags o (objHdr (gc d) o name isShrink shadows)) (decide (0 < ((gc d).obj o).hdrChunk)) (gc d)
    simp only
    split
    · exact hwrite
    · next c _ =>
      have hreplace : ∀ (prev : ℕ) (y : Dev), Fed y (replaceHdr g e o prev c y) := by
        intro prev y
        have hmod : Fed y (y.modObj o fun ob => { ob with hdrChunk := c }) := Fed.modObj rfl rfl rfl le_rfl rfl
        unfold replaceHdr
        simp only
        split_ifs
        · exact hmod.trans (onDel_fed _ _ _)
        · exact hmod
      have hclean : ∀ y : Dev, Fed y (if objCacheDirty y o then y else y.modObj o fun ob => { ob with dirty := false }) := by
        intro y
        split_ifs
        · exact Fed.refl y
        · exact Fed.modObj rfl rfl rfl le_rfl rfl
      have hstep := (hwrite.trans (hreplace ((gc d).obj o).hdrChunk _)).trans (hclean _)
      cases isShrink
      · exact hstep
      · exact hstep.trans (Fed.blocks rfl)

theorem removeObjFromDir_fed (o : ℕ) (d : Dev) : Fed d (removeObjFromDir o d) := by
  have hparent : ∀ y : Dev, Fed y (y.modObj o fun ob => { ob with parent := none }) :=
    fun _ => Fed.modObj rfl rfl rfl le_rfl rfl
  unfold removeObjFromDir
  cases (d.obj o).parent with
  | none => exact hparent d
  | some p => exact Fed.trans (Fed.modObj rfl rfl rfl le_rfl rfl) (hparent _)

theorem addObjToDir_fed (dir o : ℕ) (d : Dev) : Fed d (addObjToDir dir o d) := by
  have hadd := ((removeObjFromDir_fed o d).trans (Fed.modObj (o := dir)
    (f := fun ob => { ob with children := o :: ob.children }) rfl rfl rfl le_rfl rfl)).trans
    (Fed.modObj (o := o) (f := fun ob => { ob with parent := some dir }) rfl rfl rfl le_rfl rfl)
  unfold addObjToDir
  simp only
  split_ifs
  · have hmark := hadd.trans (Fed.modObj (o := o)
      (f := fun ob => { ob with unlinked := true, renameAllowed := false }) rfl rfl rfl le_rfl rfl)
    exact hmark.congr rfl rfl rfl rfl rfl
  · exact hadd

theorem setObjName_fed (o : ℕ) (name : Name) (d : Dev) :
    Fed d (d.modObj o fun ob => { setObjName o name ob with dirty := true }) := by
  have hset : ∀ ob : Obj, (setObjName o name ob).softDel = ob.softDel ∧ (setObjName o name ob).deleted = ob.deleted ∧
      (setObjName o name ob).variantType = ob.variantType ∧ (setObjName o name ob).nDataChunks = ob.nDataChunks ∧ (setObjName o name ob).file = ob.file := by
    intro ob
    unfold setObjName
    split_ifs <;> exact ⟨rfl, rfl, rfl, rfl, rfl⟩
  obtain ⟨hs, hd, ht, hn, hf⟩ := hset (d.obj o)
  exact Fed.modObj hs hd ht hn.ge (congrArg FileVar.fileSize hf)

/-! ## Collecting -/

theorem gcCopyHdr_fed (o old : ℕ) (p : Page) (d : Dev) : Fed d (gcCopyHdr g e o old p d).1 := by
  have hwrite := onWrite_fed (g := g) (e := e) (gcHdrPage d o p).data (gcHdrPage d o p).tags true d
  unfold gcCopyHdr
  simp only
  split
  · exact hwrite
  · exact (hwrite.trans (Fed.modObj rfl rfl rfl le_rfl rfl)).trans (onDel_fed _ _ _)

theorem gcCopyData_fed (o old : ℕ) (p : Page) (d : Dev) : Fed d (gcCopyData g e o old p d).1 := by
  have hwrite := onWrite_fed (g := g) (e := e) p.data p.tags true d
  unfold gcCopyData
  simp only
  split
  · exact hwrite
  · exact (hwrite.trans (putChunkInFile_fed _ _ _ _)).trans (onDel_fed _ _ _)

/-- The cursor moves on to the next chunk. -/
def gcNext (d : Dev) : Dev :=
  d.mapBlocks fun b => { b with gc := { b.gc with chunk := b.gc.chunk + 1 } }

theorem gcNext_sameTies (d : Dev) : SameTies d (gcNext d) :=
  SameTies.mapBlocks d _

/-- The cursor leaves a chunk behind that was of no concern to the deleted files. -/
theorem Fed.next (h : Fed d d') (hd : CleanUps g d) (ht : Tied [] d') (hlt : d.gc.chunk < g.chunksPerBlock) :
    Minds g d (gcNext d') := by
  have hd' := h.cleanUps hd ht
  refine ⟨⟨((gcNext_sameTies d').evolves ht).ties, hd'.listed, ?_, ?_, hd'.files, hd'.count⟩, h.soft, fun o _ => h.data o, h.size⟩
  · exact hd'.length.trans (Nat.le_succ _)
  · change d'.gc.chunk + 1 ≤ g.chunksPerBlock
    rw [h.chunk]
    exact hlt

/-- gc drops a chunk of a file that has been softly deleted, and notes the file when it was its last one. -/
theorem gcDropChunk_next (old : ℕ) (hd : CleanUps g d) (hid : o ∈ d.ids) (hs : (d.obj o).softDel = true)
    (hlt : d.gc.chunk < g.chunksPerBlock) : Minds g d (gcNext (gcDropChunk g e o old d)) := by
  have hev := gcDropChunk_evolves (g := g) (e := e) old hd.ties hid hs
  have hobj : ∀ q, (gcDropChunk g e o old d).obj q =
      { d.obj q with nDataChunks := if q = o then (d.obj q).nDataChunks - 1 else (d.obj q).nDataChunks } := by
    intro q
    unfold gcDropChunk
    simp only
    by_cases hq : q = o
    · subst hq
      rw [if_pos rfl]
      split_ifs <;> simp [Dev.mapBlocks, Dev.modObj]
    · rw [if_neg hq]
      split_ifs <;> simp [Dev.mapBlocks, Dev.modObj, hq]
  have hrest : (gcDropChunk g e o old d).ids = d.ids ∧ (gcDropChunk g e o old d).gc.chunk = d.gc.chunk ∧
      (gcDropChunk g e o old d).nDeletedFiles = d.nDeletedFiles := by
    unfold gcDropChunk
    simp only
    split_ifs <;> exact ⟨rfl, chunkDel_chunk false, rfl⟩
  have hlist : (gcDropChunk g e o old d).gcCleanupList =
      d.gcCleanupList ++ if (d.obj o).nDataChunks - 1 ≤ 0 then [o] else [] := by
    unfold gcDropChunk
    simp only [Dev.mapBlocks, Dev.modObj, Function.update_self]
    split_ifs <;> simp
  refine ⟨⟨((gcNext_sameTies _).evolves hev.ties).ties, fun q hq hsq hn => ?_, ?_, ?_, fun q hq hdel => ?_, ?_⟩,
    fun q => ?_, fun q hq => ?_, fun q => ?_⟩
  · change q ∈ (gcDropChunk g e o old d).gcCleanupList
    change q ∈ (gcDropChunk g e o old d).ids at hq
    change ((gcDropChunk g e o old d).obj q).softDel = true at hsq
    change ((gcDropChunk g e o old d).obj q).nDataChunks ≤ 0 at hn
    rw [hrest.1] at hq
    rw [hobj] at hsq hn
    rw [hlist]
    by_cases hqo : q = o
    · subst hqo
      have hdrop : (d.obj q).nDataChunks - 1 ≤ 0 := by simpa using hn
      simp [hdrop]
    · exact List.mem_append_left _ (hd.listed q hq hsq (by simpa [hqo] using hn))
  · change (gcDropChunk g e o old d).gcCleanupList.length ≤ (gcDropChunk g e o old d).gc.chunk + 1
    rw [hlist, hrest.2.1, List.length_append]
    have := hd.length
    split_ifs <;> simp <;> omega
  · change (gcDropChunk g e o old d).gc.chunk + 1 ≤ g.chunksPerBlock
    rw [hrest.2.1]
    exact hlt
  · change q ∈ (gcDropChunk g e o old d).ids at hq
    change ((gcDropChunk g e o old d).obj q).deleted = true at hdel
    change ((gcDropChunk g e o old d).obj q).variantType = .file
    rw [hrest.1] at hq
    rw [hobj] at hdel ⊢
    exact hd.files q hq hdel
  · change (gcDropChunk g e o old d).nDeletedFiles =
      (gcDropChunk g e o old d).ids.countP fun q => ((gcDropChunk g e o old d).obj q).deleted
    rw [hrest.2.2, hrest.1, hd.count]
    simp only [hobj]
  · change ((gcDropChunk g e o old d).obj q).softDel = _
    rw [hobj]
  · change _ ≤ ((gcDropChunk g e o old d).obj q).nDataChunks
    rw [hobj]
    have hqo : q ≠ o := by
      rintro rfl
      rw [hs] at hq
      exact Bool.noConfusion hq
    simp [hqo]
  · change ((gcDropChunk g e o old d).obj q).file.fileSize = _
    rw [hobj]

theorem findByNumber_eq_some {q : ℕ} (h : findByNumber d q = some o) : o = q ∧ o ∈ d.ids := by
  unfold findByNumber at h
  split_ifs at h with hid
  obtain rfl := Option.some.inj h
  exact ⟨rfl, hid.1⟩

/-- gc is done with a chunk, and its cursor moves on. -/
theorem gcProcessChunk_next (old : ℕ) (hd : CleanUps g d) (hlt : d.gc.chunk < g.chunksPerBlock) :
    Minds g d (gcNext (gcProcessChunk g e old d).1) := by
  have hev := gcProcessChunk_evolves (g := g) (e := e) old hd.ties
  unfold gcProcessChunk at hev ⊢
  simp only at hev ⊢
  split at hev
  · exact (onDel_fed old true d).next hd hev.ties hlt
  · next o hfind =>
    split_ifs at hev ⊢ with hsoft
    · exact gcDropChunk_next old hd (findByNumber_eq_some hfind).2 hsoft.2.1 hlt
    · exact (gcCopyHdr_fed _ _ _ _).next hd hev.ties hlt
    · exact (gcCopyData_fed _ _ _ _).next hd hev.ties hlt

theorem gcBlockLoop_minds (b n : ℕ) : ∀ (maxCopies : ℕ) (d : Dev), CleanUps g d →
    Minds g d (gcBlockLoop g e b n maxCopies d).1 := by
  induction n with
  | zero => exact fun _ d h => Minds.refl h
  | succ n ih =>
    intro maxCopies d h
    unfold gcBlockLoop
    by_cases hgo : d.gc.chunk < g.chunksPerBlock ∧ (d.blockInfo b).blockState = .collecting ∧ 0 < maxCopies
    · rw [if_pos hgo]
      simp only
      have hchunk := gcProcessChunk_next (e := e) (b * g.chunksPerBlock + d.gc.chunk) h hgo.1
      have hskip := (Fed.refl d).next h h.ties hgo.1
      split_ifs
      · exact hchunk.trans (ih _ _ hchunk.cleanUps)
      · exact hchunk
      · exact hskip.trans (ih _ _ hskip.cleanUps)
    · rw [if_neg hgo]
      exact Minds.refl h

/-! ## The end of a collection -/

theorem freeTop_fed (o : ℕ) (d : Dev) : Fed d (freeTop o d) :=
  (Fed.mapBlocks d (f := freeTnode) rfl).trans (Fed.modFile _ rfl)

/-- yaffs1 leaves no record of a deletion : the object only leaves its directory and the hash table. -/
theorem genericObjDelWith_freed (hy : g.isYaffs2 = false) (gc : Dev → Dev) (hin : (d.obj o).myInode = none) :
    ∃ x, Fed d x ∧ genericObjDelWith g e gc o d = { unhashObj o x with nObj := x.nObj - 1 } := by
  have hrem : (removeObjFromDir o (invalidateFileCache o d)).obj o = _ := removeObjFromDir_obj o _ o
  refine ⟨((removeObjFromDir o (invalidateFileCache o d)).mapBlocks (chunkDel g e
    ((removeObjFromDir o (invalidateFileCache o d)).obj o).hdrChunk true)).modObj o
      fun ob => { ob with hdrChunk := 0 }, ?_, ?_⟩
  · have hinval : Fed d (invalidateFileCache o d) := (Fed.refl d).congr rfl rfl rfl rfl rfl
    exact ((hinval.trans (removeObjFromDir_fed o _)).trans (onDel_fed _ _ _)).trans (Fed.modObj rfl rfl rfl le_rfl rfl)
  · unfold genericObjDelWith freeObj
    simp only [hy, Bool.false_eq_true, false_and, if_false]
    rw [if_neg]
    simp only [Dev.modObj, Dev.mapBlocks, Function.update_self, hrem]
    rw [show ((invalidateFileCache o d).obj o).myInode = none from hin]
    simp

/-- One deleted file fewer. -/
theorem countP_deleted_erase {ids : List ℕ} {f : ℕ → Bool} (ho : o ∈ ids) (hf : f o = true) :
    ((ids.erase o).countP f : ℤ) = ids.countP f - 1 := by
  rw [List.countP_erase, if_pos ⟨ho, hf⟩]
  have : 0 < ids.countP f := List.countP_pos_iff.mpr ⟨o, ho, hf⟩
  omega

/-- The deletion of a file of the list has been finished. -/
structure CleanedUp (l : List ℕ) (d d' : Dev) : Prop where
  gone : ∀ o ∈ l, o ∉ d'.ids
  ids : d'.ids.Sublist d.ids
  chunk : d'.gc.chunk = d.gc.chunk
  soft : ∀ o, (d'.obj o).softDel = (d.obj o).softDel
  deleted : ∀ o, (d'.obj o).deleted = (d.obj o).deleted
  type : ∀ o, (d'.obj o).variantType = (d.obj o).variantType
  data : ∀ o, (d.obj o).nDataChunks ≤ (d'.obj o).nDataChunks
  size : ∀ o, (d'.obj o).file.fileSize = (d.obj o).file.fileSize
  count : d.nDeletedFiles = (d.ids.countP fun o => (d.obj o).deleted) →
    d'.nDeletedFiles = d'.ids.countP fun o => (d'.obj o).deleted

variable {E : List ℕ}

theorem gcCleanUp_cleanedUp (hy : g.isYaffs2 = false) (h : Tied E d) (hs : (d.obj o).softDel = true) (hE : o ∈ E) :
    CleanedUp [o] d (gcCleanUp g e d o) := by
  have hmem : ∀ ids : List ℕ, ids.Nodup → ∀ q ∈ [o], q ∉ ids.erase o := by
    intro ids hnodup q hq
    obtain rfl : q = o := by simpa using hq
    exact hnodup.not_mem_erase
  unfold gcCleanUp findByNumber
  by_cases ho : o ∈ d.ids ∧ (d.obj o).deferredFree = false
  · rw [if_pos ho]
    have htop := freeTop_fed o d
    have hties := ((freeTop_sameTies o d).evolves h).ties
    have hin := (hties.soft_removable ((htop.soft o).trans hs) hE).notHooked
    obtain ⟨x, hx, heq⟩ := genericObjDelWith_freed (g := g) (e := e) hy (fun d => d) hin
    have hall := htop.trans hx
    simp only
    rw [heq]
    refine ⟨?_, ?_, hall.chunk, hall.soft, hall.deleted, hall.type, hall.data, hall.size, fun hcount => ?_⟩
    · change ∀ q ∈ [o], q ∉ x.ids.erase o
      rw [hall.ids]
      exact hmem _ h.nodup
    · change (x.ids.erase o).Sublist d.ids
      rw [hall.ids]
      exact List.erase_sublist
    · change x.nDeletedFiles - 1 = (x.ids.erase o).countP fun q => (x.obj q).deleted
      rw [countP_deleted_erase (hall.ids ▸ ho.1) ((hall.deleted o).trans (h.soft o hs).2), hall.deletedFiles, hall.ids,
        hcount]
      simp only [hall.deleted]
  · rw [if_neg ho]
    have hout : o ∉ d.ids := fun hid => ho ⟨hid, h.kept o⟩
    refine ⟨fun q hq => ?_, List.Sublist.refl _, rfl, fun _ => rfl, fun _ => rfl, fun _ => rfl, fun _ => le_rfl,
      fun _ => rfl, id⟩
    obtain rfl : q = o := by simpa using hq
    exact hout

theorem foldl_gcCleanUp_cleanedUp (hy : g.isYaffs2 = false) (l : List ℕ) : ∀ d, Tied E d →
    (∀ o ∈ l, (d.obj o).softDel = true ∧ o ∈ E) → CleanedUp l d (l.foldl (gcCleanUp g e) d) := by
  induction l with
  | nil =>
    exact fun d _ _ => ⟨by simp, List.Sublist.refl _, rfl, fun _ => rfl, fun _ => rfl, fun _ => rfl, fun _ => le_rfl,
      fun _ => rfl, id⟩
  | cons o l ih =>
    intro d h hl
    have hone := gcCleanUp_cleanedUp (e := e) hy h (hl o (by simp)).1 (hl o (by simp)).2
    have hev := gcCleanUp_evolves (g := g) (e := e) h (hl o (by simp)).1 (hl o (by simp)).2
    have hrest := ih _ hev.ties fun q hq =>
      ⟨(hone.soft q).trans (hl q (by simp [hq])).1, (hl q (by simp [hq])).2⟩
    rw [List.foldl_cons]
    refine ⟨fun q hq => ?_, hrest.ids.trans hone.ids, hrest.chunk.trans hone.chunk,
      fun q => (hrest.soft q).trans (hone.soft q), fun q => (hrest.deleted q).trans (hone.deleted q),
      fun q => (hrest.type q).trans (hone.type q), fun q => (hone.data q).trans (hrest.data q),
      fun q => (hrest.size q).trans (hone.size q), fun hc => hrest.count (hone.count hc)⟩
    rcases List.mem_cons.mp hq with rfl | hq
    · exact fun hmem => hone.gone q (by simp) (hrest.ids.subset hmem)
    · exact hrest.gone q hq

theorem gcBlockEnd_minds (hy : g.isYaffs2 = false) (b : ℕ) (h : CleanUps g d) : Minds g d (gcBlockEnd g e b d) := by
  have hev := gcBlockEnd_evolves (g := g) (e := e) b h.ties
  unfold gcBlockEnd at hev ⊢
  simp only at hev ⊢
  split_ifs at hev ⊢
  · exact ((Fed.mapBlocks d rfl).trans (Fed.mapBlocks _ rfl)).minds h hev.ties
  · have hlist : ∀ o ∈ d.gcCleanupList, (d.obj o).softDel = true ∧ o ∈ d.gcCleanupList :=
      fun o ho => ⟨h.ties.list_soft o ho, ho⟩
    have hclean := foldl_gcCleanUp_cleanedUp (e := e) hy d.gcCleanupList d h.ties.exempt hlist
    refine ⟨⟨hev.ties, fun o ho hs hn => ?_, Nat.zero_le _, Nat.zero_le _, fun o ho hdel => ?_,
      hclean.count h.count⟩, hclean.soft, fun o _ => hclean.data o, hclean.size⟩
    -- a file without data was on the list, and has been deleted
    · have hd : o ∈ d.gcCleanupList :=
        h.listed o (hclean.ids.subset ho) ((hclean.soft o).symm.trans hs) ((hclean.data o).trans hn)
      exact absurd ho (hclean.gone o hd)
    · exact (hclean.type o).trans (h.files o (hclean.ids.subset ho) ((hclean.deleted o).symm.trans hdel))

theorem gcBlock_minds (hy : g.isYaffs2 = false) (b : ℕ) (wholeBlock : Bool) (h : CleanUps g d) :
    Minds g d (gcBlock g e b wholeBlock d).1 := by
  have hstart : Minds g d (d.mapBlocks (gcBlockStart g b)) := by
    refine (Minds.refl h).same (Fed.mapBlocks d (summaryGc_chunk.trans ?_)) (SameTies.mapBlocks d _)
    split_ifs <;> rfl
  have hdirty : Minds g d ((d.mapBlocks (gcBlockStart g b)).mapBlocks (blockBecameDirty g e b)) :=
    hstart.same (Fed.mapBlocks _ blockBecameDirty_chunk) (SameTies.mapBlocks _ _)
  have hloop : ∀ maxCopies, Minds g d (gcBlockLoop g e b g.chunksPerBlock maxCopies (d.mapBlocks (gcBlockStart g b))).1 :=
    fun _ => hstart.trans (gcBlockLoop_minds _ _ _ _ hstart.cleanUps)
  unfold gcBlock
  simp only
  split_ifs
  · exact hdirty.trans (gcBlockEnd_minds hy b hdirty.cleanUps)
  · exact (hloop _).trans (gcBlockEnd_minds hy b (hloop _).cleanUps)
  · exact (hloop _).trans (gcBlockEnd_minds hy b (hloop _).cleanUps)

/-! ## Taking up a block -/

/-- `yaffs_check_gc` goes on to choose a block : none is being collected. -/
def startsGc (g : Geometry) (e : Env) (background : Bool) (d : Dev) : Bool :=
  let r := gcControl e d.toBlockDev
  r.2 && !r.1.gc.disable && (gcMode g background r.1).2.isSome && decide (d.gc.block < 1)

/-- gc takes up a block only when no file is left to be deleted. -/
def GcKeeps (g : Geometry) (e : Env) (background : Bool) (d : Dev) : Prop :=
  startsGc g e background d = true → d.gcCleanupList = []

/-- With no file on it, the list can be forgotten. -/
theorem CleanUps.restart (h : CleanUps g d) (hl : d.gcCleanupList = []) {f : BlockDev → BlockDev}
    (hf : (f d.toBlockDev).gc.chunk = 0) : Minds g d { d.mapBlocks f with gcCleanupList := [] } := by
  have hties : Tied [] { d.mapBlocks f with gcCleanupList := [] } := { h.ties with clean := by simp }
  refine ⟨⟨hties, fun o ho hs hn => hl ▸ h.listed o ho hs hn, Nat.zero_le _, ?_, h.files, h.count⟩, fun _ => rfl,
    fun _ _ => le_rfl, fun _ => rfl⟩
  change (f d.toBlockDev).gc.chunk ≤ g.chunksPerBlock
  rw [hf]
  exact Nat.zero_le _

theorem chooseGcBlock_minds (aggressive background : Bool) (h : CleanUps g d)
    (hl : d.gc.block < 1 → d.gcCleanupList = []) : Minds g d (chooseGcBlock g aggressive background d) := by
  have hskip : Minds g d (d.mapBlocks fun b => { b with gc := { b.gc with skip := 5 } }) :=
    (Minds.refl h).same (Fed.mapBlocks d rfl) (SameTies.mapBlocks d _)
  have hrestart : ∀ (y : Dev) (f : BlockDev → BlockDev × ℕ), Minds g d y → y.gcCleanupList = [] →
      Minds g d { y.mapBlocks (fun b => startGc (f b)) with gcCleanupList := [] } :=
    fun y f hy hnil => hy.trans (hy.cleanUps.restart hnil rfl)
  unfold chooseGcBlock
  simp only
  split_ifs with hfirst hagain hblock
  · have hnil : d.gcCleanupList = [] := hl (by simpa [Dev.mapBlocks] using (Bool.and_eq_true_iff.mp hfirst).1)
    exact hrestart _ _ (hrestart _ _ hskip hnil) rfl
  · have hnil : d.gcCleanupList = [] := hl (by simpa [Dev.mapBlocks] using (Bool.and_eq_true_iff.mp hfirst).1)
    exact hrestart _ _ hskip hnil
  · exact hrestart _ _ hskip (hl hblock)
  · exact hskip

theorem gcMode_gc (background : Bool) (b : BlockDev) :
    (gcMode g background b).1.gc.block = b.gc.block ∧ (gcMode g background b).1.gc.chunk = b.gc.chunk := by
  unfold gcMode
  simp only
  split_ifs <;> exact ⟨rfl, rfl⟩

theorem checkGcLoop_minds (hy : g.isYaffs2 = false) (background : Bool) (n : ℕ) : ∀ d, CleanUps g d →
    ((gcMode g background d.toBlockDev).2.isSome → d.gc.block < 1 → d.gcCleanupList = []) →
    Minds g d (checkGcLoop g e background n d) := by
  induction n with
  | zero => exact fun d h _ => Minds.refl h
  | succ n ih =>
    intro d h hl
    obtain ⟨hblock, hchunk⟩ := gcMode_gc (g := g) background d.toBlockDev
    have hmode : Minds g d (d.onBlocks (gcMode g background)).1 :=
      (Minds.refl h).same (Fed.blocks hchunk) (onBlocks_sameTies d _)
    have hround : (gcMode g background d.toBlockDev).2.isSome → ∀ aggressive,
        Minds g d (gcRound g e aggressive background (d.onBlocks (gcMode g background)).1) := by
      intro hsome aggressive
      have hchoose := hmode.trans (chooseGcBlock_minds aggressive background hmode.cleanUps fun hb =>
        hl hsome (hblock ▸ hb))
      unfold gcRound
      simp only
      split_ifs
      · exact hchoose.trans (gcBlock_minds hy _ _ hchoose.cleanUps)
      · exact hchoose
    unfold checkGcLoop
    simp only
    split
    · exact hmode
    · next aggressive hsome =>
      have hone := hround (by rw [show (gcMode g background d.toBlockDev).2 = some aggressive from hsome]; rfl) aggressive
      split_ifs with hagain
      · exact hone.trans (ih _ hone.cleanUps fun _ hb => absurd hb (by omega))
      · exact hone

/-- gc keeps the list if it starts only when the list is empty. -/
theorem checkGc_minds (hy : g.isYaffs2 = false) (background : Bool) (h : CleanUps g d)
    (hk : GcKeeps g e background d) : Minds g d (checkGc g e background d) := by
  have hcontrol : Minds g d (d.onBlocks (gcControl e)).1 :=
    (Minds.refl h).same (Fed.blocks rfl) (onBlocks_sameTies d _)
  unfold checkGc
  simp only
  split_ifs with hgo
  · refine hcontrol.trans (checkGcLoop_minds hy background 2 _ hcontrol.cleanUps fun hsome hb => hk ?_)
    unfold startsGc
    simp only [Bool.and_eq_true, decide_eq_true_eq]
    simp only [Bool.and_eq_true] at hgo
    exact ⟨⟨hgo, hsome⟩, hb⟩
  · exact hcontrol

end Yaffs
