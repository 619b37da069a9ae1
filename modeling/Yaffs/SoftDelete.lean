import Yaffs.CleanUp
import Yaffs.CacheRun

/-!
# Softly deleted files are not forgotten

Deletions and collections on a yaffs1 device. A file with data is deleted softly, and gc deletes it for
good when it has dropped its last chunk. It does so in every run in which gc takes up a block only when no
file is left on its clean-up list; a block emptied by somebody else while gc was collecting it breaks this.
-/

namespace Yaffs

variable {g : Geometry} {e : Env} {d d' d'' x : Dev} {o : ℕ}

/-! ## Headers -/

theorem GcKeeps.congr {background : Bool} (h : GcKeeps g e background d) (hb : d'.toBlockDev = d.toBlockDev)
    (hl : d'.gcCleanupList = d.gcCleanupList) : GcKeeps g e background d' := by
  unfold GcKeeps startsGc at h ⊢
  rw [hb, hl]
  exact h

/-- The gc of `yaffs_update_oh` keeps the list. -/
def UpdateOhKeeps (g : Geometry) (e : Env) (o : ℕ) (d : Dev) : Prop :=
  ((d.obj o).fake = true ∧ o ≠ objectIdRoot) ∨ GcKeeps g e false d

instance {background : Bool} : Decidable (GcKeeps g e background d) :=
  inferInstanceAs (Decidable (_ → _))

instance : Decidable (UpdateOhKeeps g e o d) :=
  inferInstanceAs (Decidable (_ ∨ _))

theorem updateOh_minds (hy : g.isYaffs2 = false) (h : CleanUps g d) (hk : UpdateOhKeeps g e o d)
    (name : Option Name) (isShrink : Bool) (shadows : ℕ) :
    Minds g d (updateOh g e o name false isShrink shadows d).1 := by
  have hev := updateOhWith_evolves (g := g) (e := e) (checkGc_evolves (g := g) (e := e) false) h.ties o name false
    isShrink shadows
  unfold updateOh
  rcases updateOhWith_fed (g := g) (e := e) (checkGc g e false) o name false isShrink shadows d with heq | ⟨hfake, hfed⟩
  · rw [heq]
    exact Minds.refl h
  · have hgc := checkGc_minds hy false h (hk.resolve_left fun hf => hfake ⟨hf.1, hf.2, rfl⟩)
    exact hgc.fed hfed hev.ties

/-- The gc of `yaffs_update_parent` keeps the list. -/
def UpdateParentKeeps (g : Geometry) (e : Env) (dir : Option ℕ) (d : Dev) : Prop :=
  ∀ o ∈ dir, g.deferedDirUpdate = false → UpdateOhKeeps g e o d

instance {dir : Option ℕ} : Decidable (UpdateParentKeeps g e dir d) :=
  inferInstanceAs (Decidable (∀ o ∈ dir, _ → _))

theorem updateParent_minds (hy : g.isYaffs2 = false) (h : CleanUps g d) {dir : Option ℕ}
    (hk : UpdateParentKeeps g e dir d) : Minds g d (updateParent g e dir d) := by
  unfold updateParent updateParentWith
  cases dir with
  | none => exact Minds.refl h
  | some o =>
    have hmod : Minds g d (d.modObj o fun ob => { ob with dirty := true }) :=
      (Minds.refl h).same (Fed.modObj rfl rfl rfl le_rfl rfl) (SameTies.modObj rfl)
    simp only
    split_ifs with hdefer
    · exact hmod
    · exact hmod.same ((Fed.refl _).congr rfl rfl rfl rfl rfl) ⟨fun _ => rfl, rfl, rfl⟩
    · refine hmod.trans (updateOh_minds hy hmod.cleanUps ?_ none false 0)
      refine (hk o rfl (by simpa using hdefer)).imp (fun hf => ?_) fun hgc => hgc.congr rfl rfl
      simpa [Dev.modObj] using hf

/-- `yaffs_change_obj_name` refuses the new name. -/
def refusesName (d : Dev) (o : ℕ) (newDir : Option ℕ) (newName : Name) : Bool :=
  match newDir.or (d.obj o).parent with
  | none => true
  | some dir =>
    !(decide (dir = objectIdUnlinked) || decide (dir = objectIdDeleted) || (findByName d dir newName).isNone) ||
      (d.obj dir).variantType != .directory

/-- The gc of `yaffs_change_obj_name` keeps the list. -/
def ChangeNameKeeps (g : Geometry) (e : Env) (o : ℕ) (newDir : Option ℕ) (newName : Name) (d : Dev) : Prop :=
  refusesName d o newDir newName = false → UpdateOhKeeps g e o d

instance {newDir : Option ℕ} {newName : Name} : Decidable (ChangeNameKeeps g e o newDir newName d) :=
  inferInstanceAs (Decidable (_ → _))

theorem changeObjName_refused {newDir : Option ℕ} {newName : Name} (h : refusesName d o newDir newName = true) :
    changeObjName g e o newDir newName false 0 d = (d, false) := by
  unfold refusesName at h
  unfold changeObjName changeObjNameWith
  cases hdir : newDir.or (d.obj o).parent with
  | none => rfl
  | some dir =>
    rw [hdir] at h
    simp only at h ⊢
    rw [if_pos]
    simpa using h

theorem changeObjName_minds (hy : g.isYaffs2 = false) (h : CleanUps g d) {newDir : Option ℕ}
    (hdir : ∀ dir, newDir.or (d.obj o).parent = some dir → Takes d dir o) {newName : Name}
    (hk : ChangeNameKeeps g e o newDir newName d) : Minds g d (changeObjName g e o newDir newName false 0 d).1 := by
  cases hr : refusesName d o newDir newName with
  | true =>
    rw [changeObjName_refused hr]
    exact Minds.refl h
  | false =>
    unfold changeObjName
    rcases changeObjNameWith_placed (g := g) (e := e) (checkGc g e false) o newDir newName false 0 d with
      ⟨heq, -⟩ | ⟨dir, hnew, htype, heq⟩
    · rw [heq]
      exact Minds.refl h
    · rw [heq]
      have hname : SameTies d (d.modObj o fun ob => { setObjName o newName ob with dirty := true }) :=
        SameTies.modObj (setObjName_ties o newName _)
      have hnamed := (Minds.refl h).same (setObjName_fed o newName d) hname
      have htake := (hdir dir hnew).same hname
      have hfake : ((d.modObj o fun ob => { setObjName o newName ob with dirty := true }).obj o).fake =
          (d.obj o).fake := hname.get Obj.fake o
      have hblocks : (d.modObj o fun ob => { setObjName o newName ob with dirty := true }).toBlockDev = d.toBlockDev := rfl
      have hlist := hname.list
      have htype' : ((d.modObj o fun ob => { setObjName o newName ob with dirty := true }).obj dir).variantType =
          .directory := (hname.get Obj.variantType dir).trans htype
      generalize d.modObj o (fun ob => { setObjName o newName ob with dirty := true }) = y at *
      have hmove := addObjToDir_evolves (o := o) hnamed.cleanUps.ties htake.mem htype' htake.linked htake.leaf
      have hfed := addObjToDir_fed dir o y
      have hplaced := hnamed.fed hfed hmove.ties
      refine hplaced.trans (updateOh_minds hy hplaced.cleanUps ?_ _ _ _)
      refine (hk hr).imp (fun hf => ⟨?_, hf.2⟩) fun hgc => ?_
      · exact ((congrArg Obj.fake (addObjToDir_obj dir o y o) : _).trans hfake).trans hf.1
      · exact hgc.congr ((addObjToDir_moved dir o y).toBlockDev.trans hblocks) (hfed.list.trans hlist)

/-! ## Flushing -/

/-- The gc of `yaffs_flush_single_cache` keeps the list. -/
def FlushSingleKeeps (g : Geometry) (e : Env) (i : ℕ) (d : Dev) : Prop :=
  ((d.cache[i]?).any fun c => c.object.isSome && c.dirty) = true → GcKeeps g e false d

instance {i : ℕ} : Decidable (FlushSingleKeeps g e i d) :=
  inferInstanceAs (Decidable (_ → _))

theorem flushSingleCache_minds (hy : g.isYaffs2 = false) (h : CleanUps g d) {i : ℕ} (hk : FlushSingleKeeps g e i d)
    (discard : Bool) : Minds g d (flushSingleCache g e i discard d) := by
  have hcache : ∀ (y : Dev) (f : Cache → Cache), Minds g d y → Minds g d (y.modCache i f) :=
    fun y f hy => hy.same ((Fed.refl _).congr rfl rfl rfl rfl rfl) (modCache_sameTies _ _ _)
  have hdiscard : ∀ y : Dev, Minds g d y →
      Minds g d (if discard then y.modCache i fun c => { c with object := none } else y) := by
    intro y hy
    split_ifs
    · exact hcache _ _ hy
    · exact hy
  unfold flushSingleCache
  simp only
  refine hdiscard _ ?_
  split
  · next o k _ nBytes data hc =>
    have hgc := checkGc_minds hy false h (hk (by rw [hc]; rfl))
    exact hcache _ _ (hgc.same (wrDataChunk_fed _ _ _ _ _ _) (wrDataChunk_sameTies _ _ _ _ _ _))
  · exact Minds.refl h

/-- The gc of `yaffs_flush_file_cache` keeps the list, on the entries `is`. -/
def FlushFileKeeps (g : Geometry) (e : Env) (o : ℕ) (discard : Bool) : List ℕ → Dev → Prop
  | [], _ => True
  | i :: is, d => (((d.cache[i]?).any fun c => c.object = some o) = true → FlushSingleKeeps g e i d) ∧
    FlushFileKeeps g e o discard is (flushFileCacheStep g e o discard d i)

instance decideFlushFile {discard : Bool} : ∀ (is : List ℕ) (d : Dev), Decidable (FlushFileKeeps g e o discard is d)
  | [], _ => inferInstanceAs (Decidable True)
  | i :: is, d =>
    @instDecidableAnd _ _ (inferInstanceAs (Decidable (_ → FlushSingleKeeps g e i d)))
      (decideFlushFile is (flushFileCacheStep g e o discard d i))

theorem flushFileCache_minds (hy : g.isYaffs2 = false) (h : CleanUps g d) {discard : Bool}
    (hk : FlushFileKeeps g e o discard (List.range g.nCaches) d) : Minds g d (flushFileCache g e o discard d) := by
  have hfold : ∀ (is : List ℕ) (d : Dev), CleanUps g d → FlushFileKeeps g e o discard is d →
      Minds g d (is.foldl (flushFileCacheStep g e o discard) d) := by
    intro is
    induction is with
    | nil => exact fun d h _ => Minds.refl h
    | cons i is ih =>
      intro d h hk
      have hstep : Minds g d (flushFileCacheStep g e o discard d i) := by
        unfold flushFileCacheStep
        split_ifs with hany
        · exact flushSingleCache_minds hy h (hk.1 hany) discard
        · exact Minds.refl h
      exact hstep.trans (ih _ hstep.cleanUps hk.2)
  exact hfold _ d h hk

/-! ## Emptying -/

/-- The gc of the header at the end of `yaffs_resize_file` keeps the list. -/
def ResizeHdrKeeps (g : Geometry) (e : Env) (o : ℕ) (d : Dev) : Prop :=
  ((d.obj o).parent.isSome && !(d.obj o).isShadowed && !inUnlinkedDir (d.obj o)) = true → UpdateOhKeeps g e o d

instance : Decidable (ResizeHdrKeeps g e o d) :=
  inferInstanceAs (Decidable (_ → _))

theorem resizeHdr_minds (hy : g.isYaffs2 = false) (h : CleanUps g d) (hk : ResizeHdrKeeps g e o d) :
    Minds g d (resizeHdr g e o d) := by
  unfold resizeHdr
  split_ifs with hhdr
  · exact updateOh_minds hy h (hk hhdr) none false 0
  · exact Minds.refl h

/-- The gcs of the resizing of a file to nothing keep the list, on a device that deletes files so. -/
def EmptyFileKeeps (g : Geometry) (e : Env) (o : ℕ) (d : Dev) : Prop :=
  g.deletesByResize = true →
    FlushFileKeeps g e o true (List.range g.nCaches) d ∧ GcKeeps g e false (flushFileCache g e o true d) ∧
      ((d.obj o).variantType = .file → (d.obj o).file.fileSize ≠ 0 →
        ResizeHdrKeeps g e o (resizeFileDown g e o 0 (resizeStart g e o d)))

instance : Decidable (EmptyFileKeeps g e o d) :=
  inferInstanceAs (Decidable (_ → _ ∧ _ ∧ (_ → _ → _)))

/-- Some chunks of a file that has not been deleted are gone. -/
structure Shrinks (o : ℕ) (d d' : Dev) : Prop where
  same : SameTies d d'
  deletedFiles : d'.nDeletedFiles = d.nDeletedFiles
  chunk : d'.gc.chunk = d.gc.chunk
  data : ∀ q, q ≠ o → (d'.obj q).nDataChunks = (d.obj q).nDataChunks

namespace Shrinks

theorem refl (o : ℕ) (d : Dev) : Shrinks o d d :=
  ⟨SameTies.refl d, rfl, rfl, fun _ _ => rfl⟩

theorem trans (h : Shrinks o d d') (h' : Shrinks o d' d'') : Shrinks o d d'' :=
  ⟨h.same.trans h'.same, h'.deletedFiles.trans h.deletedFiles, h'.chunk.trans h.chunk,
    fun q hq => (h'.data q hq).trans (h.data q hq)⟩

theorem modObj {f : Obj → Obj} (hf : (f (d.obj o)).ties = (d.obj o).ties) : Shrinks o d (d.modObj o f) :=
  ⟨SameTies.modObj hf, rfl, rfl, fun q hq => by simp [Dev.modObj, hq]⟩

theorem modFile (o : ℕ) (d : Dev) (f : FileVar → FileVar) : Shrinks o d (d.modFile o f) :=
  modObj rfl

theorem mapBlocks (o : ℕ) (d : Dev) {f : BlockDev → BlockDev} (hf : (f d.toBlockDev).gc.chunk = d.gc.chunk) :
    Shrinks o d (d.mapBlocks f) :=
  ⟨SameTies.mapBlocks d f, rfl, hf, fun _ _ => rfl⟩

theorem cleanUps (h : Shrinks o d d') (hd : CleanUps g d) (hs : (d.obj o).softDel = false) : CleanUps g d' where
  ties := (h.same.evolves hd.ties).ties
  listed q hq hsq hn := by
    have hsoft : (d'.obj q).softDel = (d.obj q).softDel := h.same.get Obj.softDel q
    have hqo : q ≠ o := by
      rintro rfl
      rw [hsoft, hs] at hsq
      exact Bool.noConfusion hsq
    rw [h.same.list]
    exact hd.listed q (h.same.ids ▸ hq) (hsoft.symm.trans hsq) ((h.data q hqo).symm.trans_le hn)
  length := by
    rw [h.same.list, h.chunk]
    exact hd.length
  cursor := h.chunk ▸ hd.cursor
  files q hq hdel := by
    have hdeleted : (d'.obj q).deleted = (d.obj q).deleted := h.same.get Obj.deleted q
    have htype : (d'.obj q).variantType = (d.obj q).variantType := h.same.get Obj.variantType q
    exact htype.trans (hd.files q (h.same.ids ▸ hq) (hdeleted.symm.trans hdel))
  count := by
    have hdeleted : ∀ q, (d'.obj q).deleted = (d.obj q).deleted := h.same.get Obj.deleted
    rw [h.deletedFiles, h.same.ids, hd.count]
    simp only [hdeleted]

end Shrinks

theorem prune_chunk (f : FileVar) (b : BlockDev) : (f.prune b).1.gc.chunk = b.gc.chunk := by
  unfold FileVar.prune
  split_ifs
  · rfl
  · split
    · rfl
    · next t _ =>
      have hworker := (Tnode.pruneWorker_spec f.topLevel t false b).counts.chunk
      split
      · next y t' heq =>
        rw [heq] at hworker
        exact (FileVar.lower_spec f.topLevel t' y).1.chunk.trans hworker
      · next y heq =>
        rw [heq] at hworker
        exact hworker

theorem prune_fileSize (f : FileVar) (b : BlockDev) : (f.prune b).2.fileSize = f.fileSize := by
  unfold FileVar.prune
  split_ifs
  · rfl
  · split
    · rfl
    · split <;> rfl

theorem pruneChunk_shrinks (o i : ℕ) (d : Dev) : Shrinks o d (pruneChunk g e o d i) := by
  have hfind : Shrinks o d (findDelFileChunk g o i d).1 := by
    unfold findDelFileChunk
    split
    · exact Shrinks.modFile o d fun f => f.load i 0
    · exact Shrinks.refl o d
  unfold pruneChunk
  simp only
  split
  · exact hfind
  · split_ifs
    · exact hfind
    · exact hfind
    · exact (hfind.trans (Shrinks.modObj rfl)).trans (Shrinks.mapBlocks o _ (chunkDel_chunk true))

theorem addrToChunk_zero : addrToChunk g.toParam 0 = (0, 0) := by
  unfold addrToChunk
  split_ifs <;> simp [u32]

/-- Shrinking a file to nothing leaves no last chunk to be rewritten. -/
theorem resizeFileDown_zero (o : ℕ) (d : Dev) :
    Shrinks o d (resizeFileDown g e o 0 d) ∧ ((resizeFileDown g e o 0 d).obj o).file.fileSize = 0 := by
  have hfold : ∀ (l : List ℕ) (y : Dev), Shrinks o y (l.foldl (pruneChunk g e o) y) := by
    intro l
    induction l with
    | nil => exact fun y => Shrinks.refl o y
    | cons i l ih => exact fun y => (pruneChunk_shrinks o i y).trans (ih _)
  have hprune : Shrinks o d (pruneChunks g e o 0 d) := hfold _ d
  unfold resizeFileDown
  rw [addrToChunk_zero]
  simp only [ne_eq, not_true_eq_false, if_false]
  have hsize : Shrinks o d ((pruneChunks g e o 0 d).modFile o fun f => { f with fileSize := 0, storedSize := 0 }) :=
    hprune.trans (Shrinks.modFile o _ _)
  have hzero : (((pruneChunks g e o 0 d).modFile o fun f => { f with fileSize := 0, storedSize := 0 }).obj o).file.fileSize
      = 0 := by simp [Dev.modFile, Dev.modObj]
  generalize (pruneChunks g e o 0 d).modFile o (fun f => { f with fileSize := 0, storedSize := 0 }) = y at *
  unfold pruneTree
  refine ⟨(hsize.trans (Shrinks.mapBlocks o y (f := fun _ => ((y.obj o).file.prune y.toBlockDev).1)
    (prune_chunk _ _))).trans (Shrinks.modFile o _ _), ?_⟩
  simp only [Dev.modFile, Dev.modObj, Function.update_self]
  exact (prune_fileSize _ _).trans hzero

theorem resizeStart_minds (hy : g.isYaffs2 = false) (h : CleanUps g d)
    (hflush : FlushFileKeeps g e o true (List.range g.nCaches) d)
    (hgc : GcKeeps g e false (flushFileCache g e o true d)) : Minds g d (resizeStart g e o d) := by
  have hfile := flushFileCache_minds hy h hflush
  have hinval : Minds g d (invalidateFileCache o (flushFileCache g e o true d)) :=
    hfile.same ((Fed.refl _).congr rfl rfl rfl rfl rfl) ⟨fun _ => rfl, rfl, rfl⟩
  exact hinval.trans (checkGc_minds hy false hinval.cleanUps (hgc.congr rfl rfl))

theorem resizeFile_zero_eq (o : ℕ) (d : Dev) : (resizeFile g e o 0 d).1 =
    if ((resizeStart g e o d).obj o).variantType ≠ .file ∨ (d.obj o).file.fileSize = 0 then resizeStart g e o d
    else resizeHdr g e o (resizeFileDown g e o 0 (resizeStart g e o d)) := by
  unfold resizeFile resizeStart
  simp only [Nat.not_lt_zero, if_false]
  split_ifs with htype hzero hor hor hor <;> simp_all

theorem resizeStart_type (h : Tied [] d) (o q : ℕ) :
    ((resizeStart g e o d).obj q).variantType = (d.obj q).variantType := by
  have hflush := flushFileCache_evolving (g := g) (e := e) o true d h
  have hinval : Evolves [] [] d (invalidateFileCache o (flushFileCache g e o true d)) :=
    hflush.same ⟨fun _ => rfl, rfl, rfl⟩
  exact (hinval.next (checkGc_evolves (g := g) (e := e) false)).type q

/-- A file that has not been deleted is emptied. -/
theorem emptyFile_cleanUps (hy : g.isYaffs2 = false) (h : CleanUps g d) (hs : (d.obj o).softDel = false)
    (hk : EmptyFileKeeps g e o d) : CleanUps g (emptyFile g e o d) ∧ (g.deletesByResize = true →
      (d.obj o).variantType = .file → ((emptyFile g e o d).obj o).file.fileSize = 0) := by
  unfold emptyFile
  split_ifs with hdel
  · obtain ⟨hflush, hgc, hhdr⟩ := hk hdel
    have hstart := resizeStart_minds hy h hflush hgc
    rw [resizeFile_zero_eq, resizeStart_type h.ties]
    split_ifs with hno
    · refine ⟨hstart.cleanUps, fun _ htype => (hstart.size o).trans (hno.resolve_left fun hne => hne htype)⟩
    · simp only [not_or, ne_eq, not_not] at hno
      obtain ⟨hshrink, hzero⟩ := resizeFileDown_zero (g := g) (e := e) o (resizeStart g e o d)
      have hmind := resizeHdr_minds hy (hshrink.cleanUps hstart.cleanUps ((hstart.soft o).trans hs)) (hhdr hno.1 hno.2)
      exact ⟨hmind.cleanUps, fun _ _ => (hmind.size o).trans hzero⟩
  · exact ⟨h, fun hd => absurd hd hdel⟩

/-- A file that is empty already keeps its chunks. -/
theorem emptyFile_minds (hy : g.isYaffs2 = false) (h : CleanUps g d)
    (hzero : g.deletesByResize = true → (d.obj o).file.fileSize = 0) (hk : EmptyFileKeeps g e o d) :
    Minds g d (emptyFile g e o d) := by
  unfold emptyFile
  split_ifs with hdel
  · rw [resizeFile_zero_eq, if_pos (Or.inr (hzero hdel))]
    exact resizeStart_minds hy h (hk hdel).1 (hk hdel).2.1
  · exact Minds.refl h

/-! ## Deleting -/

theorem CleanUps.notDeleted (h : CleanUps g d) (htype : (d.obj o).variantType ≠ .file) (hid : o ∈ d.ids) :
    (d.obj o).deleted = false := by
  by_contra hd
  exact htype (h.files o hid (by simpa using hd))

/-- An object that has not been marked as deleted leaves the hash table. -/
theorem genericObjDel_cleanUps (hy : g.isYaffs2 = false) (h : CleanUps g d) (ho : Removable [] d o)
    (hd : o ∈ d.ids → (d.obj o).deleted = false) : CleanUps g (genericObjDel g e o d) := by
  have hev := (genericObjDel_evolves (g := g) (e := e) h.ties ho).1
  obtain ⟨x, hx, heq⟩ := genericObjDelWith_freed (g := g) (e := e) hy (checkGc g e false) ho.notHooked
  unfold genericObjDel at hev ⊢
  rw [heq] at hev ⊢
  have hsub : ∀ q ∈ x.ids.erase o, q ∈ d.ids := fun q hq => hx.ids ▸ List.mem_of_mem_erase hq
  refine ⟨hev.ties, fun q hq hs hn => ?_, ?_, hx.chunk ▸ h.cursor, fun q hq hdel => ?_, ?_⟩
  · change q ∈ x.gcCleanupList
    rw [hx.list]
    exact h.listed q (hsub q hq) ((hx.soft q).symm.trans hs) ((hx.data q).trans hn)
  · change x.gcCleanupList.length ≤ x.gc.chunk
    rw [hx.list, hx.chunk]
    exact h.length
  · exact (hx.type q).trans (h.files q (hsub q hq) ((hx.deleted q).symm.trans hdel))
  · change x.nDeletedFiles = (x.ids.erase o).countP fun q => (x.obj q).deleted
    have hsame : (x.ids.erase o).countP (fun q => (x.obj q).deleted) = x.ids.countP fun q => (x.obj q).deleted := by
      rw [List.countP_erase, if_neg, Nat.sub_zero]
      rintro ⟨hmem, hdel⟩
      rw [hx.deleted, hd (hx.ids ▸ hmem)] at hdel
      exact Bool.noConfusion hdel
    rw [hsame, hx.deletedFiles, hx.ids, h.count]
    simp only [hx.deleted]

theorem freeTop_cleanUps (hy : g.isYaffs2 = false) (h : CleanUps g d) (htype : (d.obj o).variantType = .file)
    (hin : (d.obj o).myInode = none) (hs : (d.obj o).softDel = false) (hd : (d.obj o).deleted = false) :
    CleanUps g (genericObjDel g e o (freeTop o d)) := by
  have htop := freeTop_fed o d
  have hev := (freeTop_sameTies o d).evolves h.ties
  have hrem := hev.ties.file_removable ((htop.type o).trans htype) ((hev.inode o).trans hin) ((htop.soft o).trans hs)
  exact genericObjDel_cleanUps hy (htop.cleanUps h hev.ties) hrem fun _ => (htop.deleted o).trans hd

/-- A file is counted when it is marked as deleted. -/
theorem setDeleted_cleanUps (h : CleanUps g d) (hid : o ∈ d.ids) (htype : (d.obj o).variantType = .file)
    (hin : (d.obj o).myInode = none) (hd : (d.obj o).deleted = false) : CleanUps g (setDeleted o d) := by
  have hev := (setDeleted_evolves h.ties hin).1
  have hobj : ∀ q, (setDeleted o d).obj q = { d.obj q with deleted := decide (q = o) || (d.obj q).deleted } := by
    intro q
    by_cases hq : q = o
    · subst hq
      simp [setDeleted, Dev.modObj]
    · simp [setDeleted, Dev.modObj, hq]
  refine ⟨hev.ties, fun q hq hs hn => ?_, h.length, h.cursor, fun q hq hdel => ?_, ?_⟩
  · rw [hobj] at hs hn
    exact h.listed q hq hs hn
  · rw [hobj] at hdel ⊢
    simp only [Bool.or_eq_true, decide_eq_true_eq] at hdel
    rcases hdel with rfl | hdel
    · exact htype
    · exact h.files q hq hdel
  · have hsplit : ∀ l : List ℕ, l.Nodup → o ∈ l →
        (l.countP fun q => decide (q = o) || (d.obj q).deleted) = (l.countP fun q => (d.obj q).deleted) + 1 := by
      intro l
      induction l with
      | nil => simp
      | cons q l ih =>
        intro hnodup hmem
        obtain ⟨hnot, hnodup⟩ := List.nodup_cons.mp hnodup
        by_cases hq : q = o
        · subst hq
          have hsame : (l.countP fun p => decide (p = q) || (d.obj p).deleted) = l.countP fun p => (d.obj p).deleted := by
            refine List.countP_congr fun p hp => ?_
            have : p ≠ q := fun heq => hnot (heq ▸ hp)
            simp [this]
          simp [hsame, hd]
        · have := ih hnodup ((List.mem_cons.mp hmem).resolve_left (Ne.symm hq))
          simp only [List.countP_cons, this, hq, decide_false, Bool.false_or]
          omega
    change d.nDeletedFiles + 1 = (d.ids.countP fun q => ((setDeleted o d).obj q).deleted : ℕ)
    simp only [hobj]
    rw [hsplit d.ids h.ties.nodup hid, h.count]
    push_cast
    rfl

theorem softDel_chunk (f : FileVar) (b : BlockDev) : (f.softDel g (groupBase g) b).1.gc.chunk = b.gc.chunk := by
  have hfold : ∀ (cs : List ℕ) (y : BlockDev), (softDelChunks g cs y).gc.chunk = y.gc.chunk := by
    intro cs
    induction cs with
    | nil => exact fun _ => rfl
    | cons c cs ih =>
      intro y
      have hseq : (softDelChunk g c y).gc.chunk = y.gc.chunk :=
        (updateOldestDirtySeq_quiet (g := g) (b := c / g.chunksPerBlock) fun _ => False).gcChunk
      exact (ih (softDelChunk g c y)).trans hseq
  unfold FileVar.softDel
  cases f.top with
  | none => rfl
  | some t =>
    obtain ⟨n, hn⟩ := (Tnode.softDelWorker_spec (g := g) (fun v => groupBase_eq_zero (g := g) (v := v)) f.topLevel t 0 b).1
    simp only
    rw [hn]
    exact hfold _ b

/-- A file with data is deleted softly. -/
theorem softDelFile_cleanUps (h : CleanUps g d) (hn : 0 < (d.obj o).nDataChunks) (hin : (d.obj o).myInode = none)
    (hun : (d.obj o).unlinked = true) (hd : (d.obj o).deleted = true) : CleanUps g (softDelFile g e o d) := by
  have hev := (softDelFile_gone (g := g) (e := e) h.ties hin hun hd).evolves
  unfold softDelFile softDelFileWith at hev ⊢
  split_ifs at hev ⊢ with hno hdata
  · exact h
  · omega
  · have hobj : ∀ q, (({ d with toBlockDev := ((d.obj o).file.softDel g (groupBase g) d.toBlockDev).1 }.modObj o fun ob =>
        { ob with file := ((d.obj o).file.softDel g (groupBase g) d.toBlockDev).2, softDel := true }).obj q) =
        if q = o then { d.obj o with file := ((d.obj o).file.softDel g (groupBase g) d.toBlockDev).2, softDel := true }
        else d.obj q := by
      intro q
      by_cases hq : q = o
      · subst hq
        simp [Dev.modObj]
      · simp [Dev.modObj, hq]
    have hdeleted : ∀ q, ((({ d with toBlockDev := ((d.obj o).file.softDel g (groupBase g) d.toBlockDev).1 }.modObj o
        fun ob => { ob with file := ((d.obj o).file.softDel g (groupBase g) d.toBlockDev).2, softDel := true }).obj q)).deleted
        = (d.obj q).deleted := by
      intro q
      rw [hobj]
      split_ifs with hq
      · rw [hq]
      · rfl
    have hchunk := softDel_chunk (g := g) (d.obj o).file d.toBlockDev
    refine ⟨hev.ties, fun q hq hs hle => ?_, h.length.trans hchunk.ge, hchunk.le.trans h.cursor, fun q hq hdel => ?_, ?_⟩
    · rw [hobj] at hs hle
      split_ifs at hs hle with hqo
      · exact absurd hle (by simpa using hn)
      · exact h.listed q hq hs hle
    · rw [hdeleted] at hdel
      exact (hev.type q).trans (h.files q hq hdel)
    · simp only [hdeleted]
      exact h.count

/-- The gcs of `yaffs_unlink_file_if_needed` keep the list. -/
def UnlinkFileKeeps (g : Geometry) (e : Env) (o : ℕ) (d : Dev) : Prop :=
  if (d.obj o).myInode.isSome then ChangeNameKeeps g e o (some objectIdUnlinked) unlinkedName d
  else
    ChangeNameKeeps g e o (some objectIdDeleted) deletedName d ∧
      EmptyFileKeeps g e o (setDeleted o (changeObjName g e o (some objectIdDeleted) deletedName false 0 d).1)

instance : Decidable (UnlinkFileKeeps g e o d) :=
  inferInstanceAs (Decidable (ite _ _ _))

/-- The gcs of `yaffs_del_file` keep the list. -/
def DelFileKeeps (g : Geometry) (e : Env) (o : ℕ) (d : Dev) : Prop :=
  EmptyFileKeeps g e o d ∧
    (0 < ((emptyFile g e o d).obj o).nDataChunks → ((emptyFile g e o d).obj o).unlinked = false →
      UnlinkFileKeeps g e o (emptyFile g e o d))

instance : Decidable (DelFileKeeps g e o d) :=
  inferInstanceAs (Decidable (_ ∧ (_ → _ → _)))

/-- A file that is about to be deleted. -/
structure Deletable (d : Dev) (o : ℕ) : Prop where
  id : o ∈ d.ids
  type : (d.obj o).variantType = .file
  notHooked : (d.obj o).myInode = none
  notSoft : (d.obj o).softDel = false
  notDeleted : (d.obj o).deleted = false

theorem Deletable.evolves (ho : Deletable d o) (h : Evolves [] [] d d') : Deletable d' o where
  id := h.live o ho.id (by simp) ho.notSoft
  type := (h.type o).trans ho.type
  notHooked := (h.inode o).trans ho.notHooked
  notSoft := (h.soft o (by simp)).trans ho.notSoft
  notDeleted := (h.alive o (by simp)).trans ho.notDeleted

theorem setDeleted_marks (o : ℕ) (d : Dev) : ((setDeleted o d).obj o).nDataChunks = (d.obj o).nDataChunks ∧
    ((setDeleted o d).obj o).softDel = (d.obj o).softDel ∧
    ((setDeleted o d).obj o).file = (d.obj o).file ∧ ((setDeleted o d).obj o).unlinked = (d.obj o).unlinked := by
  simp [setDeleted, Dev.modObj]

theorem unlinkFileIfNeeded_cleanUps (hy : g.isYaffs2 = false) (h : CleanUps g d) (ho : Deletable d o)
    (hn : 0 < (d.obj o).nDataChunks) (hzero : g.deletesByResize = true → (d.obj o).file.fileSize = 0)
    (hk : UnlinkFileKeeps g e o d) : CleanUps g (unlinkFileIfNeeded g e o d).1 ∧
      ((unlinkFileIfNeeded g e o d).1.obj o).deleted = true := by
  have hrem := h.ties.file_removable ho.type ho.notHooked ho.notSoft
  have htake := hrem.takes h.ties (by simp [initialDirs] : objectIdDeleted ∈ initialDirs)
  obtain ⟨hev, hun⟩ := changeObjName_unlinks (g := g) (e := e) h.ties (Or.inr rfl) hrem.notInitial hrem.leaf
    deletedName false 0
  unfold UnlinkFileKeeps at hk
  unfold unlinkFileIfNeeded
  rw [ho.notHooked] at hk ⊢
  simp only [Option.isSome_none, Bool.false_eq_true, if_false] at hk ⊢
  have hname := changeObjName_minds hy h (fun dir (hd : (some objectIdDeleted).or _ = some dir) => by
    obtain rfl : objectIdDeleted = dir := by simpa using hd
    exact htake) hk.1
  obtain ⟨-, hk⟩ := hk
  generalize (changeObjName g e o (some objectIdDeleted) deletedName false 0 d).1 = y at *
  have hoy := ho.evolves hev
  have hset := setDeleted_cleanUps hname.cleanUps hoy.id hoy.type hoy.notHooked hoy.notDeleted
  obtain ⟨hmark, hd⟩ := setDeleted_evolves (o := o) hev.ties hoy.notHooked
  obtain ⟨hdata, hsoft, hfile, hunlinked⟩ := setDeleted_marks o y
  have hempty := emptyFile_minds hy hset (fun hdel => by rw [hfile, hname.size]; exact hzero hdel) hk
  have hevolve := emptyFile_evolving (g := g) (e := e) o _ hset.ties
  have hpos : 0 < ((emptyFile g e o (setDeleted o y)).obj o).nDataChunks := by
    have hsame := hname.data o ho.notSoft
    have := hempty.data o (hsoft.trans hoy.notSoft)
    omega
  have hin := (hevolve.inode o).trans ((hmark.inode o).trans hoy.notHooked)
  have hun' := hevolve.unlinked o (hunlinked.trans hun)
  have hd' := hevolve.deleted o hd
  exact ⟨softDelFile_cleanUps hempty.cleanUps hpos hin hun' hd',
    (softDelFile_gone (g := g) (e := e) hevolve.ties hin hun' hd').evolves.deleted o hd'⟩

theorem delFile_cleanUps (hy : g.isYaffs2 = false) (h : CleanUps g d) (ho : Deletable d o)
    (hk : DelFileKeeps g e o d) : CleanUps g (delFile g e o d).1 := by
  obtain ⟨hempty, hzero⟩ := emptyFile_cleanUps hy h ho.notSoft hk.1
  have hox := ho.evolves (emptyFile_evolving (g := g) (e := e) o d h.ties)
  have hzero' : g.deletesByResize = true → ((emptyFile g e o d).obj o).file.fileSize = 0 :=
    fun hdel => hzero hdel ho.type
  obtain ⟨-, hk⟩ := hk
  unfold delFile
  simp only
  generalize emptyFile g e o d = x at *
  by_cases hdata : 0 < (x.obj o).nDataChunks
  · rw [if_pos hdata]
    cases hun : (x.obj o).unlinked with
    | true =>
      simp only [hox.notDeleted, Bool.not_false, Bool.and_self, if_true, hun]
      obtain ⟨hmark, hd⟩ := setDeleted_evolves (o := o) hempty.ties hox.notHooked
      obtain ⟨hsame, -, -, hunlinked⟩ := setDeleted_marks o x
      exact softDelFile_cleanUps (setDeleted_cleanUps hempty hox.id hox.type hox.notHooked hox.notDeleted)
        (hsame ▸ hdata) ((hmark.inode o).trans hox.notHooked) (hunlinked.trans hun) hd
    | false =>
      obtain ⟨hclean, hd⟩ := unlinkFileIfNeeded_cleanUps hy hempty hox hdata hzero' (hk hdata hun)
      simp only [Bool.false_eq_true, if_false, hd, Bool.not_true, Bool.and_false]
      exact hclean
  · rw [if_neg hdata]
    exact freeTop_cleanUps hy hempty hox.type hox.notHooked hox.notSoft hox.notDeleted

/-- An object that is no file leaves the hash table. -/
theorem genericObjDel_notFile (hy : g.isYaffs2 = false) (h : CleanUps g d) (htype : (d.obj o).variantType ≠ .file)
    (ho : Removable [] d o) : CleanUps g (genericObjDel g e o d) :=
  genericObjDel_cleanUps hy h ho (h.notDeleted htype)

theorem delDir_cleanUps (hy : g.isYaffs2 = false) (h : CleanUps g d) (ho : o ∉ initialDirs)
    (htype : (d.obj o).variantType = .directory) (hin : (d.obj o).myInode = none) (hs : (d.obj o).softDel = false) :
    CleanUps g (delDir g e o (cleanDir o d)).1 := by
  have hclean : Minds g d (cleanDir o d) :=
    (Minds.refl h).same ((Fed.refl _).congr rfl rfl rfl rfl rfl) ⟨fun _ => rfl, rfl, rfl⟩
  have htype' : ((cleanDir o d).obj o).variantType = .directory := htype
  unfold delDir
  split_ifs with hempty
  · exact hclean.cleanUps
  · have hleaf : ((cleanDir o d).obj o).children = [] := by
      refine isNonEmptyDir_false (by simpa using hempty) htype'
    have hrem := hclean.cleanUps.ties.removable ho (by rw [htype']; simp) hin hs fun _ => hleaf
    exact genericObjDel_notFile hy hclean.cleanUps (by rw [htype']; simp) hrem

theorem delSymlink_cleanUps (hy : g.isYaffs2 = false) (h : CleanUps g d) (htype : (d.obj o).variantType = .symlink)
    (ho : o ∉ initialDirs) (hin : (d.obj o).myInode = none) (hs : (d.obj o).softDel = false) :
    CleanUps g (delSymlink g e o d).1 := by
  have hname : Minds g d (d.modObj o fun ob => { ob with aliasName := none }) :=
    (Minds.refl h).same (Fed.modObj rfl rfl rfl le_rfl rfl) (SameTies.modObj rfl)
  have hobj : ((d.modObj o fun ob => { ob with aliasName := none }).obj o) = { d.obj o with aliasName := none } := by
    simp [Dev.modObj]
  have hrem := hname.cleanUps.ties.removable (o := o) ho (by rw [hobj]; simp [htype]) (by rw [hobj]; exact hin)
    (by rw [hobj]; exact hs) fun ht => by simp [hobj, htype] at ht
  exact genericObjDel_notFile hy hname.cleanUps (by rw [hobj]; simp [htype]) hrem

theorem unlinkRing_minds (h : CleanUps g d) (o : ℕ) : Minds g d (unlinkRing o d) := by
  refine (Minds.refl h).fed ?_ (unlinkRing_evolves h.ties o).1.ties
  unfold unlinkRing
  cases (d.obj o).equivObj with
  | none => exact Fed.refl d
  | some q => exact Fed.modObj rfl rfl rfl le_rfl rfl

theorem delLink_cleanUps (hy : g.isYaffs2 = false) (h : CleanUps g d) (htype : (d.obj o).variantType = .hardlink) :
    CleanUps g (delLink g e o d).1 := by
  have hring := unlinkRing_minds h o
  obtain ⟨hev, hfree⟩ := unlinkRing_evolves h.ties o
  have htype' := (hev.type o).trans htype
  exact genericObjDel_notFile hy hring.cleanUps (by rw [htype']; simp) (hev.ties.link_removable htype' hfree)

/-! ## Unlinking -/

/-- The gc of the hand-over of a name keeps the list. -/
def HandOverKeeps (g : Geometry) (e : Env) (o hl : ℕ) (d : Dev) : Prop :=
  ChangeNameKeeps g e o (d.obj hl).parent (getObjName d hl) (addObjToDir objectIdUnlinked hl (unlinkRing hl d))

instance {hl : ℕ} : Decidable (HandOverKeeps g e o hl d) :=
  inferInstanceAs (Decidable (ChangeNameKeeps _ _ _ _ _ _))

theorem handOver_cleanUps {hl : ℕ} (hy : g.isYaffs2 = false) (h : CleanUps g d) (hid : o ∈ d.ids)
    (ho : o ∉ initialDirs) (htype : (d.obj o).variantType ≠ .hardlink) (hl' : hl ∈ (d.obj o).hardLinks)
    (hk : HandOverKeeps g e o hl d) : CleanUps g (handOver g e o hl d).1 := by
  obtain ⟨-, hlt, -⟩ := h.ties.ring o hid hl hl'
  have hring := unlinkRing_minds h hl
  obtain ⟨hunl, hfree⟩ := unlinkRing_evolves h.ties hl
  have hlt' := (hunl.type hl).trans hlt
  have hrem := hunl.ties.link_removable hlt' hfree
  obtain ⟨hadd, hplace⟩ := handOver_takes h.ties hid ho htype hl'
  have hplaced := hring.fed (addObjToDir_fed objectIdUnlinked hl _) hadd.ties
  have hname := changeObjName_minds hy hplaced.cleanUps hplace hk
  have hev := changeObjNameWith_evolves (g := g) (e := e) (checkGc_evolves (g := g) (e := e) false) hadd.ties
    hplace (getObjName d hl) false 0
  have hnot : ((changeObjName g e o (d.obj hl).parent (getObjName d hl) false 0
      (addObjToDir objectIdUnlinked hl (unlinkRing hl d))).1.obj hl).variantType ≠ .file := by
    unfold changeObjName
    rw [(hadd.trans hev).type hl, hlt']
    simp
  unfold handOver
  simp only
  split
  · refine genericObjDel_notFile hy hname.cleanUps hnot (hrem.evolves (hadd.trans hev) fun ht => ?_)
    rw [hlt'] at ht
    exact ObjType.noConfusion ht
  · exact hname.cleanUps

/-- The gcs of `yaffs_unlink_worker` behind the update of the parent keep the list. -/
def UnlinkNamedKeeps (g : Geometry) (e : Env) (o : ℕ) (delNow : Bool) (d : Dev) : Prop :=
  (d.obj o).variantType ≠ .hardlink →
    match (d.obj o).hardLinks with
    | hl :: _ => HandOverKeeps g e o hl d
    | [] =>
      if delNow then (d.obj o).variantType = .file → DelFileKeeps g e o d
      else isNonEmptyDir d o = false → ChangeNameKeeps g e o (some objectIdUnlinked) unlinkedName d

instance {delNow : Bool} : Decidable (UnlinkNamedKeeps g e o delNow d) :=
  have : Decidable (match (d.obj o).hardLinks with
      | hl :: _ => HandOverKeeps g e o hl d
      | [] =>
        if delNow then (d.obj o).variantType = .file → DelFileKeeps g e o d
        else isNonEmptyDir d o = false → ChangeNameKeeps g e o (some objectIdUnlinked) unlinkedName d) :=
    match (d.obj o).hardLinks with
    | _ :: _ => inferInstanceAs (Decidable (HandOverKeeps _ _ _ _ _))
    | [] => inferInstanceAs (Decidable (ite _ (_ → _) (_ → _)))
  inferInstanceAs (Decidable (_ → _))

/-- The gcs of `yaffs_unlink_obj` keep the list. -/
def UnlinkKeeps (g : Geometry) (e : Env) (o : ℕ) (d : Dev) : Prop :=
  (d.obj o).unlinkAllowed = true → UpdateParentKeeps g e (d.obj o).parent d ∧
    UnlinkNamedKeeps g e o (d.obj o).myInode.isNone (updateParent g e (d.obj o).parent d)

instance : Decidable (UnlinkKeeps g e o d) :=
  inferInstanceAs (Decidable (_ → _ ∧ _))

/-- The gcs of `yaffs_del_obj` keep the list. -/
def DelObjKeeps (g : Geometry) (e : Env) (o : ℕ) (d : Dev) : Prop :=
  (d.obj o).variantType = .file → DelFileKeeps g e o d

instance : Decidable (DelObjKeeps g e o d) :=
  inferInstanceAs (Decidable (_ → _))

theorem unlinkNamed_cleanUps (hy : g.isYaffs2 = false) (h : CleanUps g d) (hid : o ∈ d.ids) (ho : o ∉ initialDirs)
    (hs : (d.obj o).softDel = false) (hdel : (d.obj o).deleted = false)
    (hk : UnlinkNamedKeeps g e o (d.obj o).myInode.isNone d) :
    CleanUps g (unlinkNamed g e o (d.obj o).myInode.isNone d).1 := by
  unfold unlinkNamed
  by_cases hlink : (d.obj o).variantType = .hardlink
  · rw [if_pos hlink]
    exact delLink_cleanUps hy h hlink
  · have hk := hk hlink
    rw [if_neg hlink]
    cases hring : (d.obj o).hardLinks with
    | cons hl ls =>
      rw [hring] at hk
      exact handOver_cleanUps hy h hid ho hlink (by simp [hring]) hk
    | nil =>
      rw [hring] at hk
      by_cases hin : (d.obj o).myInode = none
      · simp only [hin, Option.isNone_none, if_true] at hk ⊢
        cases htype : (d.obj o).variantType with
        | file => exact delFile_cleanUps hy h ⟨hid, htype, hin, hs, hdel⟩ (hk htype)
        | directory => exact delDir_cleanUps hy h ho htype hin hs
        | symlink => exact delSymlink_cleanUps hy h htype ho hin hs
        | special =>
          have hrem := h.ties.removable ho (by simp [htype]) hin hs fun ht => by simp [htype] at ht
          exact genericObjDel_notFile hy h (by simp [htype]) hrem
        | hardlink => exact absurd htype hlink
        | unknown => exact h
        | other _ => exact h
      · have hsome : (d.obj o).myInode.isNone = false := by
          rw [Option.isNone_eq_false_iff, Option.isSome_iff_ne_none]
          exact hin
        simp only [hsome, Bool.false_eq_true, if_false] at hk ⊢
        split_ifs with hempty
        · exact h
        · have hleaf := isNonEmptyDir_false (by simpa using hempty)
          have htake := h.ties.takes_initial (by simp [initialDirs] : objectIdUnlinked ∈ initialDirs) ho hleaf
          refine (changeObjName_minds hy h (fun dir hd => ?_) (hk (by simpa using hempty))).cleanUps
          obtain rfl : objectIdUnlinked = dir := by simpa using hd
          exact htake

theorem unlinkObj_cleanUps (hy : g.isYaffs2 = false) (h : CleanUps g d) (hid : o ∈ d.ids)
    (hs : (d.obj o).softDel = false) (hdel : (d.obj o).deleted = false) (hk : UnlinkKeeps g e o d) :
    CleanUps g (unlinkObj g e o d).1 := by
  unfold unlinkObj
  split_ifs with hallow
  · have hinitial : o ∉ initialDirs := fun hi => by
      rw [(h.ties.initial o hi).2.2.2] at hallow
      exact Bool.noConfusion hallow
    obtain ⟨hkp, hkn⟩ := hk hallow
    have hparent := updateParent_minds hy h hkp
    have hev := updateParentWith_evolves (g := g) (e := e) (checkGc_evolves (g := g) (e := e) false) h.ties
      (d.obj o).parent
    have hlive := hev.live o hid (by simp) hs
    unfold unlinkWorker
    have hin : (d.obj o).myInode = ((updateParent g e (d.obj o).parent d).obj o).myInode := (hev.inode o).symm
    rw [hin] at hkn ⊢
    exact unlinkNamed_cleanUps hy hparent.cleanUps hlive hinitial ((hev.soft o (by simp)).trans hs)
      ((hev.alive o (by simp)).trans hdel) hkn
  · exact h

theorem delObj_cleanUps (hy : g.isYaffs2 = false) (h : CleanUps g d) (hid : o ∈ d.ids) (ho : o ∉ initialDirs)
    (hin : (d.obj o).myInode = none) (hs : (d.obj o).softDel = false) (hdel : (d.obj o).deleted = false)
    (hk : DelObjKeeps g e o d) : CleanUps g (delObj g e o d).1 := by
  unfold delObj
  cases htype : (d.obj o).variantType with
  | file => exact delFile_cleanUps hy h ⟨hid, htype, hin, hs, hdel⟩ (hk htype)
  | directory => exact delDir_cleanUps hy h ho htype hin hs
  | symlink => exact delSymlink_cleanUps hy h htype ho hin hs
  | hardlink => exact delLink_cleanUps hy h htype
  | special =>
    have hrem := h.ties.removable ho (by simp [htype]) hin hs fun ht => by simp [htype] at ht
    exact genericObjDel_notFile hy h (by simp [htype]) hrem
  | unknown => exact h
  | other _ => exact h

/-! ## Handles -/

theorem hookInode_cleanUps (h : CleanUps g d) (ho : o ∈ d.ids) (hdel : (d.obj o).deleted = false)
    (htype : (d.obj o).variantType = .file ∨ (d.obj o).variantType = .directory) (i : ℕ) :
    CleanUps g (hookInode i o d) :=
  Fed.cleanUps (Fed.modObj rfl rfl rfl le_rfl rfl) h (hookInode_tied h.ties ho htype hdel i)

/-- The gcs of `yaffsfs_ReleaseInode` keep the list. -/
def ReleaseKeeps (g : Geometry) (e : Env) (o : ℕ) (d : Dev) : Prop :=
  (d.obj o).unlinked = true → DelObjKeeps g e o (d.modObj o fun ob => { ob with myInode := none })

instance : Decidable (ReleaseKeeps g e o d) :=
  inferInstanceAs (Decidable (_ → _))

theorem releaseInode_cleanUps (hy : g.isYaffs2 = false) (h : CleanUps g d) (ho : o ∈ d.ids)
    (hs : (d.obj o).softDel = false) (hdel : (d.obj o).deleted = false) (hk : ReleaseKeeps g e o d) :
    CleanUps g (releaseInode g e o d) := by
  have hobj : (d.modObj o fun ob => { ob with myInode := none }).obj o = { d.obj o with myInode := none } := by
    simp [Dev.modObj]
  have hx : CleanUps g (d.modObj o fun ob => { ob with myInode := none }) :=
    Fed.cleanUps (Fed.modObj rfl rfl rfl le_rfl rfl) h (h.ties.setInode (by simp))
  unfold releaseInode
  simp only
  split_ifs with hun
  · rw [hobj] at hun
    have hinitial : o ∉ initialDirs := fun hi => by
      rw [show (d.obj o).unlinked = false from (h.ties.initial o hi).2.2.1] at hun
      exact Bool.noConfusion hun
    exact delObj_cleanUps hy hx ho hinitial (by rw [hobj]) (by rw [hobj]; exact hs) (by rw [hobj]; exact hdel) (hk hun)
  · exact hx

/-! ## Runs -/

/-- A deletion, a call that makes one deferred or lets it happen, or a collection. -/
inductive DelCall
  | unlink (o : ℕ)
  | openInode (i o : ℕ)
  | closeInode (o : ℕ)
  | gc (background : Bool)
  deriving DecidableEq, Repr

/-- One call. -/
def delStep (g : Geometry) (e : Env) (d : Dev) : DelCall → Dev
  | .unlink o => step g e d (.unlink o)
  | .openInode i o => cacheStep g e d (.core (.openInode i o))
  | .closeInode o => step g e d (.closeInode o)
  | .gc background => checkGc g e background d

/-- A sequence of calls. -/
def delRun (g : Geometry) (e : Env) (d : Dev) (cs : List DelCall) : Dev :=
  cs.foldl (delStep g e) d

/-- The gcs of the call keep the list. -/
def DelCallKeeps (g : Geometry) (e : Env) (d : Dev) : DelCall → Prop
  | .unlink o => UnlinkKeeps g e o d
  | .openInode _ _ => True
  | .closeInode o => ReleaseKeeps g e o d
  | .gc background => GcKeeps g e background d

instance : ∀ c : DelCall, Decidable (DelCallKeeps g e d c)
  | .unlink _ => inferInstanceAs (Decidable (UnlinkKeeps _ _ _ _))
  | .openInode _ _ => inferInstanceAs (Decidable True)
  | .closeInode _ => inferInstanceAs (Decidable (ReleaseKeeps _ _ _ _))
  | .gc _ => inferInstanceAs (Decidable (GcKeeps _ _ _ _))

/-- The gcs of the run keep the list. -/
def DelRunKeeps (g : Geometry) (e : Env) : Dev → List DelCall → Prop
  | _, [] => True
  | d, c :: cs => DelCallKeeps g e d c ∧ DelRunKeeps g e (delStep g e d c) cs

instance decideDelRun : ∀ (cs : List DelCall) (d : Dev), Decidable (DelRunKeeps g e d cs)
  | [], _ => inferInstanceAs (Decidable True)
  | c :: cs, d =>
    have := decideDelRun cs (delStep g e d c)
    inferInstanceAs (Decidable (DelCallKeeps g e d c ∧ DelRunKeeps g e (delStep g e d c) cs))

/-- The books on the files that have been deleted are right. -/
structure SoftDelBooks (g : Geometry) (d : Dev) : Prop where
  /-- No file without data is forgotten. -/
  pending : ∀ o, findByNumber d o = some o → (d.obj o).softDel = true → (d.obj o).nDataChunks ≤ 0 →
    o ∈ d.gcCleanupList
  bounded : d.gcCleanupList.length ≤ g.chunksPerBlock
  live : ∀ o ∈ d.gcCleanupList, findByNumber d o = some o
  count : d.nDeletedFiles = d.ids.countP fun o => (d.obj o).deleted

theorem CleanUps.books (h : CleanUps g d) : SoftDelBooks g d where
  pending o ho := h.listed o (findByNumber_eq_some ho).2
  bounded := h.length.trans h.cursor
  live o ho := by
    unfold findByNumber
    have hid := ((h.ties.clean o ho).resolve_left List.not_mem_nil).1
    rw [if_pos ⟨hid, h.ties.kept o⟩]
  count := h.count

/-- On blank flash no file has been deleted. -/
theorem freshDev_cleanUps (g : Geometry) (bad : ℕ → Bool) : CleanUps g (freshDev g bad) := by
  have hplain : ∀ o, ((freshDev g bad).obj o).softDel = false ∧ ((freshDev g bad).obj o).deleted = false := by
    intro o
    simp only [freshDev, initialObj]
    split_ifs <;> exact ⟨rfl, rfl⟩
  refine ⟨freshDev_tied g bad, fun o _ hs => ?_, Nat.zero_le _, Nat.zero_le _, fun o _ hd => ?_, ?_⟩
  · rw [(hplain o).1] at hs
    exact Bool.noConfusion hs
  · rw [(hplain o).2] at hd
    exact Bool.noConfusion hd
  · simp only [(hplain _).2]
    rfl

/-- One call keeps the list. -/
theorem delStep_cleanUps (hy : g.isYaffs2 = false) (h : CleanUps g d) (c : DelCall) (hk : DelCallKeeps g e d c) :
    CleanUps g (delStep g e d c) := by
  cases c with
  | unlink o =>
    unfold delStep step
    simp only
    split_ifs with hall
    · simp only [Op.allowed, named, Bool.and_eq_true] at hall
      obtain ⟨hid, hdel, hs⟩ := reachable_spec h.ties hall.1
      exact unlinkObj_cleanUps hy h hid hs hdel hk
    · exact h
  | openInode i o =>
    unfold delStep cacheStep step
    simp only
    split_ifs with hcov hall
    · simp only [Op.allowed, named, Bool.and_eq_true] at hall
      obtain ⟨hid, hdel, -⟩ := reachable_spec h.ties hall.1.1
      simp only [Op.covered, Bool.or_eq_true, decide_eq_true_eq] at hcov
      exact hookInode_cleanUps h hid hdel hcov i
    · exact h
    · exact h
  | closeInode o =>
    unfold delStep step
    simp only
    split_ifs with hall
    · simp only [Op.allowed, Bool.and_eq_true] at hall
      obtain ⟨hid, hdel, hs⟩ := reachable_spec h.ties hall.1
      exact releaseInode_cleanUps hy h hid hs hdel hk
    · exact h
  | gc background => exact (checkGc_minds hy background h hk).cleanUps

/-- Whatever the driver answers, a run of deletions and collections from a state in which no softly deleted file
is forgotten forgets none, if gc takes up blocks only while no file is on the clean-up list. -/
theorem softDelBooks_run (hy : g.isYaffs2 = false) (h : CleanUps g d) (cs : List DelCall)
    (hk : DelRunKeeps g e d cs) : SoftDelBooks g (delRun g e d cs) := by
  have hrun : ∀ d, CleanUps g d → DelRunKeeps g e d cs → CleanUps g (delRun g e d cs) := by
    clear h hk
    induction cs with
    | nil => exact fun d h _ => h
    | cons c cs ih => exact fun d h hk => ih _ (delStep_cleanUps hy h c hk.1) hk.2
  exact (hrun d h hk).books

/-! ## Two runs of a sample device -/

/-- A yaffs1 device of 16 blocks of 8 chunks, without a cache, which defers the updates of directories. -/
def softGeometry : Geometry where
  toParam :=
    { sampleGeometry.toParam with
      isYaffs2 := false, deferedDirUpdate := true, nCaches := 0, chunksPerBlock := 8, endBlock := 16 }
  two_le_chunksPerBlock := by decide
  two_le_nReservedBlocks := by decide
  startBlock_pos := by decide
  endBlock_gt := by decide
  chunkGrpSize_le := by decide
  objHdrSize_le := by decide
  chunks_lt := by decide

/-- A file of 5 chunks is written and an empty one made, whose header is written twice to fill the block. -/
def softCalls : List CacheCall :=
  [.core (.create .file objectIdRoot "a".toList []), .core (.write 257 0 (List.replicate 2560 1) false),
    .core (.create .file objectIdRoot "c".toList []), .core (.setAttribs 258)]

/-- The device after these calls. -/
def softDev : Dev :=
  cacheRun softGeometry okEnv (freshDev softGeometry fun _ => false) softCalls

theorem softDev_cleanUps : CleanUps softGeometry softDev := by
  have hclean : RunClean softGeometry okEnv (freshDev softGeometry fun _ => false) softCalls :=
    ⟨trivial, write_clean rfl _ _ _ _ _, trivial, trivial, trivial⟩
  obtain ⟨hlisted, hlength, hcursor, hfiles, hcount⟩ :
      (∀ o ∈ softDev.ids, (softDev.obj o).softDel = true → (softDev.obj o).nDataChunks ≤ 0 →
        o ∈ softDev.gcCleanupList) ∧
      softDev.gcCleanupList.length ≤ softDev.gc.chunk ∧ softDev.gc.chunk ≤ softGeometry.chunksPerBlock ∧
      (∀ o ∈ softDev.ids, (softDev.obj o).deleted = true → (softDev.obj o).variantType = .file) ∧
      softDev.nDeletedFiles = softDev.ids.countP fun o => (softDev.obj o).deleted := by
    decide +kernel
  exact ⟨(cacheRun_sound softCalls _ (freshDev_cacheSound softGeometry _) hclean).ties, hlisted, hlength, hcursor,
    hfiles, hcount⟩

/-- gc deletes the first file once its chunks are gone. -/
theorem softDev_books :
    SoftDelBooks softGeometry (delRun softGeometry okEnv softDev [.unlink 257, .gc true, .gc true]) :=
  have hk : DelRunKeeps softGeometry okEnv softDev [.unlink 257, .gc true, .gc true] := by decide +kernel
  softDelBooks_run rfl softDev_cleanUps _ hk

/-- The block that gc has left holds the header of the second file alone. Its deletion empties and erases the
block, gc takes up a new one, and the first file is forgotten. -/
theorem softDev_forgets : CleanUps softGeometry softDev ∧
    ¬SoftDelBooks softGeometry (delRun softGeometry okEnv softDev [.unlink 257, .gc true, .unlink 258, .gc true]) := by
  refine ⟨softDev_cleanUps, fun h => ?_⟩
  have hlost : findByNumber (delRun softGeometry okEnv softDev [.unlink 257, .gc true, .unlink 258, .gc true]) 257 =
        some 257 ∧
      ((delRun softGeometry okEnv softDev [.unlink 257, .gc true, .unlink 258, .gc true]).obj 257).softDel = true ∧
      ((delRun softGeometry okEnv softDev [.unlink 257, .gc true, .unlink 258, .gc true]).obj 257).nDataChunks ≤ 0 ∧
      257 ∉ (delRun softGeometry okEnv softDev [.unlink 257, .gc true, .unlink 258, .gc true]).gcCleanupList := by
    decide +kernel
  exact hlost.2.2.2 (h.pending 257 hlost.1 hlost.2.1 hlost.2.2.1)

end Yaffs
