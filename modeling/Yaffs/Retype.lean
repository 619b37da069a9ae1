import Yaffs.CheckptSpace
import Yaffs.Scan
import Yaffs.Ties

/-!
# Retyping

`yaffs_retype_obj`, by which a scan makes another object of one whose tags said something else than its
header : the children go to lost+found, a link leaves its ring, the tree of a file is freed, and the variant
is cleared. `yaffs_new_obj` gives a file a tree besides, and `yaffs_retype_obj` does not.
-/

namespace Yaffs

variable {g : Geometry} {e : Env} {d d' : Dev} {o c q dir : ℕ} {type : ObjType}

/-! ## Objects in their places -/

/-- Children and parents, and links and what they are links to, agree. -/
structure Furnished (d : Dev) : Prop where
  child : ∀ p c, c ∈ (d.obj p).children ↔ (d.obj c).parent = some p
  childNodup : ∀ p, (d.obj p).children.Nodup
  childless : ∀ p, (d.obj p).variantType ≠ .directory → (d.obj p).children = []
  ring : ∀ q l, l ∈ (d.obj q).hardLinks → (d.obj l).variantType = .hardlink ∧ (d.obj l).equivObj = some q
  ringNodup : ∀ q, (d.obj q).hardLinks.Nodup
  dirty : ∀ o ∈ d.dirtyDirs, (d.obj o).variantType = .directory
  dirtyNodup : d.dirtyDirs.Nodup

/-! ## What retyping is to do -/

/-- `file_variant` of a new object. -/
def newFile (g : Geometry) (type : ObjType) : FileVar :=
  if type = .file then { shrinkSize := g.maxFileSize, topLevel := 0, top := some (Tnode.empty 0) } else {}

/-- The object `o` has the variant, the header and the chunks of a new object of its type. -/
structure AsNew (g : Geometry) (type : ObjType) (o : ℕ) (d : Dev) : Prop where
  variantType : (d.obj o).variantType = type
  file : (d.obj o).file = newFile g type
  children : (d.obj o).children = []
  clean : o ∉ d.dirtyDirs
  equivId : (d.obj o).equivId = 0
  equivObj : (d.obj o).equivObj = none
  aliasName : (d.obj o).aliasName = none
  hdrChunk : (d.obj o).hdrChunk = 0
  nDataChunks : (d.obj o).nDataChunks = 0

/-- The object `c` is in the directory `dir`, and in no other. -/
structure LiesIn (dir c : ℕ) (d : Dev) : Prop where
  parent : (d.obj c).parent = some dir
  dirType : (d.obj dir).variantType = .directory
  only : ∀ p, c ∈ (d.obj p).children ↔ p = dir

/-- Nothing of the file `o` of `d` is left in `d'`. -/
structure FileGone (g : Geometry) (o : ℕ) (d d' : Dev) : Prop where
  tnodes : d'.nTnodes = d.nTnodes - (d.obj o).file.tnodes
  chunks : ∀ k c, findChunkInFile g d o k = some c → d'.chunkBits c = false
  cache : ∀ x ∈ d'.cache, x.object ≠ some o

/-- `o` is as a new object of type `type`, its children lie in lost+found, the rings of hard links have lost no
other link, and nothing of a file is left. -/
structure Retyped (g : Geometry) (type : ObjType) (o : ℕ) (d d' : Dev) : Prop where
  new : AsNew g type o d'
  moved : ∀ c ∈ (d.obj o).children, LiesIn objectIdLostNFound c d'
  rings : ∀ q, q ≠ o → (d'.obj q).hardLinks = (d.obj q).hardLinks.filter (· != o)
  file : (d.obj o).variantType = .file → FileGone g o d d'

/-- The file has no data, and gc is not allowed. -/
structure BareFile (g : Geometry) (e : Env) (o : ℕ) (d : Dev) : Prop where
  size : (d.obj o).file.fileSize = 0
  tnodes : (d.obj o).file.tnodes = 1
  chunks : ∀ k, findChunkInFile g d o k = none
  cache : ∀ x ∈ d.cache, x.object ≠ some o
  noGc : d.gc.disable = true ∨ e.gcPermitted d.nand.calls = false

/-- When retyping does what it is to do. -/
structure Retypable (g : Geometry) (e : Env) (type : ObjType) (o : ℕ) (d : Dev) : Prop where
  notFile : type ≠ .file
  hdrChunk : (d.obj o).hdrChunk = 0
  nDataChunks : (d.obj o).nDataChunks = 0
  home : (d.obj o).children ≠ [] → o ≠ objectIdLostNFound ∧ (d.obj objectIdLostNFound).variantType = .directory
  file : (d.obj o).variantType = .file → BareFile g e o d

/-! ## Children -/

theorem lostNFound_notPseudo : ¬(objectIdLostNFound = objectIdUnlinked ∨ objectIdLostNFound = objectIdDeleted) := by
  decide

theorem addObjToDir_place_eq (hdir : ¬(dir = objectIdUnlinked ∨ dir = objectIdDeleted)) (o q : ℕ) (d : Dev) :
    (addObjToDir dir o d).obj q = { d.obj q with
      parent := if q = o then some dir else (d.obj q).parent
      children := if q = dir then o :: leftChildren d o q else leftChildren d o q } := by
  have hrem := removeObjFromDir_obj o d
  unfold addObjToDir
  generalize removeObjFromDir o d = x at hrem ⊢
  simp only [hdir, if_false]
  by_cases hq : q = o <;> by_cases hqd : q = dir
  · subst hq
    subst hqd
    simp [Dev.modObj, hrem]
  · subst hq
    simp [Dev.modObj, hrem, hqd]
  · subst hqd
    simp [Dev.modObj, hrem, hq]
  · simp [Dev.modObj, hrem, hq, hqd]

/-- Only the places of objects differ. -/
def SamePlaces (d d' : Dev) : Prop :=
  ∀ q, ∃ p l, d'.obj q = { d.obj q with parent := p, children := l }

/-- Children and parents agree. -/
structure Seated (d : Dev) : Prop where
  child : ∀ p c, c ∈ (d.obj p).children ↔ (d.obj c).parent = some p
  nodup : ∀ p, (d.obj p).children.Nodup

theorem Seated.mem_left (h : Seated d) (p : ℕ) : c ∈ leftChildren d o p ↔ c ≠ o ∧ c ∈ (d.obj p).children := by
  unfold leftChildren
  split_ifs with hp
  · exact (h.nodup p).mem_erase_iff
  · refine ⟨fun hc => ⟨?_, hc⟩, And.right⟩
    rintro rfl
    exact hp ((h.child p c).mp hc)

/-- An object moves to another directory. -/
theorem Seated.add (h : Seated d) (hdir : ¬(dir = objectIdUnlinked ∨ dir = objectIdDeleted)) (o : ℕ) :
    Seated (addObjToDir dir o d) := by
  refine ⟨fun p c => ?_, fun p => ?_⟩
  · rw [addObjToDir_place_eq hdir, addObjToDir_place_eq hdir]
    simp only
    by_cases hc : c = o
    · have hleft : o ∉ leftChildren d o p := fun hmem => ((h.mem_left p).mp hmem).1 rfl
      by_cases hp : p = dir
      · simp [hc, hp]
      · simp [hc, hp, hleft, Ne.symm hp]
    · rw [if_neg hc, ← h.child p c]
      split_ifs <;> simp [hc, h.mem_left p]
  · rw [addObjToDir_place_eq hdir]
    have hleft : (leftChildren d o p).Nodup := by
      unfold leftChildren
      split_ifs
      · exact (h.nodup p).erase o
      · exact h.nodup p
    simp only
    split_ifs
    · exact List.nodup_cons.mpr ⟨fun hmem => ((h.mem_left p).mp hmem).1 rfl, hleft⟩
    · exact hleft

theorem addObjToDir_dirtyDirs (dir o : ℕ) (d : Dev) : (addObjToDir dir o d).dirtyDirs = d.dirtyDirs := by
  unfold addObjToDir removeObjFromDir
  cases (d.obj o).parent <;> simp only <;> split_ifs <;> rfl

/-- The objects in `l` move to a directory, one by one. -/
theorem Seated.addAll (hdir : ¬(dir = objectIdUnlinked ∨ dir = objectIdDeleted)) (l : List ℕ) :
    ∀ d, Seated d → let d' := l.foldl (fun d o => addObjToDir dir o d) d
      Seated d' ∧ SamePlaces d d' ∧ d'.dirtyDirs = d.dirtyDirs ∧
        ∀ q, (d'.obj q).parent = if q ∈ l then some dir else (d.obj q).parent := by
  induction l with
  | nil => exact fun d h => ⟨h, fun q => ⟨_, _, rfl⟩, rfl, fun q => by simp⟩
  | cons o l ih =>
    intro d h
    obtain ⟨hplaced, hsame, hdirty, hparent⟩ := ih _ (h.add hdir o)
    refine ⟨hplaced, fun q => ?_, hdirty.trans (addObjToDir_dirtyDirs dir o d), fun q => ?_⟩
    · obtain ⟨p, l', hq⟩ := hsame q
      rw [addObjToDir_place_eq hdir] at hq
      exact ⟨p, l', hq⟩
    · rw [List.foldl_cons, hparent, addObjToDir_place_eq hdir]
      by_cases hq : q = o
      · simp [hq]
      · simp [hq]

/-! ## New objects -/

theorem initObj_asNew (h : d.obj o = { parent := (d.obj o).parent }) (hdirty : o ∉ d.dirtyDirs) :
    AsNew g type o (initObj g o type d) := by
  have hself : (initObj g o type d).obj o =
      { d.obj o with renameAllowed := true, unlinkAllowed := true, variantType := type, file := newFile g type } := by
    simp [initObj, hashObj, Dev.modObj, newFile]
  rw [h] at hself
  exact ⟨by rw [hself], by rw [hself], by rw [hself], hdirty, by rw [hself], by rw [hself], by rw [hself],
    by rw [hself], by rw [hself]⟩

/-- What `yaffs_new_obj` returns is a new object. -/
theorem newObjAt_asNew (hroot : o ≠ objectIdRoot) (hlnf : o ≠ objectIdLostNFound) (hdirty : o ∉ d.dirtyDirs)
    (h : (newObjAt g e o type d).2 = some o) : AsNew g type o (newObjAt g e o type d).1 := by
  have hspec : ∀ x : Dev, o ∉ x.dirtyDirs → (allocEmptyObj e o x).2 = true →
      AsNew g type o (initObj g o type (allocEmptyObj e o x).1) := by
    intro x hx hok
    have hallow : e.allocOk x.nand.calls = true := by
      by_contra hno
      simp [allocEmptyObj, hno] at hok
    unfold allocEmptyObj
    simp only [hallow, if_true]
    refine initObj_asNew ?_ ?_
    · have hplace := addObjToDir_place_eq lostNFound_notPseudo o o
      simp [hplace, leftChildren, Dev.modObj, Dev.mapBlocks, hlnf, hroot, Ne.symm hroot]
    · rw [addObjToDir_dirtyDirs]
      exact hx
  unfold newObjAt at h ⊢
  simp only at h ⊢
  generalize hr : (if type = .file then d.onBlocks (getTnode e) else (d, true)) = r at h ⊢
  have hdirs : r.1.dirtyDirs = d.dirtyDirs := by
    rw [← hr]
    split_ifs <;> rfl
  split_ifs at h ⊢ with h1 h2
  · exact hspec _ (hdirs ▸ hdirty) h2

/-! ## The old variant -/

theorem Furnished.seated (h : Furnished d) : Seated d :=
  ⟨h.child, h.childNodup⟩

/-- What retyping leaves of the objects : only the places of children and a ring change. -/
structure Dismantled (o : ℕ) (d d' : Dev) : Prop where
  seated : Seated d'
  children : ∀ c ∈ (d.obj o).children, (d'.obj c).parent = some objectIdLostNFound
  type : ∀ q, (d'.obj q).variantType = (d.obj q).variantType
  hdrChunk : (d'.obj o).hdrChunk = (d.obj o).hdrChunk
  nDataChunks : (d'.obj o).nDataChunks = (d.obj o).nDataChunks
  rings : ∀ q, (d'.obj q).hardLinks = (d.obj q).hardLinks.filter (· != o)
  clean : o ∉ d'.dirtyDirs

theorem Furnished.ring_filter (h : Furnished d) (ho : (d.obj o).variantType ≠ .hardlink) (q : ℕ) :
    (d.obj q).hardLinks = (d.obj q).hardLinks.filter (· != o) := by
  refine (List.filter_eq_self.mpr fun l hl => ?_).symm
  have hne : l ≠ o := by
    rintro rfl
    exact ho (h.ring q l hl).1
  simpa using hne

theorem Furnished.notDirty (h : Furnished d) (ho : (d.obj o).variantType ≠ .directory) : o ∉ d.dirtyDirs :=
  fun hmem => ho (h.dirty o hmem)

/-- The objects are as before, and there is nothing to tear down. -/
theorem Furnished.untouched (h : Furnished d) (hdir : (d.obj o).variantType ≠ .directory)
    (hlink : (d.obj o).variantType ≠ .hardlink) : Dismantled o d d where
  seated := h.seated
  children c hc := by
    rw [h.childless o hdir] at hc
    simp at hc
  type _ := rfl
  hdrChunk := rfl
  nDataChunks := rfl
  rings := h.ring_filter hlink
  clean := h.notDirty hdir

theorem Furnished.emptied (h : Furnished d) (hdir : (d.obj o).variantType = .directory) :
    Dismantled o d (cleanDir o (emptyDirToDir o objectIdLostNFound d)) := by
  obtain ⟨hseated, hsame, hdirty, hparent⟩ :=
    Seated.addAll lostNFound_notPseudo (d.obj o).children d h.seated
  have hget : ∀ {α : Type} (f : Obj → α) (hf : ∀ ob p l, f { ob with parent := p, children := l } = f ob) (q : ℕ),
      f ((emptyDirToDir o objectIdLostNFound d).obj q) = f (d.obj q) := by
    intro α f hf q
    obtain ⟨p, l, hq⟩ := hsame q
    rw [emptyDirToDir, hq, hf]
  refine ⟨⟨hseated.child, hseated.nodup⟩, fun c hc => ?_, hget Obj.variantType fun _ _ _ => rfl,
    hget Obj.hdrChunk (fun _ _ _ => rfl) o, hget Obj.nDataChunks (fun _ _ _ => rfl) o, fun q => ?_, ?_⟩
  · exact (hparent c).trans (if_pos hc)
  · exact (hget Obj.hardLinks (fun _ _ _ => rfl) q).trans (h.ring_filter (by simp [hdir]) q)
  · change o ∉ (emptyDirToDir o objectIdLostNFound d).dirtyDirs.erase o
    rw [emptyDirToDir, hdirty]
    exact fun hmem => (h.dirtyNodup.mem_erase_iff.mp hmem).1 rfl

theorem Furnished.unlinked (h : Furnished d) (hlink : (d.obj o).variantType = .hardlink) :
    Dismantled o d (unlinkRing o d) := by
  have hring : ∀ q, (d.obj o).equivObj ≠ some q → (d.obj q).hardLinks = (d.obj q).hardLinks.filter (· != o) := by
    intro q hne
    refine (List.filter_eq_self.mpr fun l hl => ?_).symm
    have hlo : l ≠ o := by
      rintro rfl
      exact hne (h.ring q l hl).2
    simpa using hlo
  have hclean := h.notDirty (o := o) (by simp [hlink])
  have hleaf : ∀ c ∈ (d.obj o).children, (d.obj c).parent = some objectIdLostNFound := by
    rw [h.childless o (by simp [hlink])]
    simp
  unfold unlinkRing
  cases heq : (d.obj o).equivObj with
  | none => exact ⟨h.seated, hleaf, fun _ => rfl, rfl, rfl, fun q => hring q (by simp [heq]), hclean⟩
  | some r =>
    have hget : ∀ {α : Type} (f : Obj → α) (hf : ∀ ob l, f { ob with hardLinks := l } = f ob) (q : ℕ),
        f ((d.modObj r fun ob => { ob with hardLinks := ob.hardLinks.erase o }).obj q) = f (d.obj q) := by
      intro α f hf q
      by_cases hq : q = r
      · rw [hq]
        simp [Dev.modObj, hf]
      · simp [Dev.modObj, hq]
    have hparent := hget Obj.parent fun _ _ => rfl
    have hch := hget Obj.children fun _ _ => rfl
    refine ⟨⟨fun p c => ?_, fun p => ?_⟩, fun c hc => ?_, hget Obj.variantType fun _ _ => rfl,
      hget Obj.hdrChunk (fun _ _ => rfl) o, hget Obj.nDataChunks (fun _ _ => rfl) o, fun q => ?_, hclean⟩
    · rw [hch, hparent]
      exact h.child p c
    · rw [hch]
      exact h.childNodup p
    · rw [hparent]
      exact hleaf c hc
    · by_cases hq : q = r
      · subst hq
        simpa [Dev.modObj] using (h.ringNodup q).erase_eq_filter o
      · have hsome := hring q (by simp [heq, Ne.symm hq])
        simpa [Dev.modObj, hq] using hsome

/-! ## Files without data -/

theorem flushFileCache_none (h : ∀ x ∈ d.cache, x.object ≠ some o) (discard : Bool) :
    flushFileCache g e o discard d = d := by
  have hstep : ∀ i, flushFileCacheStep g e o discard d i = d := by
    intro i
    refine if_neg fun hany => ?_
    cases hx : d.cache[i]? with
    | none => simp [hx] at hany
    | some x => exact h x (List.mem_of_getElem? hx) (by simpa [hx] using hany)
  unfold flushFileCache
  induction List.range g.nCaches with
  | nil => rfl
  | cons i l ih => rw [List.foldl_cons, hstep, ih]

theorem invalidateFileCache_none (h : ∀ x ∈ d.cache, x.object ≠ some o) : invalidateFileCache o d = d := by
  have hmap : d.cache.map (fun c => if c.object = some o then { c with object := none } else c) = d.cache := by
    conv_rhs => rw [← List.map_id d.cache]
    exact List.map_congr_left fun x hx => if_neg (h x hx)
  unfold invalidateFileCache
  rw [hmap]

theorem checkGc_off (h : d.gc.disable = true ∨ e.gcPermitted d.nand.calls = false) (background : Bool) :
    checkGc g e background d = (d.onBlocks (gcControl e)).1 := by
  have hno : ((d.onBlocks (gcControl e)).2 && !(d.onBlocks (gcControl e)).1.gc.disable) = false := by
    rcases h with h | h <;> simp [Dev.onBlocks, gcControl, h]
  unfold checkGc
  dsimp only
  rw [if_neg (by simp [hno])]

/-- Resizing the file only asks whether gc is allowed. -/
theorem BareFile.resizeFile_eq (h : BareFile g e o d) (hfile : (d.obj o).variantType = .file) :
    (resizeFile g e o 0 d).1 = (d.onBlocks (gcControl e)).1 := by
  unfold resizeFile
  dsimp only
  rw [flushFileCache_none h.cache, invalidateFileCache_none h.cache, checkGc_off h.noGc]
  have htype : ((d.onBlocks (gcControl e)).1.obj o).variantType = .file := hfile
  rw [if_neg (not_not.mpr htype), if_pos h.size.symm]

theorem BareFile.tearDown_eq (h : BareFile g e o d) (hfile : (d.obj o).variantType = .file) :
    tearDown g e o d = freeTop o (d.onBlocks (gcControl e)).1 := by
  unfold tearDown
  rw [hfile, h.resizeFile_eq hfile]

theorem freeTop_get {α : Type} (f : Obj → α) (hf : ∀ ob x, f { ob with file := x } = f ob) (o : ℕ) (d : Dev) (q : ℕ) :
    f ((freeTop o d).obj q) = f (d.obj q) := by
  by_cases hq : q = o
  · rw [hq]
    simp [freeTop, Dev.modFile, Dev.modObj, Dev.mapBlocks, hf]
  · simp [freeTop, Dev.modFile, Dev.modObj, Dev.mapBlocks, hq]

theorem Furnished.bared (h : Furnished d) (hbare : BareFile g e o d) (hfile : (d.obj o).variantType = .file) :
    Dismantled o d (tearDown g e o d) ∧ FileGone g o d (tearDown g e o d) := by
  rw [hbare.tearDown_eq hfile]
  have hsame := h.untouched (o := o) (by simp [hfile]) (by simp [hfile])
  have hget : ∀ {α : Type} (f : Obj → α) (hf : ∀ ob x, f { ob with file := x } = f ob) (q : ℕ),
      f ((freeTop o (d.onBlocks (gcControl e)).1).obj q) = f (d.obj q) :=
    fun f hf q => freeTop_get f hf o (d.onBlocks (gcControl e)).1 q
  have hch := hget Obj.children fun _ _ => rfl
  have hparent := hget Obj.parent fun _ _ => rfl
  refine ⟨⟨⟨fun p c => ?_, fun p => ?_⟩, fun c hc => ?_, hget Obj.variantType fun _ _ => rfl,
    hget Obj.hdrChunk (fun _ _ => rfl) o, hget Obj.nDataChunks (fun _ _ => rfl) o, fun q => ?_, hsame.clean⟩,
    ?_, fun k c hc => ?_, hbare.cache⟩
  · rw [hch, hparent]
    exact h.child p c
  · rw [hch]
    exact h.childNodup p
  · rw [hparent]
    exact hsame.children c hc
  · exact (hget Obj.hardLinks (fun _ _ => rfl) q).trans (hsame.rings q)
  · rw [hbare.tnodes]
    rfl
  · rw [hbare.chunks] at hc
    exact absurd hc (by simp)

/-! ## Retyping -/

theorem retypeObj_obj (o : ℕ) (type : ObjType) (d : Dev) (q : ℕ) : (retypeObj g e o type d).obj q =
    if q = o then { (tearDown g e o d).obj o with
      variantType := type, file := {}, children := [], equivId := 0, equivObj := none, aliasName := none }
    else (tearDown g e o d).obj q := by
  unfold retypeObj
  by_cases hq : q = o
  · rw [hq]
    simp [Dev.modObj]
  · simp [Dev.modObj, hq]

theorem newFile_of_ne (h : type ≠ .file) : newFile g type = {} :=
  if_neg h

/-- A file that is asked for has no tree. -/
theorem AsNew.notFile (h : AsNew g type o (retypeObj g e o type d)) : type ≠ .file := by
  rintro rfl
  have hfile := h.file
  rw [retypeObj_obj, if_pos rfl, newFile, if_pos rfl] at hfile
  have htop : (none : Option (Tnode 0)).isNone = (some (Tnode.empty 0)).isNone :=
    congrArg (fun f : FileVar => f.top.isNone) hfile
  exact Bool.noConfusion htop

/-- The old variant is torn down, and the object is as a new one. -/
theorem Dismantled.retyped (h : Dismantled o d (tearDown g e o d)) (hr : Retypable g e type o d)
    (hgone : (d.obj o).variantType = .file → FileGone g o d (tearDown g e o d)) :
    Retyped g type o d (retypeObj g e o type d) where
  new := by
    have hself := retypeObj_obj (g := g) (e := e) o type d o
    rw [if_pos rfl] at hself
    exact ⟨by rw [hself], by rw [hself, newFile_of_ne hr.notFile], by rw [hself], h.clean, by rw [hself],
      by rw [hself], by rw [hself], by rw [hself]; exact h.hdrChunk.trans hr.hdrChunk,
      by rw [hself]; exact h.nDataChunks.trans hr.nDataChunks⟩
  moved c hc := by
    obtain ⟨hlnf, hdir⟩ := hr.home (List.ne_nil_of_mem hc)
    have hparent := h.children c hc
    refine ⟨?_, ?_, fun p => ?_⟩
    · rw [retypeObj_obj]
      split_ifs with hco
      · exact hco ▸ hparent
      · exact hparent
    · rw [retypeObj_obj, if_neg (Ne.symm hlnf)]
      exact (h.type _).trans hdir
    · rw [retypeObj_obj]
      split_ifs with hpo
      · simp [hpo, hlnf]
      · rw [h.seated.child, hparent, Option.some.injEq]
        exact eq_comm
  rings q hq := by
    rw [retypeObj_obj, if_neg hq]
    exact h.rings q
  file hf := ⟨(hgone hf).tnodes, (hgone hf).chunks, (hgone hf).cache⟩

/-- What an object that is not a file has to meet. -/
theorem Dismantled.retypable (h : Dismantled o d (tearDown g e o d))
    (hr : Retyped g type o d (retypeObj g e o type d)) (hfile : (d.obj o).variantType ≠ .file) :
    Retypable g e type o d where
  notFile := hr.new.notFile
  hdrChunk := by
    have hhdr := hr.new.hdrChunk
    rw [retypeObj_obj, if_pos rfl] at hhdr
    exact h.hdrChunk.symm.trans hhdr
  nDataChunks := by
    have hdata := hr.new.nDataChunks
    rw [retypeObj_obj, if_pos rfl] at hdata
    exact h.nDataChunks.symm.trans hdata
  home hne := by
    obtain ⟨c, hc⟩ := List.exists_mem_of_ne_nil _ hne
    have hlies := hr.moved c hc
    have hlnf : o ≠ objectIdLostNFound := by
      rintro rfl
      have hmem := (hlies.only objectIdLostNFound).mpr rfl
      rw [hr.new.children] at hmem
      simp at hmem
    have htype := hlies.dirType
    rw [retypeObj_obj, if_neg (Ne.symm hlnf)] at htype
    exact ⟨hlnf, (h.type _).symm.trans htype⟩
  file hf := absurd hf hfile

theorem Furnished.dismantled (h : Furnished d) (hfile : (d.obj o).variantType ≠ .file) :
    Dismantled o d (tearDown g e o d) := by
  unfold tearDown
  split
  · next hf => exact absurd hf hfile
  · next hdir => exact h.emptied hdir
  · next hlink => exact h.unlinked hlink
  · next hdir hlink => exact h.untouched hdir hlink

/-- A blank device on which the tags of a page told of the symlink 257. -/
def symlinkDev : Dev :=
  (newObjAt sampleGeometry okEnv 257 .symlink (freshDev sampleGeometry fun _ => false)).1

/-- The objects of `symlinkDev`. -/
def symlinkObj (q : ℕ) : Obj :=
  if q = 257 then
    { variantType := .symlink, parent := some objectIdLostNFound, renameAllowed := true, unlinkAllowed := true }
  else if q = objectIdLostNFound then { initialObj q with children := [257] }
  else initialObj q

theorem symlinkDev_obj : symlinkDev.obj = symlinkObj := by
  funext q
  by_cases h : q = 257
  · subst h
    rfl
  by_cases h1 : q = objectIdRoot
  · subst h1
    rfl
  by_cases h2 : q = objectIdLostNFound
  · subst h2
    rfl
  have hplace := addObjToDir_place_eq lostNFound_notPseudo 257 q
  simp [symlinkDev, symlinkObj, newObjAt, allocEmptyObj, initObj, hashObj, hplace, leftChildren, Dev.modObj,
    Dev.mapBlocks, okEnv, freshDev, h, h1, h2, Ne.symm h1, show (257 : ℕ) ≠ objectIdRoot by decide]

theorem symlinkDev_furnished : Furnished symlinkDev := by
  have hchild : ∀ p, (symlinkObj p).children = if p = objectIdRoot then [objectIdLostNFound]
      else if p = objectIdLostNFound then [257] else [] := by
    intro p
    unfold symlinkObj initialObj
    split_ifs <;> simp_all [objectIdRoot, objectIdLostNFound]
  have hparent : ∀ c, (symlinkObj c).parent = if c = 257 then some objectIdLostNFound
      else if c = objectIdLostNFound then some objectIdRoot else none := by
    intro c
    unfold symlinkObj initialObj
    split_ifs <;> simp_all [objectIdRoot, objectIdLostNFound]
  have htype : ∀ p, (symlinkObj p).variantType ≠ .directory → (symlinkObj p).children = [] := by
    intro p
    unfold symlinkObj initialObj
    split_ifs <;> simp
  have hring : ∀ q, (symlinkObj q).hardLinks = [] := by
    intro q
    unfold symlinkObj initialObj
    split_ifs <;> rfl
  refine ⟨fun p c => ?_, fun p => ?_, fun p => ?_, fun q l hl => ?_, fun q => ?_, fun o ho => ?_, List.nodup_nil⟩ <;>
    rw [symlinkDev_obj] at *
  · rw [hchild, hparent]
    simp only [objectIdRoot, objectIdLostNFound]
    grind
  · rw [hchild]
    split_ifs <;> simp
  · exact htype p
  · rw [hring] at hl
    simp at hl
  · rw [hring]
    exact List.nodup_nil
  · exact absurd ho List.not_mem_nil

end Yaffs
