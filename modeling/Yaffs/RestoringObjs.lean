import Yaffs.Hanging
import Yaffs.Restoring

/-!
# Reading saved objects

`yaffs2_rd_checkpt_objs` reads an object when its directory may not have been read yet : the directory is then
made, and lies in lost+found until its own record comes. `Partly` is what holds between two records.
-/

namespace Yaffs

open LittleEndian

variable {g : Geometry} {e : Env} {d d' : Dev} {o q p c x : ℕ}

/-! ## Directories -/

/-- An object moves to a directory, which may be one for objects that are unlinked. -/
theorem addObjToDir_at (dir o : ℕ) (d : Dev) (q : ℕ) : ∃ u r, (addObjToDir dir o d).obj q =
      { d.obj q with
        parent := if q = o then some dir else (d.obj q).parent
        children := if q = dir then o :: leftChildren d o q else leftChildren d o q
        unlinked := u
        renameAllowed := r } ∧
    (q ≠ o → u = (d.obj q).unlinked ∧ r = (d.obj q).renameAllowed) := by
  by_cases hdir : dir = objectIdUnlinked ∨ dir = objectIdDeleted
  · have hrem := removeObjFromDir_obj o d
    unfold addObjToDir
    generalize removeObjFromDir o d = x at hrem ⊢
    simp only [hdir, if_true]
    by_cases hq : q = o <;> by_cases hqd : q = dir
    · subst hq
      subst hqd
      exact ⟨true, false, by simp [Dev.modObj, hrem], fun h => absurd rfl h⟩
    · subst hq
      exact ⟨true, false, by simp [Dev.modObj, hrem, hqd], fun h => absurd rfl h⟩
    · subst hqd
      exact ⟨_, _, by simp [Dev.modObj, hrem, hq], fun _ => ⟨rfl, rfl⟩⟩
    · exact ⟨_, _, by simp [Dev.modObj, hrem, hq, hqd], fun _ => ⟨rfl, rfl⟩⟩
  · exact ⟨_, _, addObjToDir_place_eq hdir o q d, fun _ => ⟨rfl, rfl⟩⟩

/-- Nothing but objects and the count of unlinked files changes. -/
theorem addObjToDir_rest (dir o : ℕ) (d : Dev) : ∃ n, addObjToDir dir o d =
    { d with obj := (addObjToDir dir o d).obj, nUnlinkedFiles := n } := by
  unfold addObjToDir removeObjFromDir
  cases (d.obj o).parent <;> simp only <;> split_ifs <;> exact ⟨_, rfl⟩

/-- Children lie where they are listed, and the objects with `listed` are listed where they lie. -/
structure Homes (listed : ℕ → Prop) (d : Dev) : Prop where
  child : ∀ p c, c ∈ (d.obj p).children → c ∈ d.ids ∧ (d.obj c).parent = some p
  listed : ∀ c, listed c → ∀ p, (d.obj c).parent = some p → p ∈ d.ids ∧ c ∈ (d.obj p).children
  nodup : ∀ p, (d.obj p).children.Nodup

theorem Homes.congr {l : ℕ → Prop} (h : Homes l d) (hids : d'.ids = d.ids)
    (hplace : ∀ q, (d'.obj q).parent = (d.obj q).parent ∧ (d'.obj q).children = (d.obj q).children) :
    Homes l d' where
  child p c hc := by
    rw [(hplace p).2] at hc
    rw [hids, (hplace c).1]
    exact h.child p c hc
  listed c hl p hp := by
    rw [(hplace c).1] at hp
    rw [hids, (hplace p).2]
    exact h.listed c hl p hp
  nodup p := by
    rw [(hplace p).2]
    exact h.nodup p

/-- The children of `q` without `o`. -/
theorem Homes.mem_left {l : ℕ → Prop} (h : Homes l d) (q : ℕ) :
    c ∈ leftChildren d o q ↔ c ≠ o ∧ c ∈ (d.obj q).children := by
  unfold leftChildren
  split_ifs with hq
  · exact (h.nodup q).mem_erase_iff
  · refine ⟨fun hc => ⟨?_, hc⟩, And.right⟩
    rintro rfl
    exact hq (h.child q c hc).2

theorem Homes.add {l : ℕ → Prop} (h : Homes l d) {dir : ℕ} (hdir : dir ∈ d.ids) (ho : o ∈ d.ids) :
    Homes (fun c => l c ∨ c = o) (addObjToDir dir o d) := by
  have hids : (addObjToDir dir o d).ids = d.ids := by
    obtain ⟨n, hrest⟩ := addObjToDir_rest dir o d
    rw [hrest]
  have hparent : ∀ q, ((addObjToDir dir o d).obj q).parent = if q = o then some dir else (d.obj q).parent :=
      fun q => by
    obtain ⟨u, r, hq, -⟩ := addObjToDir_at dir o d q
    rw [hq]
  have hchildren : ∀ q, ((addObjToDir dir o d).obj q).children =
      if q = dir then o :: leftChildren d o q else leftChildren d o q := fun q => by
    obtain ⟨u, r, hq, -⟩ := addObjToDir_at dir o d q
    rw [hq]
  have hleft : ∀ q, o ∉ leftChildren d o q := fun q hmem => ((h.mem_left q).mp hmem).1 rfl
  refine ⟨fun p c hc => ?_, fun c hc p hp => ?_, fun p => ?_⟩
  · rw [hids, hparent]
    have hmem : (c = o ∧ p = dir) ∨ c ∈ leftChildren d o p := by
      rw [hchildren] at hc
      split_ifs at hc with hpd
      · exact (List.mem_cons.mp hc).imp (fun hco => ⟨hco, hpd⟩) id
      · exact Or.inr hc
    rcases hmem with ⟨rfl, rfl⟩ | hmem
    · exact ⟨ho, if_pos rfl⟩
    · obtain ⟨hne, hold⟩ := (h.mem_left p).mp hmem
      rw [if_neg hne]
      exact h.child p c hold
  · rw [hids, hchildren]
    rw [hparent] at hp
    by_cases hco : c = o
    · rw [if_pos hco, Option.some.injEq] at hp
      subst hco
      subst hp
      exact ⟨hdir, by simp⟩
    · rw [if_neg hco] at hp
      obtain ⟨hpi, hold⟩ := h.listed c (hc.resolve_right hco) p hp
      have hmem := (h.mem_left (o := o) p).mpr ⟨hco, hold⟩
      refine ⟨hpi, ?_⟩
      split_ifs
      · exact List.mem_cons_of_mem o hmem
      · exact hmem
  · have hnodup : (leftChildren d o p).Nodup := by
      unfold leftChildren
      split_ifs
      · exact (h.nodup p).erase o
      · exact h.nodup p
    rw [hchildren]
    split_ifs
    · exact List.nodup_cons.mpr ⟨hleft p, hnodup⟩
    · exact hnodup

/-! ## Objects found or made -/

/-- The block table, the chunks in use, the counters and flash are the same. -/
structure SameBooks (d d' : BlockDev) : Prop where
  info : d'.blockInfo = d.blockInfo
  bits : d'.chunkBits = d.chunkBits
  erased : d'.nErasedBlocks = d.nErasedBlocks
  free : d'.nFreeChunks = d.nFreeChunks
  alloc : d'.alloc = d.alloc
  seqNumber : d'.seqNumber = d.seqNumber
  flash : d'.nand.flash = d.nand.flash
  bad : d'.nand.markedBad = d.nand.markedBad

namespace SameBooks

variable {a b c : BlockDev}

theorem refl (a : BlockDev) : SameBooks a a :=
  ⟨rfl, rfl, rfl, rfl, rfl, rfl, rfl, rfl⟩

theorem trans (h : SameBooks a b) (h' : SameBooks b c) : SameBooks a c :=
  ⟨h'.info.trans h.info, h'.bits.trans h.bits, h'.erased.trans h.erased, h'.free.trans h.free,
    h'.alloc.trans h.alloc, h'.seqNumber.trans h.seqNumber, h'.flash.trans h.flash, h'.bad.trans h.bad⟩

end SameBooks

/-- The reader has not moved. -/
structure Still (d d' : BlockDev) : Prop extends SameBooks d d' where
  checkpt : d'.checkpt = d.checkpt
  blocksInCheckpt : d'.blocksInCheckpt = d.blocksInCheckpt

namespace Still

variable {a b c : BlockDev}

theorem refl (a : BlockDev) : Still a a :=
  ⟨SameBooks.refl a, rfl, rfl⟩

theorem trans (h : Still a b) (h' : Still b c) : Still a c :=
  ⟨h.toSameBooks.trans h'.toSameBooks, h'.checkpt.trans h.checkpt, h'.blocksInCheckpt.trans h.blocksInCheckpt⟩

theorem ahead {W rest : List UInt8} {d₁ : BlockDev} (h : Still a b)
    (ha : Ahead g d₁ W rest a) : Ahead g d₁ W rest b :=
  ha.congr h.flash h.bad h.checkpt h.blocksInCheckpt

end Still

/-- An object `yaffs_new_obj` has just made. -/
def freshObj (g : Geometry) (type : ObjType) : Obj where
  variantType := type
  parent := some objectIdLostNFound
  renameAllowed := true
  unlinkAllowed := true
  file := newFile g type

/-- A new object lies in lost+found. -/
structure Made (g : Geometry) (x : ℕ) (type : ObjType) (d d' : Dev) : Prop where
  ids : d'.ids = x :: d.ids
  deletedFiles : d'.nDeletedFiles = d.nDeletedFiles
  still : Still d.toBlockDev d'.toBlockDev
  obj : ∀ q, d'.obj q = if q = x then freshObj g type else
    { d.obj q with
      children := if q = objectIdLostNFound then x :: (d.obj q).children else (d.obj q).children }

/-- With memory for it, an object is made. -/
theorem allocEmptyObj_made (he : ∀ n, e.allocOk n = true) (hroot : x ≠ objectIdRoot) (hlnf : x ≠ objectIdLostNFound)
    (type : ObjType) (d : Dev) :
    (allocEmptyObj e x d).2 = true ∧ Made g x type d (initObj g x type (allocEmptyObj e x d).1) := by
  obtain ⟨z, hz, hids, hdel, hstill, hself, hdir, hother⟩ : ∃ z, allocEmptyObj e x d =
      (addObjToDir objectIdLostNFound x z, true) ∧ z.ids = d.ids ∧ z.nDeletedFiles = d.nDeletedFiles ∧
      Still d.toBlockDev z.toBlockDev ∧ z.obj x = { parent := some objectIdRoot } ∧
      z.obj objectIdRoot = { d.obj objectIdRoot with children := x :: (d.obj objectIdRoot).children } ∧
      ∀ q, q ≠ x → q ≠ objectIdRoot → z.obj q = d.obj q := by
    unfold allocEmptyObj
    simp only [he, if_true]
    refine ⟨_, rfl, rfl, rfl, ⟨⟨rfl, rfl, rfl, rfl, rfl, rfl, rfl, rfl⟩, rfl, rfl⟩, ?_, ?_, fun q hq hqr => ?_⟩
    · simp [Dev.modObj, hroot]
    · simp [Dev.modObj, Dev.mapBlocks, Ne.symm hroot]
    · simp [Dev.modObj, Dev.mapBlocks, hq, hqr]
  rw [hz]
  refine ⟨rfl, ?_⟩
  have hobj := fun q => addObjToDir_place_eq lostNFound_notPseudo x q z
  obtain ⟨n, hrest⟩ := addObjToDir_rest objectIdLostNFound x z
  generalize addObjToDir objectIdLostNFound x z = y at hobj hrest
  have hleft : ∀ q, q ≠ x → leftChildren z x q = (d.obj q).children := fun q hq => by
    rw [leftChildren, hself]
    by_cases hqr : q = objectIdRoot
    · subst hqr
      simp [hdir]
    · simp [hother q hq hqr, Ne.symm hqr]
  have hlx : leftChildren z x x = [] := by
    rw [leftChildren, hself]
    simp [Ne.symm hroot]
  refine ⟨?_, ?_, ?_, fun q => ?_⟩
  · change x :: y.ids = _
    rw [hrest, ← hids]
  · change y.nDeletedFiles = _
    rw [hrest, ← hdel]
  · change Still _ y.toBlockDev
    rw [hrest]
    exact hstill
  · by_cases hq : q = x
    · subst hq
      rw [if_pos rfl]
      simp [initObj, hashObj, Dev.modObj, hobj, hself, hlx, freshObj, newFile, hlnf]
    · have hplace : (initObj g x type y).obj q = y.obj q := by simp [initObj, hashObj, Dev.modObj, hq]
      rw [if_neg hq, hplace, hobj, if_neg hq, hleft q hq]
      by_cases hqr : q = objectIdRoot
      · subst hqr
        rw [hdir]
      · rw [hother q hq hqr]

theorem newObjAt_made (he : ∀ n, e.allocOk n = true) (hroot : x ≠ objectIdRoot) (hlnf : x ≠ objectIdLostNFound)
    (type : ObjType) (d : Dev) : (newObjAt g e x type d).2 = some x ∧ Made g x type d (newObjAt g e x type d).1 := by
  obtain ⟨y, hy, hobj, hids, hdel, hstill⟩ : ∃ y, (if type = .file then d.onBlocks (getTnode e) else (d, true)) =
      (y, true) ∧
      y.obj = d.obj ∧ y.ids = d.ids ∧ y.nDeletedFiles = d.nDeletedFiles ∧ Still d.toBlockDev y.toBlockDev := by
    split_ifs
    · refine ⟨_, Prod.ext rfl (he _), rfl, rfl, rfl, ?_⟩
      exact ⟨⟨rfl, rfl, rfl, rfl, rfl, rfl, rfl, rfl⟩, rfl, rfl⟩
    · exact ⟨d, rfl, rfl, rfl, rfl, Still.refl _⟩
  obtain ⟨hok, hmade⟩ := allocEmptyObj_made (g := g) he hroot hlnf type y
  unfold newObjAt
  rw [hy]
  simp only [if_true, hok]
  refine ⟨trivial, by rw [hmade.ids, hids], hmade.deletedFiles.trans hdel, hstill.trans hmade.still, fun q => ?_⟩
  rw [hmade.obj, hobj]

/-! ## Partly read -/

/-- `YAFFS_OBJECTID_ROOT` and the other directories a device is mounted with. -/
def isInitialDir (o : ℕ) : Prop :=
  o = objectIdRoot ∨ o = objectIdLostNFound ∨ o = objectIdUnlinked ∨ o = objectIdDeleted

/-- Objects that can be stored and found again : what the records have room for, and how directories and links
go together. -/
structure StorableObjs (g : Geometry) (d : Dev) : Prop where
  nodup : d.ids.Nodup
  range : ∀ o ∈ savedIds d, 0 < o ∧ o < 2 ^ 31
  initial : ∀ o, isInitialDir o → o ∈ savedIds d ∧ (d.obj o).variantType = .directory
  fits : ∀ o ∈ savedIds d, (d.obj o).Fits
  level : ∀ o ∈ savedIds d, (d.obj o).variantType = .file → (d.obj o).file.topLevel ≤ tnodesMaxLevel
  narrow : ∀ o ∈ savedIds d, (d.obj o).variantType = .file → ∀ q ∈ (d.obj o).file.leafList, q.2.Narrow g
  parent : ∀ o ∈ savedIds d, ∀ p, (d.obj o).parent = some p → p ∈ savedIds d ∧ (d.obj p).variantType = .directory
  orphan : ∀ o ∈ savedIds d, (d.obj o).parent = none → o = objectIdRoot ∨ o = objectIdUnlinked ∨ o = objectIdDeleted

/-- What is read of an object, without its tree. -/
structure RecordRead (ob q : Obj) : Prop where
  variantType : q.variantType = ob.variantType
  parent : q.parent = ob.parent
  hdrChunk : q.hdrChunk = ob.hdrChunk
  nDataChunks : q.nDataChunks = ob.nDataChunks
  deleted : q.deleted = ob.deleted
  softDel : q.softDel = ob.softDel
  unlinked : q.unlinked = ob.unlinked
  fake : q.fake = ob.fake
  renameAllowed : q.renameAllowed = ob.renameAllowed
  unlinkAllowed : q.unlinkAllowed = ob.unlinkAllowed
  fileSize : ob.variantType = .file → q.file.fileSize = ob.file.fileSize ∧ q.file.storedSize = ob.file.fileSize
  equivId : ob.variantType = .hardlink → q.equivId = ob.equivId

/-- The chunks of a file are found as in `ob`. -/
def TreeRead (ob q : Obj) : Prop :=
  ob.variantType = .file → ∀ k ≤ maxChunkId, q.file.entry k = ob.file.entry k

/-- An object whose record has not been read : it has its type, and nothing else. -/
structure Unread (g : Geometry) (o : ℕ) (ob q : Obj) : Prop where
  variantType : q.variantType = ob.variantType
  file : ob.variantType = .file → q.file = newFile g .file
  orphan : o = objectIdRoot ∨ o = objectIdUnlinked ∨ o = objectIdDeleted → q.parent = none

/-- Some of the objects of `d` have been read : those with `done` are in their directories, and `what` holds of
those that have been made. -/
structure Partly (d : Dev) (done : ℕ → Prop) (what : ℕ → Obj → Prop) (s : Dev) : Prop where
  nodup : s.ids.Nodup
  known : ∀ o ∈ s.ids, o ∈ savedIds d
  initial : ∀ o, isInitialDir o → o ∈ s.ids
  homes : Homes done s
  plain : ∀ o, (s.obj o).deferredFree = false ∧ (s.obj o).hardLinks = [] ∧ (s.obj o).equivObj = none
  what : ∀ o ∈ s.ids, what o (s.obj o)

/-- Nothing about the children of an object matters. -/
def Childless (what : ℕ → Obj → Prop) : Prop :=
  ∀ o ob l, what o ob → what o { ob with children := l }

/-- An object that is asked for is there, made if it has to be. -/
structure Located (g : Geometry) (d : Dev) (done : ℕ → Prop) (what : ℕ → Obj → Prop) (x : ℕ)
  (s s' : ScanDev) : Prop where
  partly : Partly d done what s'.toDev
  mem : x ∈ s'.ids
  keeps : ∀ o ∈ s.ids, o ∈ s'.ids
  still : Still s.toBlockDev s'.toBlockDev
  deletedFiles : s'.nDeletedFiles = s.nDeletedFiles
  hardList : s'.hardList = s.hardList

theorem Made.homes {done : ℕ → Prop} {type : ObjType} (hm : Made g x type d d') (h : Homes done d) (hx : x ∉ d.ids)
    (hdone : ∀ c, done c → c ∈ d.ids) : Homes done d' := by
  have hchildren : ∀ p, (d'.obj p).children =
      if p = x then [] else if p = objectIdLostNFound then x :: (d.obj p).children else (d.obj p).children :=
        fun p => by
    rw [hm.obj]
    split_ifs <;> rfl
  have hparent : ∀ c, c ≠ x → (d'.obj c).parent = (d.obj c).parent := fun c hc => by
    rw [hm.obj, if_neg hc]
  have hself : (d'.obj x).parent = some objectIdLostNFound := by
    rw [hm.obj, if_pos rfl]
    rfl
  refine ⟨fun p c hc => ?_, fun c hc p hp => ?_, fun p => ?_⟩
  · rw [hchildren] at hc
    rw [hm.ids]
    have hold : c ∈ (d.obj p).children → c ∈ x :: d.ids ∧ (d'.obj c).parent = some p := fun hmem => by
      obtain ⟨hci, hpar⟩ := h.child p c hmem
      rw [hparent c fun hcx => hx (hcx ▸ hci)]
      exact ⟨List.mem_cons_of_mem x hci, hpar⟩
    split_ifs at hc with hpx hpl
    · exact absurd hc List.not_mem_nil
    · rcases List.mem_cons.mp hc with rfl | hc
      · exact ⟨List.mem_cons_self, hpl ▸ hself⟩
      · exact hold hc
    · exact hold hc
  · have hci := hdone c hc
    rw [hparent c fun hcx => hx (hcx ▸ hci)] at hp
    obtain ⟨hpi, hmem⟩ := h.listed c hc p hp
    rw [hm.ids, hchildren, if_neg fun hpx : p = x => hx (hpx ▸ hpi)]
    refine ⟨List.mem_cons_of_mem x hpi, ?_⟩
    split_ifs
    · exact List.mem_cons_of_mem x hmem
    · exact hmem
  · rw [hchildren]
    split_ifs
    · exact List.nodup_nil
    · exact List.nodup_cons.mpr ⟨fun hmem => hx (h.child p x hmem).1, h.nodup p⟩
    · exact h.nodup p

theorem Partly.find {done : ℕ → Prop} {what : ℕ → Obj → Prop} {s : ScanDev} (h : Partly d done what s.toDev)
    (he : ∀ n, e.allocOk n = true) (hd : StorableObjs g d) (hx : x ∈ savedIds d) (hdone : ∀ c, done c → c ∈ s.ids)
    (hless : Childless what) (hnew : x ∉ s.ids → what x (freshObj g (d.obj x).variantType)) :
    (findOrCreateByNumber g e x (d.obj x).variantType s).2 = some x ∧
    Located g d done what x s (findOrCreateByNumber g e x (d.obj x).variantType s).1 := by
  obtain ⟨hpos, hlt⟩ := hd.range x hx
  unfold findOrCreateByNumber
  rw [if_pos ⟨hpos, hlt⟩]
  by_cases hmem : x ∈ s.ids
  · have hfind : findByNumber s.toDev x = some x := by
      unfold findByNumber
      rw [if_pos ⟨hmem, (h.plain x).1⟩]
    rw [hfind]
    exact ⟨rfl, h, hmem, fun _ ho => ho, Still.refl _, rfl, rfl⟩
  · have hfind : findByNumber s.toDev x = none := by
      unfold findByNumber
      rw [if_neg fun hx => hmem hx.1]
    have hnum : s.onDev (newNumber x) = (s, x) := by
      unfold ScanDev.onDev newNumber
      rw [if_neg (by omega), if_pos hlt]
    have hinit : ¬isInitialDir x := fun hi => hmem (h.initial x hi)
    have hroot : x ≠ objectIdRoot := fun hr => hinit (Or.inl hr)
    have hlnf : x ≠ objectIdLostNFound := fun hr => hinit (Or.inr (Or.inl hr))
    obtain ⟨hsome, hm⟩ := newObjAt_made (g := g) he hroot hlnf (d.obj x).variantType s.toDev
    rw [hfind, hnum]
    dsimp only [ScanDev.onDev, ScanDev.modScan]
    refine ⟨hsome, ⟨?_, ?_, ?_, ?_, fun o => ?_, fun o ho => ?_⟩, ?_, fun o ho => ?_, hm.still, hm.deletedFiles,
      rfl⟩
    · rw [hm.ids]
      exact List.nodup_cons.mpr ⟨hmem, h.nodup⟩
    · intro o ho
      rw [hm.ids] at ho
      rcases List.mem_cons.mp ho with rfl | ho
      · exact hx
      · exact h.known o ho
    · intro o ho
      rw [hm.ids]
      exact List.mem_cons_of_mem x (h.initial o ho)
    · exact hm.homes h.homes hmem hdone
    · rw [hm.obj]
      split_ifs
      · exact ⟨rfl, rfl, rfl⟩
      all_goals exact h.plain o
    · rw [hm.obj]
      by_cases hox : o = x
      · rw [if_pos hox, hox]
        exact hnew hmem
      · rw [if_neg hox]
        refine hless o _ _ (h.what o ?_)
        rw [hm.ids] at ho
        exact (List.mem_cons.mp ho).resolve_left hox
    · change x ∈ (newObjAt g e x (d.obj x).variantType s.toDev).1.ids
      rw [hm.ids]
      exact List.mem_cons_self
    · change o ∈ (newObjAt g e x (d.obj x).variantType s.toDev).1.ids
      rw [hm.ids]
      exact List.mem_cons_of_mem x ho

/-! ## The record of an object -/

/-- What is known of an object when those of `R` have been read. -/
def whatRead (g : Geometry) (d : Dev) (R : List ℕ) (o : ℕ) (q : Obj) : Prop :=
  (o ∈ R → RecordRead (d.obj o) q ∧ TreeRead (d.obj o) q) ∧ (o ∉ R → Unread g o (d.obj o) q)

/-- An object whose record has been read, but not its tree. -/
structure HalfRead (g : Geometry) (ob q : Obj) : Prop extends RecordRead ob q where
  file : ob.variantType = .file →
    q.file = { newFile g .file with fileSize := ob.file.fileSize, storedSize := ob.file.fileSize }

/-- What is known of an object while `o` is being read. -/
def whatHalf (g : Geometry) (d : Dev) (R : List ℕ) (o x : ℕ) (q : Obj) : Prop :=
  (x = o → HalfRead g (d.obj o) q) ∧ (x ≠ o → whatRead g d R x q)

theorem whatRead_childless (g : Geometry) (d : Dev) (R : List ℕ) : Childless (whatRead g d R) :=
  fun _ _ _ h => ⟨fun hR => ⟨⟨(h.1 hR).1.1, (h.1 hR).1.2, (h.1 hR).1.3, (h.1 hR).1.4, (h.1 hR).1.5, (h.1 hR).1.6,
      (h.1 hR).1.7, (h.1 hR).1.8, (h.1 hR).1.9, (h.1 hR).1.10, (h.1 hR).1.11, (h.1 hR).1.12⟩, (h.1 hR).2⟩,
    fun hR => ⟨(h.2 hR).1, (h.2 hR).2, (h.2 hR).3⟩⟩

variable {R : List ℕ} {s s' : ScanDev} {cp : List UInt8}

theorem Partly.findRead (h : Partly d (· ∈ R) (whatRead g d R) s.toDev) (he : ∀ n, e.allocOk n = true)
    (hd : StorableObjs g d) (hx : x ∈ savedIds d) (hR : ∀ o ∈ R, o ∈ s.ids) :
    (findOrCreateByNumber g e x (d.obj x).variantType s).2 = some x ∧
    Located g d (· ∈ R) (whatRead g d R) x s (findOrCreateByNumber g e x (d.obj x).variantType s).1 := by
  refine h.find he hd hx hR (whatRead_childless g d R) fun hmem => ⟨fun hxR => absurd (hR x hxR) hmem, fun _ => ?_⟩
  have hinit : ¬isInitialDir x := fun hi => hmem (h.initial x hi)
  refine ⟨rfl, fun hf => by rw [freshObj, hf], fun ho => absurd ?_ hinit⟩
  rcases ho with h1 | h1 | h1
  · exact Or.inl h1
  · exact Or.inr (Or.inr (Or.inl h1))
  · exact Or.inr (Or.inr (Or.inr h1))

/-- The fields of an object are those of its record. -/
theorem checkptObjFields_read {ob q : Obj} (hcp : StoredObj o ob cp) (htype : q.variantType = ob.variantType)
    (hfits : ob.Fits) (hparent : q.parent = ob.parent) (hfile : ob.variantType = .file → q.file = newFile g .file) :
    HalfRead g ob (checkptObjFields cp q) := by
  obtain ⟨h3, h4, h5, h6, h7, h8⟩ := hcp.flag
  have hsize := hcp.size
  unfold Obj.sizeOrEquiv at hsize
  refine ⟨⟨hcp.variantType, hparent, hcp.hdrChunk, hcp.nDataChunks, ?_, ?_, ?_, ?_, ?_, ?_, fun hf => ?_,
    fun hl => ?_⟩,
    fun hf => ?_⟩
  · simp only [checkptObjFields, h3, decide_toNat]
  · simp only [checkptObjFields, h4, decide_toNat]
  · simp only [checkptObjFields, h5, decide_toNat]
  · simp only [checkptObjFields, h6, decide_toNat]
  · simp only [checkptObjFields, h7, decide_toNat]
  · simp only [checkptObjFields, h8, decide_toNat]
  · rw [if_pos hf] at hsize
    simp only [checkptObjFields, htype, hf, if_true, hsize, and_self]
  · rw [if_neg (by rw [hl]; simp), if_pos hl] at hsize
    simp only [checkptObjFields, htype, hl, if_true, hsize]
    exact Nat.mod_eq_of_lt hfits.equivId
  · rw [if_pos hf] at hsize
    simp only [checkptObjFields, htype, hf, if_true, hsize]
    rw [hfile hf]

/-- The record of `o` is read, on a device on which `o` is in its directory. -/
theorem Partly.setFields (hhomes : Homes (fun c => c ∈ R ∨ c = o) s.toDev) (hnodup : s.ids.Nodup)
    (hknown : ∀ x ∈ s.ids, x ∈ savedIds d) (hinit : ∀ x, isInitialDir x → x ∈ s.ids)
    (hplain : ∀ x, (s.obj x).deferredFree = false ∧ (s.obj x).hardLinks = [] ∧ (s.obj x).equivObj = none)
    (hself : HalfRead g (d.obj o) (checkptObjFields cp (s.obj o)))
    (hothers : ∀ x ∈ s.ids, x ≠ o → whatRead g d R x (s.obj x)) :
    Partly d (fun c => c ∈ R ∨ c = o) (whatHalf g d R o) (s.modObj o (checkptObjFields cp)) := by
  have hobj : ∀ x, (s.modObj o (checkptObjFields cp)).obj x =
      if x = o then checkptObjFields cp (s.obj o) else s.obj x := fun x => by
    simp only [Dev.modObj, Function.update_apply]
  refine ⟨hnodup, hknown, hinit, hhomes.congr rfl fun q => ?_, fun x => ?_,
    fun x hx => ⟨fun hxo => ?_, fun hxo => ?_⟩⟩
  · rw [hobj]
    split_ifs with hq
    · subst hq
      exact ⟨rfl, rfl⟩
    · exact ⟨rfl, rfl⟩
  · rw [hobj]
    split_ifs with hq
    · exact hplain o
    · exact hplain x
  · rw [hobj, if_pos hxo]
    exact hself
  · rw [hobj, if_neg hxo]
    exact hothers x hx hxo

theorem checkptObjToObj_half (he : ∀ n, e.allocOk n = true) (hd : StorableObjs g d)
    (h : Partly d (· ∈ R) (whatRead g d R) s.toDev) (ho : o ∈ savedIds d) (hmem : o ∈ s.ids) (hnew : o ∉ R)
    (hR : ∀ x ∈ R, x ∈ s.ids) (hcp : StoredObj o (d.obj o) cp) :
    (checkptObjToObj g e o cp s).2 = true ∧
    Located g d (fun c => c ∈ R ∨ c = o) (whatHalf g d R o) o s (checkptObjToObj g e o cp s).1 := by
  have hunread := ((h.what o hmem).2 hnew)
  have htype : ¬(s.obj o).variantType ≠ ObjType.ofStored (checkptObjBitGet cp 0 3) := by
    rw [hcp.variantType, hunread.variantType]
    simp
  unfold checkptObjToObj
  rw [if_neg htype]
  dsimp only
  cases hpar : (d.obj o).parent with
  | none =>
    have horphan := hd.orphan o ho hpar
    rw [if_pos (by rw [hcp.parentId, hpar]; rfl)]
    refine ⟨rfl, ?_, hmem, fun _ hx => hx, Still.refl _, rfl, rfl⟩
    have hhomes : Homes (fun c => c ∈ R ∨ c = o) s.toDev :=
      ⟨h.homes.child, fun c hc p hp => hc.elim (fun hcR => h.homes.listed c hcR p hp) fun hco => by
        rw [hco, hunread.orphan horphan] at hp
        exact absurd hp (by simp), h.homes.nodup⟩
    exact Partly.setFields hhomes h.nodup h.known h.initial h.plain
      (checkptObjFields_read hcp hunread.variantType (hd.fits o ho) ((hunread.orphan horphan).trans hpar.symm) hunread.file)
      fun x hx _ => h.what x hx
  | some p =>
    obtain ⟨hp, hdirType⟩ := hd.parent o ho p hpar
    have hpos := (hd.range p hp).1
    obtain ⟨hsome, hfound⟩ := h.findRead he hd hp hR
    rw [hdirType] at hsome hfound
    rw [if_neg (by rw [hcp.parentId, hpar, Option.getD_some]; omega), hcp.parentId, hpar, Option.getD_some, hsome]
    generalize (findOrCreateByNumber g e p .directory s).1 = s1 at hfound
    dsimp only
    have htype1 : (s1.obj p).variantType = .directory := by
      by_cases hpR : p ∈ R
      · rw [((hfound.partly.what p hfound.mem).1 hpR).1.variantType, hdirType]
      · rw [((hfound.partly.what p hfound.mem).2 hpR).variantType, hdirType]
    rw [if_neg (by rw [htype1]; simp)]
    have hmem1 := hfound.keeps o hmem
    have hunread1 := (hfound.partly.what o hmem1).2 hnew
    obtain ⟨n, hrest⟩ := addObjToDir_rest p o s1.toDev
    have hids : (addObjToDir p o s1.toDev).ids = s1.ids := by rw [hrest]
    have hblk : (addObjToDir p o s1.toDev).toBlockDev = s1.toBlockDev := by rw [hrest]
    have hdel : (addObjToDir p o s1.toDev).nDeletedFiles = s1.nDeletedFiles := by rw [hrest]
    have hat := addObjToDir_at p o s1.toDev
    have hhomes := hfound.partly.homes.add hfound.mem hmem1
    have hstill : Still s1.toBlockDev (addObjToDir p o s1.toDev).toBlockDev := by
      rw [hblk]
      exact Still.refl _
    refine ⟨rfl, ?_, ?_, fun x hx => ?_, hfound.still.trans hstill, hdel.trans hfound.deletedFiles, hfound.hardList⟩
    · refine Partly.setFields (s := s1.mapDev (addObjToDir p o)) hhomes ?_ (fun x hx => ?_) (fun x hx => ?_)
        (fun x => ?_)
        ?_ fun x hx hxo => ?_
      · change (addObjToDir p o s1.toDev).ids.Nodup
        rw [hids]
        exact hfound.partly.nodup
      · change x ∈ (addObjToDir p o s1.toDev).ids at hx
        rw [hids] at hx
        exact hfound.partly.known x hx
      · change x ∈ (addObjToDir p o s1.toDev).ids
        rw [hids]
        exact hfound.partly.initial x hx
      · obtain ⟨u, r, heq, -⟩ := hat x
        change ((addObjToDir p o s1.toDev).obj x).deferredFree = false ∧
          ((addObjToDir p o s1.toDev).obj x).hardLinks = [] ∧ ((addObjToDir p o s1.toDev).obj x).equivObj = none
        rw [heq]
        exact hfound.partly.plain x
      · obtain ⟨u, r, heq, -⟩ := hat o
        have hself : (addObjToDir p o s1.toDev).obj o = { s1.obj o with
            parent := some p
            children := if o = p then o :: leftChildren s1.toDev o o else leftChildren s1.toDev o o
            unlinked := u
            renameAllowed := r } := heq.trans (by rw [if_pos rfl])
        change HalfRead g (d.obj o) (checkptObjFields cp ((addObjToDir p o s1.toDev).obj o))
        rw [hself]
        exact checkptObjFields_read hcp hunread1.variantType (hd.fits o ho) hpar.symm hunread1.file
      · obtain ⟨u, r, heq, hflags⟩ := hat x
        obtain ⟨rfl, rfl⟩ := hflags hxo
        change x ∈ (addObjToDir p o s1.toDev).ids at hx
        rw [hids] at hx
        change whatRead g d R x ((addObjToDir p o s1.toDev).obj x)
        rw [heq, if_neg hxo]
        exact whatRead_childless g d R x _ _ (hfound.partly.what x hx)
    · change o ∈ (addObjToDir p o s1.toDev).ids
      rw [hids]
      exact hmem1
    · change x ∈ (addObjToDir p o s1.toDev).ids
      rw [hids]
      exact hfound.keeps x hx

/-! ## The tree of a file -/

section

variable {d₁ : BlockDev} {W rest : List UInt8}

/-- The tree of the file `o` now holds `M`; nothing else of the objects is touched. -/
structure Treed (o : ℕ) (M : ℕ → ℕ) (s s' : ScanDev) : Prop where
  others : ∀ x, x ≠ o → s'.obj x = s.obj x
  self : ∃ f, s'.obj o = { s.obj o with file := f } ∧ f.Sound ∧ FileVar.SameFile (s.obj o).file f ∧
    ∀ k ≤ maxChunkId, f.entry k = M k
  ids : s'.ids = s.ids
  hardList : s'.hardList = s.hardList
  deletedFiles : s'.nDeletedFiles = s.nDeletedFiles
  books : SameBooks s.toBlockDev s'.toBlockDev

/-- The first chunk of the next tnode, or the mark behind the last one. -/
def nextBase : List (ℕ × Tnode 0) → ℕ
  | [] => 2 ^ 32 - 1
  | q :: _ => q.1

/-- The bytes of a tree behind the first word. -/
def treeRest (g : Geometry) : List (ℕ × Tnode 0) → List UInt8
  | [] => []
  | q :: ls => tnodeBytes g q.2 ++ (ls.flatMap (leafBytes g) ++ u32Bytes (2 ^ 32 - 1))

theorem treeBytes_eq (ls : List (ℕ × Tnode 0)) :
    ls.flatMap (leafBytes g) ++ u32Bytes (2 ^ 32 - 1) = u32Bytes (nextBase ls) ++ treeRest g ls := by
  cases ls with
  | nil => simp [nextBase, treeRest]
  | cons q ls => simp [nextBase, treeRest, leafBytes]

theorem rdWord_u32Bytes {n : ℕ} (h : n < 2 ^ 32) : rdWord (u32Bytes n) 0 = n := by
  have hword := rdWord_ofWords [n] 0 (by simp)
  rw [List.flatMap_singleton] at hword
  exact hword.trans (Nat.mod_eq_of_lt h)

theorem foldl_putLeaf_congr (ls : List (ℕ × Tnode 0)) {M M' : ℕ → ℕ} {k : ℕ} (h : M k = M' k) :
    ls.foldl putLeaf M k = ls.foldl putLeaf M' k := by
  induction ls generalizing M M' with
  | nil => exact h
  | cons q ls ih =>
    refine ih ?_
    unfold putLeaf
    rw [h]

theorem nextBase_lt {ls : List (ℕ × Tnode 0)} (h : ∀ q ∈ ls, q.1 ≤ maxChunkId) : nextBase ls < 2 ^ 32 := by
  cases ls with
  | nil => norm_num [nextBase]
  | cons q ls =>
    have hq := h q List.mem_cons_self
    have hmax : maxChunkId < 2 ^ 32 := by decide
    exact hq.trans_lt hmax

/-- The tnodes of a tree are read, one after the other. -/
theorem rdCheckptTnodesLoop_treed (hh : HoldsStream g d₁ W) (he : ∀ n, e.allocOk n = true)
    (ls : List (ℕ × Tnode 0)) :
    ∀ (fuel : ℕ) (s : ScanDev), ls.length < fuel → (∀ q ∈ ls, q.1 ≤ maxChunkId) → (∀ q ∈ ls, q.2.Narrow g) →
      (s.obj o).file.Sound → Ahead g d₁ W (treeRest g ls ++ rest) s.toBlockDev →
      (rdCheckptTnodesLoop g e o fuel (nextBase ls) s).2 = true ∧
      Ahead g d₁ W rest (rdCheckptTnodesLoop g e o fuel (nextBase ls) s).1.toBlockDev ∧
      Treed o (ls.foldl putLeaf (s.obj o).file.entry) s (rdCheckptTnodesLoop g e o fuel (nextBase ls) s).1 := by
  induction ls with
  | nil =>
    intro fuel s hfuel _ _ hsound hahead
    obtain ⟨n, rfl⟩ : ∃ n, fuel = n + 1 := ⟨fuel - 1, by simp at hfuel; omega⟩
    have hloop : rdCheckptTnodesLoop g e o (n + 1) (nextBase []) s = (s, true) := by
      rw [rdCheckptTnodesLoop, nextBase, if_pos rfl]
    rw [hloop]
    exact ⟨rfl, hahead, fun _ _ => rfl, ⟨_, rfl, hsound, FileVar.SameFile.refl _, fun _ _ => rfl⟩, rfl, rfl, rfl,
      SameBooks.refl _⟩
  | cons q ls ih =>
    intro fuel s hfuel hbase hnarrow hsound hahead
    obtain ⟨n, rfl⟩ : ∃ n, fuel = n + 1 := ⟨fuel - 1, by simp at hfuel; omega⟩
    have hq := hbase q List.mem_cons_self
    have hmax : maxChunkId < 2 ^ 32 - 1 := by decide
    have hbytes : treeRest g (q :: ls) ++ rest = tnodeBytes g q.2 ++
        (u32Bytes (nextBase ls) ++ (treeRest g ls ++ rest)) := by
      rw [treeRest, treeBytes_eq, List.append_assoc, List.append_assoc]
    have hstill : Still s.toBlockDev (s.onDev fun d => d.onBlocks (getTnode e)).1.toBlockDev :=
      ⟨⟨rfl, rfl, rfl, rfl, rfl, rfl, rfl, rfl⟩, rfl, rfl⟩
    have halloc : (s.onDev fun d => d.onBlocks (getTnode e)).2 = true := he _
    rw [hbytes] at hahead
    obtain ⟨cp1, k1, h1, hahead1⟩ := rdBytes_ahead hh (hstill.ahead hahead) (length_tnodeBytes q.2)
    obtain ⟨s1, hs1⟩ : ∃ s1, s1 = (s.onDev fun d => d.onBlocks (getTnode e)).1.atCursor cp1 k1 := ⟨_, rfl⟩
    rw [← hs1] at h1 hahead1
    have hobj1 : s1.obj = s.obj := by rw [hs1]; rfl
    have hbooks1 : SameBooks s.toBlockDev s1.toBlockDev := by
      rw [hs1]
      exact ⟨rfl, rfl, rfl, rfl, rfl, rfl, rfl, rfl⟩
    have hrest1 : s1.ids = s.ids ∧ s1.hardList = s.hardList ∧ s1.nDeletedFiles = s.nDeletedFiles := by
      rw [hs1]
      exact ⟨rfl, rfl, rfl⟩
    -- The tnode goes into the tree.
    have hleaf := FileVar.addLeaf_spec he (f := (s1.obj o).file) (by rw [hobj1]; exact hsound) hq q.2 s1.toBlockDev
    obtain ⟨s2, hs2⟩ : ∃ s2, s2 = (s1.onDev (loadCheckptLeaf e o q.1 q.2)).1 := ⟨_, rfl⟩
    have hload : (s1.onDev (loadCheckptLeaf e o q.1 q.2)).2 = true := hleaf.done
    have hblk2 : s2.toBlockDev = ((s1.obj o).file.addLeaf e q.1 q.2 s1.toBlockDev).1 := by rw [hs2]; rfl
    have hobj2 : s2.obj = Function.update s1.obj o
        { s1.obj o with file := ((s1.obj o).file.addLeaf e q.1 q.2 s1.toBlockDev).2.1 } := by rw [hs2]; rfl
    have hrest2 : s2.ids = s1.ids ∧ s2.hardList = s1.hardList ∧ s2.nDeletedFiles = s1.nDeletedFiles := by
      rw [hs2]
      exact ⟨rfl, rfl, rfl⟩
    generalize (s1.obj o).file.addLeaf e q.1 q.2 s1.toBlockDev = r at hleaf hblk2 hobj2
    have hstill2 : Still s1.toBlockDev s2.toBlockDev := by
      rw [hblk2]
      obtain ⟨n', t', hcounts⟩ := hleaf.counts
      rw [hcounts]
      exact ⟨⟨rfl, rfl, rfl, rfl, rfl, rfl, rfl, rfl⟩, rfl, rfl⟩
    obtain ⟨cp3, k3, h3, hahead3⟩ := rdBytes_ahead hh (hstill2.ahead hahead1) (n := 4) rfl
    obtain ⟨s3, hs3⟩ : ∃ s3, s3 = s2.atCursor cp3 k3 := ⟨_, rfl⟩
    rw [← hs3] at h3 hahead3
    have hobj3 : s3.obj = s2.obj := by rw [hs3]; rfl
    have hbooks3 : SameBooks s2.toBlockDev s3.toBlockDev := by
      rw [hs3]
      exact ⟨rfl, rfl, rfl, rfl, rfl, rfl, rfl, rfl⟩
    have hrest3 : s3.ids = s2.ids ∧ s3.hardList = s2.hardList ∧ s3.nDeletedFiles = s2.nDeletedFiles := by
      rw [hs3]
      exact ⟨rfl, rfl, rfl⟩
    have hself3 : s3.obj o = { s.obj o with file := r.2.1 } := by
      rw [hobj3, hobj2, Function.update_self, hobj1]
    have hloop : rdCheckptTnodesLoop g e o (n + 1) (nextBase (q :: ls)) s =
        rdCheckptTnodesLoop g e o n (nextBase ls) s3 := by
      have hword : rdWord (u32Bytes (nextBase ls)) 0 = nextBase ls :=
        rdWord_u32Bytes (nextBase_lt fun q' hq' => hbase q' (List.mem_cons_of_mem q hq'))
      rw [rdCheckptTnodesLoop, nextBase, if_neg (by omega)]
      dsimp only
      rw [if_pos halloc, h1]
      dsimp only
      rw [tnodeOfBytes_tnodeBytes (hnarrow q List.mem_cons_self), if_pos hload, ← hs2, h3]
      dsimp only
      rw [hword]
    rw [hloop]
    obtain ⟨hok, hend, htreed⟩ := ih n s3 (by simpa using hfuel)
        (fun q' hq' => hbase q' (List.mem_cons_of_mem q hq'))
      (fun q' hq' => hnarrow q' (List.mem_cons_of_mem q hq')) (by rw [hself3]; exact hleaf.sound) hahead3
    refine ⟨hok, hend, fun x hx => ?_, ?_, ?_, ?_, ?_, ?_⟩
    · rw [htreed.others x hx, hobj3, hobj2, Function.update_of_ne hx, hobj1]
    · obtain ⟨f, hf, hfs, hsame, hentry⟩ := htreed.self
      rw [hself3] at hf hsame hentry
      refine ⟨f, hf, hfs, ?_, fun k hk => ?_⟩
      · rw [← hobj1]
        exact hleaf.same.trans hsame
      · rw [hentry k hk, List.foldl_cons, ← hobj1]
        exact foldl_putLeaf_congr ls (hleaf.entry k hk)
    · rw [htreed.ids, hrest3.1, hrest2.1, hrest1.1]
    · rw [htreed.hardList, hrest3.2.1, hrest2.2.1, hrest1.2.1]
    · rw [htreed.deletedFiles, hrest3.2.2, hrest2.2.2, hrest1.2.2]
    · exact ((hbooks1.trans hstill2.toSameBooks).trans hbooks3).trans htreed.books

theorem length_le_flatMap {α β : Type*} (f : α → List β) (l : List α) (h : ∀ a ∈ l, 0 < (f a).length) :
    l.length ≤ (l.flatMap f).length := by
  induction l with
  | nil => exact Nat.zero_le _
  | cons a l ih =>
    have ha := h a List.mem_cons_self
    have hl := ih fun b hb => h b (List.mem_cons_of_mem a hb)
    rw [List.flatMap_cons, List.length_append, List.length_cons]
    omega

/-- Bytes before the reader are no more than it gets from a checkpoint. -/
theorem Ahead.length_le (hh : HoldsStream g d₁ W) {b : BlockDev}
    (h : Ahead g d₁ W rest b) : rest.length ≤ checkptReadLimit g := by
  obtain ⟨V, -, hV, -⟩ := h.behind
  have hle := hh.fits
  rw [hV, List.length_append] at hle
  unfold checkptReadLimit
  omega

theorem newFile_sound (g : Geometry) (m n : ℕ) :
    ({ newFile g .file with fileSize := m, storedSize := n } : FileVar).Sound ∧
    ∀ k, ({ newFile g .file with fileSize := m, storedSize := n } : FileVar).entry k = 0 := by
  refine ⟨⟨Nat.zero_le _, trivial⟩, fun k => ?_⟩
  unfold FileVar.entry FileVar.find
  split_ifs <;> rfl

/-- A tree is read into a new file. -/
theorem rdCheckptTnodes_treed (hh : HoldsStream g d₁ W) (he : ∀ n, e.allocOk n = true) {f : FileVar} {m n : ℕ}
    (hl : f.topLevel ≤ tnodesMaxLevel) (hnarrow : ∀ q ∈ f.leafList, q.2.Narrow g)
    (hfile : (s.obj o).file = { newFile g .file with fileSize := m, storedSize := n })
    (hahead : Ahead g d₁ W (fileStream g f ++ rest) s.toBlockDev) :
    (rdCheckptTnodes g e o s).2 = true ∧ Ahead g d₁ W rest (rdCheckptTnodes g e o s).1.toBlockDev ∧
      Treed o f.entry s (rdCheckptTnodes g e o s).1 := by
  have hbase : ∀ q ∈ f.leafList, q.1 ≤ maxChunkId := fun q hq => fileLeaves_base hl hq
  have hfuel : f.leafList.length < checkptReadLimit g + 1 := by
    have hlen := hahead.length_le hh
    have hpos := length_le_flatMap (leafBytes g) f.leafList fun q _ => by
      rw [leafBytes, u32Bytes_eq, List.length_append, length_bytes]
      omega
    rw [fileStream, List.length_append, List.length_append] at hlen
    omega
  obtain ⟨hsound, hzero⟩ := newFile_sound g m n
  rw [fileStream, treeBytes_eq, List.append_assoc] at hahead
  obtain ⟨cp, k, h1, hahead1⟩ := rdBytes_ahead hh hahead (n := 4) rfl
  obtain ⟨s1, hs1⟩ : ∃ s1, s1 = s.atCursor cp k := ⟨_, rfl⟩
  rw [← hs1] at h1 hahead1
  have hobj1 : s1.obj = s.obj := by rw [hs1]; rfl
  obtain ⟨hok, hend, htreed⟩ := rdCheckptTnodesLoop_treed (o := o) hh he f.leafList (checkptReadLimit g + 1) s1 hfuel
    hbase hnarrow (by rw [hobj1, hfile]; exact hsound) hahead1
  have hrd : rdCheckptTnodes g e o s =
      rdCheckptTnodesLoop g e o (checkptReadLimit g + 1) (nextBase f.leafList) s1 := by
    unfold rdCheckptTnodes
    rw [h1]
    dsimp only
    rw [rdWord_u32Bytes (nextBase_lt hbase)]
  rw [hrd]
  refine ⟨hok, hend, fun x hx => ?_, ?_, ?_, ?_, ?_, ?_⟩
  · rw [htreed.others x hx, hobj1]
  · obtain ⟨f', hf', hfs, hsame, hentry⟩ := htreed.self
    rw [hobj1] at hf' hsame hentry
    refine ⟨f', hf', hfs, hsame, fun k hk => ?_⟩
    rw [hentry k hk, hfile]
    exact (foldl_putLeaf_congr f.leafList (hzero k)).trans (putLeaf_fileLeaves hl hk)
  · rw [htreed.ids, hs1]
    rfl
  · rw [htreed.hardList, hs1]
    rfl
  · rw [htreed.deletedFiles, hs1]
    rfl
  · refine SameBooks.trans ?_ htreed.books
    rw [hs1]
    exact ⟨rfl, rfl, rfl, rfl, rfl, rfl, rfl, rfl⟩

end

/-! ## All objects -/

section

variable {d₁ : BlockDev} {W rest : List UInt8} {s₀ : ScanDev}

/-- The objects of `R` have been read, on a device that was `s₀` before the first. -/
structure Reading (g : Geometry) (d : Dev) (R : List ℕ) (s₀ s : ScanDev) : Prop where
  partly : Partly d (· ∈ R) (whatRead g d R) s.toDev
  mem : ∀ o ∈ R, o ∈ s.ids
  hardList : s.hardList = (R.filter fun o => (d.obj o).variantType = .hardlink).reverse
  books : SameBooks s₀.toBlockDev s.toBlockDev
  deletedFiles : s.nDeletedFiles = s₀.nDeletedFiles

/-- The object `o` has been read, with its tree. -/
theorem whatHalf.whole {q : Obj} (h : whatHalf g d R o x q) (htree : x = o → TreeRead (d.obj o) q) :
    whatRead g d (R ++ [o]) x q := by
  refine ⟨fun hx => ?_, fun hx => ?_⟩
  · by_cases hxo : x = o
    · have hhalf := (h.1 hxo).toRecordRead
      rw [← hxo] at hhalf htree
      exact ⟨hhalf, htree rfl⟩
    · have hxR : x ∈ R := by simpa [hxo] using hx
      exact (h.2 hxo).1 hxR
  · have hxo : x ≠ o ∧ x ∉ R := by simpa [not_or, and_comm] using hx
    exact (h.2 hxo.1).2 hxo.2

theorem Partly.whole {s : Dev} (h : Partly d (fun c => c ∈ R ∨ c = o) (whatHalf g d R o) s)
    (htree : TreeRead (d.obj o) (s.obj o)) : Partly d (· ∈ R ++ [o]) (whatRead g d (R ++ [o])) s where
  nodup := h.nodup
  known := h.known
  initial := h.initial
  homes := ⟨h.homes.child, fun c hc => h.homes.listed c (by simpa using hc), h.homes.nodup⟩
  plain := h.plain
  what := fun x hx => (h.what x hx).whole fun hxo => hxo ▸ htree

/-- Only the tree of `o` has changed. -/
theorem Partly.treed (h : Partly d (fun c => c ∈ R ∨ c = o) (whatHalf g d R o) s.toDev) {M : ℕ → ℕ}
    (ht : Treed o M s s') :
    ∃ f, s'.obj o = { s.obj o with file := f } ∧ (∀ k ≤ maxChunkId, f.entry k = M k) ∧
      FileVar.SameFile (s.obj o).file f ∧
      Homes (fun c => c ∈ R ∨ c = o) s'.toDev ∧
      ∀ x, (s'.obj x).deferredFree = false ∧ (s'.obj x).hardLinks = [] ∧ (s'.obj x).equivObj = none := by
  obtain ⟨f, hf, -, hsame, hentry⟩ := ht.self
  refine ⟨f, hf, hentry, hsame, h.homes.congr ht.ids fun q => ?_, fun x => ?_⟩
  · by_cases hq : q = o
    · rw [hq, hf]
      exact ⟨rfl, rfl⟩
    · rw [ht.others q hq]
      exact ⟨rfl, rfl⟩
  · by_cases hx : x = o
    · rw [hx, hf]
      exact h.plain o
    · rw [ht.others x hx]
      exact h.plain x

/-- With its tree, all of a file has been read. -/
theorem Partly.wholeFile (h : Partly d (fun c => c ∈ R ∨ c = o) (whatHalf g d R o) s.toDev)
    (hmem : o ∈ s.ids) (ht : Treed o (d.obj o).file.entry s s') :
    Partly d (· ∈ R ++ [o]) (whatRead g d (R ++ [o])) s'.toDev := by
  obtain ⟨f, hf, hentry, hsame, hhomes, hplain⟩ := h.treed ht
  have hids := ht.ids
  refine ⟨by rw [hids]; exact h.nodup, by rw [hids]; exact h.known, by rw [hids]; exact h.initial,
    ⟨hhomes.child, fun c hc => hhomes.listed c (by simpa using hc), hhomes.nodup⟩, hplain, fun x hx => ?_⟩
  rw [hids] at hx
  by_cases hxo : x = o
  · subst hxo
    have hhalf := ((h.what x hmem).1 rfl).toRecordRead
    refine ⟨fun _ => ?_, fun hx => absurd (by simp) hx⟩
    rw [hf]
    exact ⟨⟨hhalf.1, hhalf.2, hhalf.3, hhalf.4, hhalf.5, hhalf.6, hhalf.7, hhalf.8, hhalf.9, hhalf.10,
      fun hfile => ⟨hsame.fileSize.trans (hhalf.fileSize hfile).1, hsame.storedSize.trans (hhalf.fileSize hfile).2⟩,
      hhalf.12⟩, fun _ => hentry⟩
  · rw [ht.others x hxo]
    exact (h.what x hx).whole fun hc => absurd hc hxo

/-- What one record adds. -/
theorem rdCheckptObj_reading (hh : HoldsStream g d₁ W) (he : ∀ n, e.allocOk n = true) (hd : StorableObjs g d)
    (h : Reading g d R s₀ s) (ho : o ∈ savedIds d) (hnew : o ∉ R)
    (hahead : Ahead g d₁ W ((if (d.obj o).variantType = .file then fileStream g (d.obj o).file else []) ++ rest)
      s.toBlockDev) :
    (rdCheckptObj g e (objCp o (d.obj o)) s).2 = true ∧
    Ahead g d₁ W rest (rdCheckptObj g e (objCp o (d.obj o)) s).1.toBlockDev ∧
    Reading g d (R ++ [o]) s₀ (rdCheckptObj g e (objCp o (d.obj o)) s).1 := by
  obtain ⟨hpos, hlt⟩ := hd.range o ho
  have hcp : StoredObj o (d.obj o) (objCp o (d.obj o)) := storedObj_objCp (hd.fits o ho) (by omega) fun p hp => by
    have := (hd.range p (hd.parent o ho p hp).1).2
    omega
  generalize objCp o (d.obj o) = cp at hcp
  unfold rdCheckptObj
  rw [hcp.objId, hcp.variantType]
  obtain ⟨hsome, hfound⟩ := h.partly.findRead he hd ho h.mem
  generalize findOrCreateByNumber g e o (d.obj o).variantType s = r at hsome hfound
  obtain ⟨s1, r2⟩ := r
  dsimp only at hsome hfound
  subst hsome
  dsimp only
  have hmem1 : ∀ x ∈ R, x ∈ s1.ids := fun x hx => hfound.keeps x (h.mem x hx)
  obtain ⟨hok, hhalf⟩ := checkptObjToObj_half he hd hfound.partly ho hfound.mem hnew hmem1 hcp
  generalize checkptObjToObj g e o cp s1 = q at hok hhalf
  obtain ⟨s2, ok⟩ := q
  dsimp only at hok hhalf
  subst hok
  rw [if_pos rfl]
  dsimp only
  have hbooks : SameBooks s₀.toBlockDev s2.toBlockDev :=
    (h.books.trans hfound.still.toSameBooks).trans hhalf.still.toSameBooks
  have hdel : s2.nDeletedFiles = s₀.nDeletedFiles :=
    hhalf.deletedFiles.trans (hfound.deletedFiles.trans h.deletedFiles)
  have hlist : s2.hardList = (R.filter fun o => (d.obj o).variantType = .hardlink).reverse :=
    hhalf.hardList.trans (hfound.hardList.trans h.hardList)
  have hahead2 := hhalf.still.ahead (hfound.still.ahead hahead)
  have hmem2 : ∀ x ∈ R ++ [o], x ∈ s2.ids := fun x hx => by
    rcases List.mem_append.mp hx with hx | hx
    · exact hhalf.keeps x (hmem1 x hx)
    · rw [List.mem_singleton.mp hx]
      exact hhalf.mem
  have htype : (s2.obj o).variantType = (d.obj o).variantType :=
    ((hhalf.partly.what o hhalf.mem).1 rfl).variantType
  rw [htype]
  by_cases hfile : (d.obj o).variantType = .file
  · rw [hfile]
    rw [if_pos hfile] at hahead2
    obtain ⟨hok, hend, ht⟩ := rdCheckptTnodes_treed hh he (hd.level o ho hfile) (hd.narrow o ho hfile)
      (((hhalf.partly.what o hhalf.mem).1 rfl).file hfile) hahead2
    refine ⟨hok, hend, hhalf.partly.wholeFile hhalf.mem ht, fun x hx => ?_, ?_, hbooks.trans ht.books,
      ht.deletedFiles.trans hdel⟩
    · rw [ht.ids]
      exact hmem2 x hx
    · rw [ht.hardList, hlist, List.filter_append, List.filter_singleton]
      simp [hfile]
  · rw [if_neg hfile, List.nil_append] at hahead2
    have hwhole := hhalf.partly.whole fun hf => absurd hf hfile
    by_cases hlink : (d.obj o).variantType = .hardlink
    · rw [hlink]
      refine ⟨rfl, hahead2, hwhole, hmem2, ?_, hbooks, hdel⟩
      change o :: s2.hardList = _
      rw [hlist, List.filter_append, List.filter_singleton]
      simp [hlink]
    · have hsame : Reading g d (R ++ [o]) s₀ s2 := ⟨hwhole, hmem2, by
        rw [hlist, List.filter_append, List.filter_singleton]
        simp [hlink], hbooks, hdel⟩
      cases ht : (d.obj o).variantType with
      | file => exact absurd ht hfile
      | hardlink => exact absurd ht hlink
      | _ => exact ⟨rfl, hahead2, hsame⟩

/-- `struct yaffs_checkpt_obj` of the end. -/
theorem endCp_words : rdWord endCp 0 = checkptObjSize ∧ rdWord endCp 1 = 2 ^ 32 - 1 ∧
    endCp.length = checkptObjSize := by
  have hword := rdWord_ofWords (checkptObjSize :: List.replicate 7 (2 ^ 32 - 1))
  refine ⟨hword 0 (by simp), (hword 1 (by simp)).trans ?_, ?_⟩
  · rw [List.getElem_cons_succ, List.getElem_replicate]
    norm_num
  · rw [endCp, length_wordBytes, List.length_cons, List.length_replicate, checkptObjSize]

/-- All records are read, in their order. -/
theorem rdCheckptObjsLoop_reading (hh : HoldsStream g d₁ W) (he : ∀ n, e.allocOk n = true) (hd : StorableObjs g d)
    (L : List ℕ) :
    ∀ (fuel : ℕ) (R : List ℕ) (s : ScanDev), L.length < fuel → (∀ o ∈ L, o ∈ savedIds d) → (R ++ L).Nodup →
      Reading g d R s₀ s →
      Ahead g d₁ W (L.flatMap (fun o => objStream g o (d.obj o)) ++ (endCp ++ rest)) s.toBlockDev →
      (rdCheckptObjsLoop g e fuel s).2 = true ∧
      Ahead g d₁ W rest (rdCheckptObjsLoop g e fuel s).1.toBlockDev ∧
      Reading g d (R ++ L) s₀ (rdCheckptObjsLoop g e fuel s).1 := by
  have hmove : ∀ {R : List ℕ} {s : ScanDev} (cp : CheckptCursor) (k : ℕ), Reading g d R s₀ s →
      Reading g d R s₀ (s.atCursor cp k) := fun cp k h =>
    ⟨⟨h.partly.nodup, h.partly.known, h.partly.initial, h.partly.homes.congr rfl fun _ => ⟨rfl, rfl⟩,
      h.partly.plain,
      h.partly.what⟩, h.mem, h.hardList, h.books.trans ⟨rfl, rfl, rfl, rfl, rfl, rfl, rfl, rfl⟩, h.deletedFiles⟩
  induction L with
  | nil =>
    intro fuel R s hfuel _ _ h hahead
    obtain ⟨n, rfl⟩ : ∃ n, fuel = n + 1 := ⟨fuel - 1, by simp at hfuel; omega⟩
    obtain ⟨h0, h1, hlen⟩ := endCp_words
    rw [List.flatMap_nil, List.nil_append] at hahead
    obtain ⟨cp, k, hrd, hahead'⟩ := rdBytes_ahead hh hahead hlen
    have hloop : rdCheckptObjsLoop g e (n + 1) s = (s.atCursor cp k, true) := by
      rw [rdCheckptObjsLoop, hrd]
      dsimp only
      rw [if_neg (by rw [h0]; simp), if_pos h1]
    rw [hloop, List.append_nil]
    exact ⟨rfl, hahead', hmove cp k h⟩
  | cons o L ih =>
    intro fuel R s hfuel hL hnodup h hahead
    obtain ⟨n, rfl⟩ : ∃ n, fuel = n + 1 := ⟨fuel - 1, by simp at hfuel; omega⟩
    have ho := hL o List.mem_cons_self
    have hnew : o ∉ R := fun hR =>
      (List.disjoint_of_nodup_append hnodup) hR List.mem_cons_self
    rw [List.flatMap_cons, objStream, List.append_assoc, List.append_assoc] at hahead
    obtain ⟨cp, k, hrd, hahead1⟩ := rdBytes_ahead hh hahead (length_objCp o (d.obj o))
    obtain ⟨hok, hahead2, hreading⟩ := rdCheckptObj_reading (e := e) hh he hd (hmove cp k h) ho hnew hahead1
    have hlt := (hd.range o ho).2
    have hcp : StoredObj o (d.obj o) (objCp o (d.obj o)) := storedObj_objCp (hd.fits o ho) (by omega) fun p hp => by
      have := (hd.range p (hd.parent o ho p hp).1).2
      omega
    have hloop : rdCheckptObjsLoop g e (n + 1) s =
        rdCheckptObjsLoop g e n (rdCheckptObj g e (objCp o (d.obj o)) (s.atCursor cp k)).1 := by
      rw [rdCheckptObjsLoop, hrd]
      dsimp only
      rw [if_neg (by rw [hcp.structType]; simp), if_neg (by rw [hcp.objId]; omega), if_pos hok]
    rw [hloop, show R ++ o :: L = R ++ [o] ++ L by simp]
    exact ih n (R ++ [o]) _ (by simpa using hfuel) (fun x hx => hL x (List.mem_cons_of_mem o hx))
      (by simpa using hnodup)
      hreading hahead2

end

end Yaffs
