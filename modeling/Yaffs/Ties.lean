import Yaffs.Namespace

/-!
# Objects in use

What ties the objects of a device together, whatever the driver and the allocator answer :
directories and their children, files and their hard links, objects and the inodes they are
hooked to. `Ties` is the invariant and `Evolves` is what a function of the core may do to the
objects it finds. An object hooked to an inode is neither deleted nor freed.
-/

namespace Yaffs

/-! ## The invariant -/

/-- The directories `yaffs_create_initial_dir` makes. -/
def initialDirs : List ℕ :=
  [objectIdRoot, objectIdLostNFound, objectIdUnlinked, objectIdDeleted]

/-- What ties an object to others : its record without its name, its header and its data. -/
def Obj.ties (ob : Obj) : Obj :=
  { ob with
    shortName := []
    sum := 0
    hdrChunk := 0
    nDataChunks := 0
    renameAllowed := false
    dirty := false
    isShadowed := false
    file := {}
    equivId := 0
    aliasName := none }

/-- The objects `obj` of the hash table `ids` are tied together; `list` are the files gc is to
delete, of which those in `E` may be gone. -/
structure Ties (E ids list : List ℕ) (obj : ℕ → Obj) : Prop where
  nodup : ids.Nodup
  initial : ∀ o ∈ initialDirs, o ∈ ids ∧ (obj o).variantType = .directory ∧
    (obj o).unlinked = false ∧ (obj o).unlinkAllowed = false
  hooked : ∀ o, (obj o).myInode.isSome → o ∈ ids ∧
    ((obj o).variantType = .file ∨ (obj o).variantType = .directory) ∧ (obj o).deleted = false
  kept : ∀ o, (obj o).deferredFree = false
  soft : ∀ o, (obj o).softDel = true → (obj o).variantType = .file ∧ (obj o).deleted = true
  clean : ∀ o ∈ list, o ∈ E ∨ o ∈ ids ∧ (obj o).softDel = true
  ring : ∀ q ∈ ids, ∀ l ∈ (obj q).hardLinks, l ∈ ids ∧ (obj l).variantType = .hardlink ∧
    (obj l).equivObj = some q
  ringNodup : ∀ q, (obj q).hardLinks.Nodup
  parent : ∀ o ∈ ids, ∀ p, (obj o).parent = some p → p ∈ ids ∧ (obj p).variantType = .directory ∧
    o ∈ (obj p).children
  empty : ∀ o, (obj o).unlinked = true → (obj o).children = []
  noRing : ∀ o, (obj o).variantType = .directory → (obj o).hardLinks = []
  childless : ∀ o, (obj o).variantType ≠ .directory → (obj o).children = []

/-- The objects of a device are tied together. -/
def Tied (E : List ℕ) (d : Dev) : Prop :=
  Ties E d.ids d.gcCleanupList d.obj

namespace Ties

variable {E ids list : List ℕ} {obj obj' : ℕ → Obj} {o p : ℕ}

theorem congr (h : Ties E ids list obj) (hobj : ∀ o, (obj' o).ties = (obj o).ties) :
    Ties E ids list obj' := by
  have hget : ∀ {α : Type} (f : Obj → α) (o : ℕ), f (obj' o).ties = f (obj o).ties :=
    fun f o => congrArg f (hobj o)
  have htype : ∀ o, (obj' o).variantType = (obj o).variantType := hget Obj.variantType
  have hparent : ∀ o, (obj' o).parent = (obj o).parent := hget Obj.parent
  have hdel : ∀ o, (obj' o).deleted = (obj o).deleted := hget Obj.deleted
  have hsoft : ∀ o, (obj' o).softDel = (obj o).softDel := hget Obj.softDel
  have hun : ∀ o, (obj' o).unlinked = (obj o).unlinked := hget Obj.unlinked
  have hallow : ∀ o, (obj' o).unlinkAllowed = (obj o).unlinkAllowed := hget Obj.unlinkAllowed
  have hdef : ∀ o, (obj' o).deferredFree = (obj o).deferredFree := hget Obj.deferredFree
  have hinode : ∀ o, (obj' o).myInode = (obj o).myInode := hget Obj.myInode
  have hch : ∀ o, (obj' o).children = (obj o).children := hget Obj.children
  have hring : ∀ o, (obj' o).hardLinks = (obj o).hardLinks := hget Obj.hardLinks
  have heq : ∀ o, (obj' o).equivObj = (obj o).equivObj := hget Obj.equivObj
  exact
    { nodup := h.nodup
      initial := by simpa only [htype, hun, hallow] using h.initial
      hooked := by simpa only [hinode, htype, hdel] using h.hooked
      kept := by simpa only [hdef] using h.kept
      soft := by simpa only [hsoft, htype, hdel] using h.soft
      clean := by simpa only [hsoft] using h.clean
      ring := by simpa only [hring, htype, heq] using h.ring
      ringNodup := by simpa only [hring] using h.ringNodup
      parent := by simpa only [hparent, htype, hch] using h.parent
      empty := by simpa only [hun, hch] using h.empty
      noRing := by simpa only [htype, hring] using h.noRing
      childless := by simpa only [htype, hch] using h.childless }

theorem notSoft (h : Ties E ids list obj) (ho : (obj o).myInode.isSome) : (obj o).softDel = false := by
  by_contra hs
  have := (h.soft o (by simpa using hs)).2
  rw [(h.hooked o ho).2.2] at this
  exact Bool.noConfusion this

/-- A directory with a child is not unlinked. -/
theorem parent_linked (h : Ties E ids list obj) (ho : o ∈ ids) (hp : (obj o).parent = some p) :
    (obj p).unlinked = false := by
  obtain ⟨-, -, hch⟩ := h.parent o ho p hp
  by_contra hun
  rw [h.empty p (by simpa using hun)] at hch
  simp at hch

end Ties

/-! ## What the core does to objects -/

/-- The objects of `d` are still tied together in `d'`. None has been created; those unlinked
and those deleted stay so; only those in `S` and those softly deleted may be gone, and only those in
`S` have been softly deleted. -/
structure Evolves (E S : List ℕ) (d d' : Dev) : Prop where
  ties : Tied E d'
  ids : d'.ids.Sublist d.ids
  live : ∀ o ∈ d.ids, o ∉ S → (d.obj o).softDel = false → o ∈ d'.ids
  inode : ∀ o, (d'.obj o).myInode = (d.obj o).myInode
  type : ∀ o, (d'.obj o).variantType = (d.obj o).variantType
  unlinked : ∀ o, (d.obj o).unlinked = true → (d'.obj o).unlinked = true
  deleted : ∀ o, (d.obj o).deleted = true → (d'.obj o).deleted = true
  alive : ∀ o, o ∉ S → (d'.obj o).deleted = (d.obj o).deleted
  soft : ∀ o, o ∉ S → (d'.obj o).softDel = (d.obj o).softDel
  ring : ∀ o, (d'.obj o).hardLinks ⊆ (d.obj o).hardLinks

/-- What ties the objects together is as before. -/
structure SameTies (d d' : Dev) : Prop where
  obj : ∀ o, (d'.obj o).ties = (d.obj o).ties
  ids : d'.ids = d.ids
  list : d'.gcCleanupList = d.gcCleanupList

section

variable {E S : List ℕ} {d d' d'' : Dev} {o : ℕ}

namespace SameTies

theorem refl (d : Dev) : SameTies d d :=
  ⟨fun _ => rfl, rfl, rfl⟩

theorem trans (h : SameTies d d') (h' : SameTies d' d'') : SameTies d d'' :=
  ⟨fun o => (h'.obj o).trans (h.obj o), h'.ids.trans h.ids, h'.list.trans h.list⟩

theorem modObj {f : Obj → Obj} (hf : (f (d.obj o)).ties = (d.obj o).ties) : SameTies d (d.modObj o f) := by
  refine ⟨fun o' => ?_, rfl, rfl⟩
  by_cases hoo : o' = o
  · subst hoo
    simpa [Dev.modObj] using hf
  · simp [Dev.modObj, hoo]

theorem mapBlocks (d : Dev) (f : BlockDev → BlockDev) : SameTies d (d.mapBlocks f) :=
  ⟨fun _ => rfl, rfl, rfl⟩

theorem setBlocks (d : Dev) (b : BlockDev) : SameTies d { d with toBlockDev := b } :=
  ⟨fun _ => rfl, rfl, rfl⟩

theorem modFile (d : Dev) (o : ℕ) (f : FileVar → FileVar) : SameTies d (d.modFile o f) :=
  modObj rfl

theorem evolves (h : SameTies d d') (hd : Tied E d) : Evolves E [] d d' := by
  have hties : Tied E d' := by
    unfold Tied at hd ⊢
    rw [h.ids, h.list]
    exact hd.congr h.obj
  have hget : ∀ {α : Type} (f : Obj → α) (o : ℕ), f (d'.obj o).ties = f (d.obj o).ties :=
    fun f o => congrArg f (h.obj o)
  refine ⟨hties, h.ids ▸ List.Sublist.refl _, fun o ho _ _ => h.ids ▸ ho, hget Obj.myInode, hget Obj.variantType, fun o ho => ?_,
    fun o ho => ?_, fun o _ => hget Obj.deleted o, fun o _ => hget Obj.softDel o, fun o => ?_⟩
  · exact (hget Obj.unlinked o).trans ho
  · exact (hget Obj.deleted o).trans ho
  · have hring : (d'.obj o).hardLinks = (d.obj o).hardLinks := hget Obj.hardLinks o
    rw [hring]
    exact fun _ hl => hl

end SameTies

namespace Evolves

theorem refl (h : Tied E d) : Evolves E S d d :=
  ⟨h, List.Sublist.refl _, fun _ ho _ _ => ho, fun _ => rfl, fun _ => rfl, fun _ h => h, fun _ h => h, fun _ _ => rfl,
    fun _ _ => rfl, fun _ _ h => h⟩

theorem trans (h : Evolves E S d d') (h' : Evolves E S d' d'') : Evolves E S d d'' where
  ties := h'.ties
  ids := h'.ids.trans h.ids
  live o ho hS hs := h'.live o (h.live o ho hS hs) hS ((h.soft o hS).trans hs)
  inode o := (h'.inode o).trans (h.inode o)
  type o := (h'.type o).trans (h.type o)
  unlinked o ho := h'.unlinked o (h.unlinked o ho)
  deleted o ho := h'.deleted o (h.deleted o ho)
  alive o ho := (h'.alive o ho).trans (h.alive o ho)
  soft o ho := (h'.soft o ho).trans (h.soft o ho)
  ring o := List.Subset.trans (h'.ring o) (h.ring o)

theorem mono {R : List ℕ} (h : Evolves E S d d') (hS : ∀ o ∈ S, o ∈ R) : Evolves E R d d' :=
  { h with
    live := fun o ho hS' => h.live o ho fun hm => hS' (hS o hm)
    alive := fun o ho => h.alive o fun hm => ho (hS o hm)
    soft := fun o ho => h.soft o fun hm => ho (hS o hm) }

/-- An object hooked to an inode stays. -/
theorem hooked (h : Evolves E S d d') (ho : (d.obj o).myInode.isSome) :
    o ∈ d'.ids ∧ (d'.obj o).deleted = false ∧ (d'.obj o).deferredFree = false := by
  have hin := h.ties.hooked o (by rwa [h.inode o])
  exact ⟨hin.1, hin.2.2, h.ties.kept o⟩

end Evolves

/-! ## Moving objects -/

/-- What ties an object to others but for directories. -/
def Obj.unplaced (ob : Obj) : Obj :=
  { ob.ties with parent := none, unlinked := false, children := [] }

/-- Only the places of objects have changed, and they fit. -/
theorem Ties.move {ids list : List ℕ} {obj obj' : ℕ → Obj} (h : Ties E ids list obj)
    (hobj : ∀ o, (obj' o).unplaced = (obj o).unplaced)
    (hinitial : ∀ o ∈ initialDirs, (obj' o).unlinked = false)
    (hparent : ∀ o ∈ ids, ∀ p, (obj' o).parent = some p → p ∈ ids ∧ (obj' p).variantType = .directory ∧
      o ∈ (obj' p).children)
    (hempty : ∀ o, (obj' o).unlinked = true → (obj' o).children = [])
    (hchildless : ∀ o, (obj' o).variantType ≠ .directory → (obj' o).children = []) :
    Ties E ids list obj' := by
  have hget : ∀ {α : Type} (f : Obj → α) (o : ℕ), f (obj' o).unplaced = f (obj o).unplaced :=
    fun f o => congrArg f (hobj o)
  have htype : ∀ o, (obj' o).variantType = (obj o).variantType := hget Obj.variantType
  have hdel : ∀ o, (obj' o).deleted = (obj o).deleted := hget Obj.deleted
  have hsoft : ∀ o, (obj' o).softDel = (obj o).softDel := hget Obj.softDel
  have hallow : ∀ o, (obj' o).unlinkAllowed = (obj o).unlinkAllowed := hget Obj.unlinkAllowed
  have hdef : ∀ o, (obj' o).deferredFree = (obj o).deferredFree := hget Obj.deferredFree
  have hinode : ∀ o, (obj' o).myInode = (obj o).myInode := hget Obj.myInode
  have hring : ∀ o, (obj' o).hardLinks = (obj o).hardLinks := hget Obj.hardLinks
  have heq : ∀ o, (obj' o).equivObj = (obj o).equivObj := hget Obj.equivObj
  exact
    { nodup := h.nodup
      initial := fun o ho => by
        rw [htype, hallow]
        exact ⟨(h.initial o ho).1, (h.initial o ho).2.1, hinitial o ho, (h.initial o ho).2.2.2⟩
      hooked := by simpa only [hinode, htype, hdel] using h.hooked
      kept := by simpa only [hdef] using h.kept
      soft := by simpa only [hsoft, htype, hdel] using h.soft
      clean := by simpa only [hsoft] using h.clean
      ring := by simpa only [hring, htype, heq] using h.ring
      ringNodup := by simpa only [hring] using h.ringNodup
      parent := hparent
      empty := hempty
      noRing := by simpa only [htype, hring] using h.noRing
      childless := hchildless }

theorem Evolves.move (h : Tied E d) (hids : d'.ids = d.ids) (hlist : d'.gcCleanupList = d.gcCleanupList)
    (hobj : ∀ o, (d'.obj o).unplaced = (d.obj o).unplaced)
    (hun : ∀ o, (d.obj o).unlinked = true → (d'.obj o).unlinked = true)
    (hinitial : ∀ o ∈ initialDirs, (d'.obj o).unlinked = false)
    (hparent : ∀ o ∈ d.ids, ∀ p, (d'.obj o).parent = some p → p ∈ d.ids ∧
      (d.obj p).variantType = .directory ∧ o ∈ (d'.obj p).children)
    (hempty : ∀ o, (d'.obj o).unlinked = true → (d'.obj o).children = [])
    (hchildless : ∀ o, (d.obj o).variantType ≠ .directory → (d'.obj o).children = []) : Evolves E [] d d' := by
  have hget : ∀ {α : Type} (f : Obj → α) (o : ℕ), f (d'.obj o).unplaced = f (d.obj o).unplaced :=
    fun f o => congrArg f (hobj o)
  have htype : ∀ o, (d'.obj o).variantType = (d.obj o).variantType := hget Obj.variantType
  refine ⟨?_, hids ▸ List.Sublist.refl _, fun o ho _ _ => hids ▸ ho, hget Obj.myInode, htype, hun, fun o ho => ?_,
    fun o _ => hget Obj.deleted o, fun o _ => hget Obj.softDel o, fun o => ?_⟩
  · unfold Tied at h ⊢
    rw [hids, hlist]
    exact h.move hobj hinitial (by simpa only [htype] using hparent) hempty
      (by simpa only [htype] using hchildless)
  · exact (hget Obj.deleted o).trans ho
  · have hring : (d'.obj o).hardLinks = (d.obj o).hardLinks := hget Obj.hardLinks o
    rw [hring]
    exact fun _ hl => hl

/-- The children of `q` once `o` has left its directory. -/
def leftChildren (d : Dev) (o q : ℕ) : List ℕ :=
  if (d.obj o).parent = some q then (d.obj q).children.erase o else (d.obj q).children

theorem mem_leftChildren {p q : ℕ} (h : q ∈ (d.obj p).children) (hq : q ≠ o) : q ∈ leftChildren d o p := by
  unfold leftChildren
  split_ifs
  · exact (List.mem_erase_of_ne hq).mpr h
  · exact h

theorem leftChildren_nil {p : ℕ} (h : (d.obj p).children = []) : leftChildren d o p = [] := by
  simp [leftChildren, h]

theorem removeObjFromDir_obj (o : ℕ) (d : Dev) (q : ℕ) : (removeObjFromDir o d).obj q =
    { d.obj q with
      parent := if q = o then none else (d.obj q).parent
      children := leftChildren d o q } := by
  unfold removeObjFromDir leftChildren
  cases hp : (d.obj o).parent with
  | none =>
    by_cases hq : q = o
    · subst hq
      simp [Dev.modObj]
    · simp [Dev.modObj, hq]
  | some p =>
    by_cases hq : q = o <;> by_cases hqp : q = p
    · subst hq
      subst hqp
      simp [Dev.modObj]
    · subst hq
      simp [Dev.modObj, hqp, Ne.symm hqp]
    · subst hqp
      simp [Dev.modObj, hq]
    · simp [Dev.modObj, hq, hqp, Ne.symm hqp]

theorem removeObjFromDir_evolves (h : Tied E d) (o : ℕ) : Evolves E [] d (removeObjFromDir o d) := by
  have hobj := removeObjFromDir_obj o d
  have hids : (removeObjFromDir o d).ids = d.ids ∧
      (removeObjFromDir o d).gcCleanupList = d.gcCleanupList := by
    unfold removeObjFromDir
    cases (d.obj o).parent <;> exact ⟨rfl, rfl⟩
  refine Evolves.move h hids.1 hids.2 (fun q => by rw [hobj]; rfl) (fun q hq => by rw [hobj]; exact hq)
    (fun q hq => by rw [hobj]; exact (h.initial q hq).2.2.1) (fun q hq p hp => ?_) (fun q hun => ?_)
    fun q hq => by rw [hobj]; exact leftChildren_nil (h.childless q hq)
  · rw [hobj] at hp ⊢
    by_cases hqo : q = o
    · simp [hqo] at hp
    · simp only [if_neg hqo] at hp
      obtain ⟨hpm, hdir, hch⟩ := h.parent q hq p hp
      exact ⟨hpm, hdir, mem_leftChildren hch hqo⟩
  · rw [hobj] at hun ⊢
    simp only at hun
    exact leftChildren_nil (h.empty q hun)

/-- The object `o` moves to the directory `dir`. -/
theorem addObjToDir_obj (dir o : ℕ) (d : Dev) (q : ℕ) : ((addObjToDir dir o d).obj q).ties =
    { (d.obj q).ties with
      parent := if q = o then some dir else (d.obj q).parent
      children := if q = dir then o :: leftChildren d o q else leftChildren d o q
      unlinked := (d.obj q).unlinked ||
        decide (q = o ∧ (dir = objectIdUnlinked ∨ dir = objectIdDeleted)) } := by
  have hrem := removeObjFromDir_obj o d
  unfold addObjToDir
  generalize removeObjFromDir o d = x at *
  by_cases hd : dir = objectIdUnlinked ∨ dir = objectIdDeleted <;> simp only [hd, if_true, if_false] <;>
    by_cases hq : q = o <;> by_cases hqd : q = dir
  all_goals first
    | subst hq
      subst hqd
      simp [Dev.modObj, hrem, Obj.ties]
    | subst hq
      simp [Dev.modObj, hrem, Obj.ties, hqd]
    | subst hqd
      simp [Dev.modObj, hrem, Obj.ties, hq]
    | simp [Dev.modObj, hrem, Obj.ties, hq, hqd]

/-- An object may move to a directory that is not unlinked; one that is unlinked has no children. -/
theorem addObjToDir_evolves {dir : ℕ} (h : Tied E d) (hdir : dir ∈ d.ids)
    (htype : (d.obj dir).variantType = .directory) (hun : (d.obj dir).unlinked = false)
    (ho : dir = objectIdUnlinked ∨ dir = objectIdDeleted → o ∉ initialDirs ∧
      ((d.obj o).variantType = .directory → (d.obj o).children = [])) :
    Evolves E [] d (addObjToDir dir o d) := by
  have hobj := addObjToDir_obj dir o d
  have hget : ∀ {α : Type} (f : Obj → α) (q : ℕ), f ((addObjToDir dir o d).obj q).ties = f
    { (d.obj q).ties with
      parent := if q = o then some dir else (d.obj q).parent
      children := if q = dir then o :: leftChildren d o q else leftChildren d o q
      unlinked := (d.obj q).unlinked ||
        decide (q = o ∧ (dir = objectIdUnlinked ∨ dir = objectIdDeleted)) } := fun f q => congrArg f (hobj q)
  have hparent : ∀ q, ((addObjToDir dir o d).obj q).parent = if q = o then some dir else (d.obj q).parent :=
    hget Obj.parent
  have hchildren : ∀ q, ((addObjToDir dir o d).obj q).children =
    if q = dir then o :: leftChildren d o q else leftChildren d o q := hget Obj.children
  have hunl : ∀ q, ((addObjToDir dir o d).obj q).unlinked = ((d.obj q).unlinked ||
    decide (q = o ∧ (dir = objectIdUnlinked ∨ dir = objectIdDeleted))) := hget Obj.unlinked
  have hids : (addObjToDir dir o d).ids = d.ids ∧ (addObjToDir dir o d).gcCleanupList = d.gcCleanupList := by
    unfold addObjToDir removeObjFromDir
    cases (d.obj o).parent <;> simp only <;> split_ifs <;> exact ⟨rfl, rfl⟩
  refine Evolves.move h hids.1 hids.2 (hget fun ob => { ob with parent := none, unlinked := false, children := [] })
    (fun q hq => by rw [hunl, hq]; rfl) (fun q hq => ?_) (fun q hq p hp => ?_) (fun q hunq => ?_)
    fun q hq => ?_
  · rw [hunl, (h.initial q hq).2.2.1]
    simp only [Bool.false_or, decide_eq_false_iff_not]
    rintro ⟨rfl, hd⟩
    exact (ho hd).1 hq
  · rw [hparent] at hp
    rw [hchildren]
    by_cases hqo : q = o
    · rw [if_pos hqo, Option.some.injEq] at hp
      subst hp
      rw [if_pos rfl, hqo]
      exact ⟨hdir, htype, List.mem_cons_self⟩
    · rw [if_neg hqo] at hp
      obtain ⟨hpm, hpd, hch⟩ := h.parent q hq p hp
      refine ⟨hpm, hpd, ?_⟩
      split_ifs
      · exact List.mem_cons_of_mem _ (mem_leftChildren hch hqo)
      · exact mem_leftChildren hch hqo
  · rw [hunl, Bool.or_eq_true, decide_eq_true_eq] at hunq
    rw [hchildren]
    have hqd : q ≠ dir := by
      rintro rfl
      rcases hunq with hunq | ⟨rfl, hd⟩
      · rw [hun] at hunq
        exact Bool.noConfusion hunq
      · have hmem : q ∈ initialDirs := by
          rcases hd with rfl | rfl <;> simp [initialDirs]
        exact (ho hd).1 hmem
    rw [if_neg hqd]
    rcases hunq with hunq | ⟨rfl, hd⟩
    · exact leftChildren_nil (h.empty q hunq)
    · refine leftChildren_nil ?_
      by_cases hqt : (d.obj q).variantType = .directory
      · exact (ho hd).2 hqt
      · exact h.childless q hqt
  · rw [hchildren, if_neg fun hqd : q = dir => hq (hqd ▸ htype)]
    exact leftChildren_nil (h.childless q hq)

/-! ## Freeing objects -/

/-- The object can be freed : nothing refers to it. -/
structure Removable (E : List ℕ) (d : Dev) (o : ℕ) : Prop where
  notHooked : (d.obj o).myInode = none
  notInitial : o ∉ initialDirs
  noLink : ∀ q ∈ d.ids, o ∉ (d.obj q).hardLinks
  leaf : (d.obj o).variantType = .directory → (d.obj o).children = []
  notSoft : o ∈ E ∨ (d.obj o).softDel = false

theorem freeObj_evolves (h : Tied E d) (ho : Removable E d o) (hS : o ∈ S ∨ (d.obj o).softDel = true) :
    Evolves E S d (freeObj o d) ∧ o ∉ (freeObj o d).ids := by
  have hfree : freeObj o d = { unhashObj o d with nObj := d.nObj - 1 } := by
    unfold freeObj
    rw [ho.notHooked]
    rfl
  have hmem : ∀ q, q ∈ d.ids.erase o ↔ q ≠ o ∧ q ∈ d.ids := fun q => h.nodup.mem_erase_iff
  have hties : Ties E (d.ids.erase o) d.gcCleanupList d.obj :=
    { nodup := h.nodup.erase o
      initial := fun q hq =>
        ⟨(hmem q).mpr ⟨fun hqo => ho.notInitial (hqo ▸ hq), (h.initial q hq).1⟩, (h.initial q hq).2⟩
      hooked := fun q hq => by
        obtain ⟨hqm, hrest⟩ := h.hooked q hq
        refine ⟨(hmem q).mpr ⟨?_, hqm⟩, hrest⟩
        rintro rfl
        rw [ho.notHooked] at hq
        simp at hq
      kept := h.kept
      soft := h.soft
      clean := fun q hq => by
        by_cases hqE : q ∈ E
        · exact Or.inl hqE
        · obtain ⟨hqm, hsoft⟩ := (h.clean q hq).resolve_left hqE
          refine Or.inr ⟨(hmem q).mpr ⟨?_, hqm⟩, hsoft⟩
          rintro rfl
          rw [ho.notSoft.resolve_left hqE] at hsoft
          exact Bool.noConfusion hsoft
      ring := fun q hq l hl => by
        have hqm := ((hmem q).mp hq).2
        obtain ⟨hlm, hrest⟩ := h.ring q hqm l hl
        exact ⟨(hmem l).mpr ⟨fun hlo => ho.noLink q hqm (hlo ▸ hl), hlm⟩, hrest⟩
      ringNodup := h.ringNodup
      parent := fun q hq p hp => by
        have hqm := ((hmem q).mp hq).2
        obtain ⟨hpm, hdir, hch⟩ := h.parent q hqm p hp
        refine ⟨(hmem p).mpr ⟨?_, hpm⟩, hdir, hch⟩
        rintro rfl
        rw [ho.leaf hdir] at hch
        simp at hch
      empty := h.empty
      noRing := h.noRing
      childless := h.childless }
  rw [hfree]
  have hlive : ∀ q ∈ d.ids, q ∉ S → (d.obj q).softDel = false → q ∈ d.ids.erase o := by
    intro q hq hqS hs
    refine (hmem q).mpr ⟨?_, hq⟩
    rintro rfl
    rw [hS.resolve_left hqS] at hs
    exact Bool.noConfusion hs
  refine ⟨⟨hties, List.erase_sublist, hlive, fun _ => rfl, fun _ => rfl, fun _ h => h, fun _ h => h, fun _ _ => rfl,
    fun _ _ => rfl, fun _ _ h => h⟩, ?_⟩
  exact fun hmem' => ((hmem o).mp hmem').1 rfl

variable {g : Geometry} {e : Env}

/-! ## Headers -/

/-- An object but for its header. -/
def Obj.body (ob : Obj) : Obj :=
  { ob with hdrChunk := 0, dirty := false }

/-- Only headers have changed, with the blocks that hold them. -/
structure HdrStep (d d' : Dev) : Prop where
  eq : d' = { d with toBlockDev := d'.toBlockDev, obj := d'.obj }
  body : ∀ o, (d'.obj o).body = (d.obj o).body

namespace HdrStep

theorem refl (d : Dev) : HdrStep d d :=
  ⟨rfl, fun _ => rfl⟩

theorem trans (h : HdrStep d d') (h' : HdrStep d' d'') : HdrStep d d'' :=
  ⟨by rw [h'.eq, h.eq], fun o => (h'.body o).trans (h.body o)⟩

theorem blocks (d : Dev) (bd : BlockDev) : HdrStep d { d with toBlockDev := bd } :=
  ⟨rfl, fun _ => rfl⟩

theorem modObj {f : Obj → Obj} (hf : (f (d.obj o)).body = (d.obj o).body) : HdrStep d (d.modObj o f) := by
  refine ⟨rfl, fun o' => ?_⟩
  by_cases hoo : o' = o
  · subst hoo
    simpa [Dev.modObj] using hf
  · simp [Dev.modObj, hoo]

theorem ids (h : HdrStep d d') : d'.ids = d.ids := by rw [h.eq]

theorem deferredFree (h : HdrStep d d') (o : ℕ) : (d'.obj o).deferredFree = (d.obj o).deferredFree := by
  have := congrArg Obj.deferredFree (h.body o)
  exact this

theorem nDataChunks (h : HdrStep d d') (o : ℕ) : (d'.obj o).nDataChunks = (d.obj o).nDataChunks := by
  have := congrArg Obj.nDataChunks (h.body o)
  exact this

theorem softDel (h : HdrStep d d') (o : ℕ) : (d'.obj o).softDel = (d.obj o).softDel := by
  have := congrArg Obj.softDel (h.body o)
  exact this

end HdrStep

/-- After its gc, `yaffs_update_oh` changes headers only. -/
theorem updateOhWith_step (gc : Dev → Dev) (o : ℕ) (name : Option Name) (force isShrink : Bool)
    (shadows : ℕ) (d : Dev) :
    (updateOhWith g e gc o name force isShrink shadows d).1 = d ∨
      HdrStep (gc d) (updateOhWith g e gc o name force isShrink shadows d).1 := by
  unfold updateOhWith
  by_cases hfake : (d.obj o).fake = true ∧ o ≠ objectIdRoot ∧ force = false
  · rw [if_pos hfake]
    exact Or.inl rfl
  · rw [if_neg hfake]
    refine Or.inr ?_
    simp only [Dev.onBlocks]
    split
    · exact HdrStep.blocks _ _
    · next c _ =>
      have hreplace : ∀ (prev : ℕ) (x : Dev), HdrStep x (replaceHdr g e o prev c x) := by
        intro prev x
        have hmod : HdrStep x (x.modObj o fun ob => { ob with hdrChunk := c }) := HdrStep.modObj rfl
        unfold replaceHdr
        split_ifs
        · exact hmod.trans (HdrStep.blocks _ _)
        · exact hmod
      have hclean : ∀ x : Dev, HdrStep x
          (if objCacheDirty x o then x else x.modObj o fun ob => { ob with dirty := false }) := by
        intro x
        split_ifs
        · exact HdrStep.refl x
        · exact HdrStep.modObj rfl
      have hstep : ∀ bd : BlockDev, HdrStep (gc d)
          (let y := replaceHdr g e o ((gc d).obj o).hdrChunk c { gc d with toBlockDev := bd }
          if objCacheDirty y o then y else y.modObj o fun ob => { ob with dirty := false }) :=
        fun bd => ((HdrStep.blocks _ bd).trans (hreplace _ _)).trans (hclean _)
      cases isShrink
      · exact hstep _
      · exact (hstep _).trans (HdrStep.blocks _ _)

/-- A function of the core that lets objects evolve. -/
def Evolving (E : List ℕ) (f : Dev → Dev) : Prop :=
  ∀ d, Tied E d → Evolves E [] d (f d)

theorem Evolves.next {f : Dev → Dev} (h : Evolves E [] d d') (hf : Evolving E f) : Evolves E [] d (f d') :=
  h.trans (hf d' h.ties)

theorem Evolves.same {x : Dev} (h : Evolves E S d d') (hs : SameTies d' x) : Evolves E S d x :=
  h.trans ((hs.evolves h.ties).mono (by simp))

theorem HdrStep.sameTies (h : HdrStep d d') : SameTies d d' := by
  refine ⟨fun o => ?_, h.ids, by rw [h.eq]⟩
  have := congrArg Obj.ties (h.body o)
  exact this

variable {gc : Dev → Dev}

theorem updateOhWith_evolves (hgc : Evolving E gc) (h : Tied E d) (o : ℕ) (name : Option Name)
    (force isShrink : Bool) (shadows : ℕ) :
    Evolves E [] d (updateOhWith g e gc o name force isShrink shadows d).1 := by
  rcases updateOhWith_step (g := g) (e := e) gc o name force isShrink shadows d with heq | hstep
  · rw [heq]
    exact Evolves.refl h
  · have hev := (hgc d h)
    exact hev.trans (hstep.sameTies.evolves hev.ties)

theorem updateParentWith_evolves (hgc : Evolving E gc) (h : Tied E d) (dir : Option ℕ) :
    Evolves E [] d (updateParentWith g e gc dir d) := by
  unfold updateParentWith
  cases dir with
  | none => exact Evolves.refl h
  | some o =>
    have hmod : SameTies d (d.modObj o fun ob => { ob with dirty := true }) := SameTies.modObj rfl
    have hev := hmod.evolves h
    simp only
    split_ifs
    · exact hev
    · exact hev.trans (SameTies.evolves ⟨fun _ => rfl, rfl, rfl⟩ hev.ties)
    · exact hev.trans (updateOhWith_evolves hgc hev.ties _ _ _ _ _)

theorem SameTies.get (h : SameTies d d') {α : Type} (f : Obj → α) (o : ℕ) :
    f (d'.obj o).ties = f (d.obj o).ties :=
  congrArg f (h.obj o)

theorem setObjName_ties (o : ℕ) (name : Name) (ob : Obj) : (setObjName o name ob).ties = ob.ties := by
  unfold setObjName
  simp only
  split_ifs <;> rfl

/-- The objects an object can be given to : `dir` may take `o`. -/
structure Takes (d : Dev) (dir o : ℕ) : Prop where
  mem : dir ∈ d.ids
  linked : (d.obj dir).unlinked = false
  leaf : dir = objectIdUnlinked ∨ dir = objectIdDeleted → o ∉ initialDirs ∧
    ((d.obj o).variantType = .directory → (d.obj o).children = [])

theorem Takes.same {dir : ℕ} (h : Takes d dir o) (hs : SameTies d d') : Takes d' dir o where
  mem := hs.ids ▸ h.mem
  linked := (hs.get Obj.unlinked dir).trans h.linked
  leaf hd := by
    have htype : (d'.obj o).variantType = (d.obj o).variantType := hs.get Obj.variantType o
    have hch : (d'.obj o).children = (d.obj o).children := hs.get Obj.children o
    rw [htype, hch]
    exact h.leaf hd

theorem addObjToDir_unlinked {dir : ℕ} (hd : dir = objectIdUnlinked ∨ dir = objectIdDeleted) (o : ℕ) (d : Dev) :
    ((addObjToDir dir o d).obj o).unlinked = true := by
  have := congrArg Obj.unlinked (addObjToDir_obj dir o d o)
  refine Eq.trans this ?_
  simp [hd]

theorem Dev.modObj_self {f : Obj → Obj} (hf : f (d.obj o) = d.obj o) : d.modObj o f = d := by
  unfold Dev.modObj
  rw [hf, Function.update_eq_self]

/-- The new place and the new name of `o` in `yaffs_change_obj_name`. -/
theorem changeObjNameWith_placed (gc : Dev → Dev) (o : ℕ) (newDir : Option ℕ) (newName : Name)
    (force : Bool) (shadows : ℕ) (d : Dev) :
    (changeObjNameWith g e gc o newDir newName force shadows d = (d, false) ∧
      ∀ dir, newDir.or (d.obj o).parent = some dir → dir = objectIdUnlinked ∨ dir = objectIdDeleted →
        (d.obj dir).variantType ≠ .directory) ∨
    ∃ dir : ℕ, newDir.or (d.obj o).parent = some dir ∧ (d.obj dir).variantType = .directory ∧
      (changeObjNameWith g e gc o newDir newName force shadows d).1 =
        (updateOhWith g e gc o (some newName) false (decide (dir = objectIdDeleted)) shadows
          (addObjToDir dir o (d.modObj o fun ob => { setObjName o newName ob with dirty := true }))).1 := by
  unfold changeObjNameWith
  cases hnew : newDir.or (d.obj o).parent with
  | none => exact Or.inl ⟨rfl, by simp⟩
  | some dir =>
    simp only
    split_ifs with hno hunl
    · refine Or.inl ⟨rfl, fun dir' hdir' hd => ?_⟩
      rw [Option.some.injEq] at hdir'
      subst hdir'
      rw [Bool.or_eq_true, bne_iff_ne] at hno
      rcases hno with hno | hno
      · rcases hd with rfl | rfl <;> simp at hno
      · exact hno
    · rw [Bool.or_eq_true, not_or, bne_iff_ne, not_not] at hno
      refine Or.inr ⟨dir, rfl, hno.2, ?_⟩
      have hset := addObjToDir_unlinked (Or.inl (of_decide_eq_true hunl)) o
        (d.modObj o fun ob => { setObjName o newName ob with dirty := true })
      rw [Dev.modObj_self]
      generalize (addObjToDir dir o _).obj o = ob at hset ⊢
      cases ob
      simp_all
    · rw [Bool.or_eq_true, not_or, bne_iff_ne, not_not] at hno
      exact Or.inr ⟨dir, rfl, hno.2, rfl⟩

/-- The new place of `o` in `yaffs_change_obj_name`. -/
theorem changeObjNameWith_eq (gc : Dev → Dev) (o : ℕ) (newDir : Option ℕ) (newName : Name)
    (force : Bool) (shadows : ℕ) (d : Dev) :
    (changeObjNameWith g e gc o newDir newName force shadows d = (d, false) ∧
      ∀ dir, newDir.or (d.obj o).parent = some dir → dir = objectIdUnlinked ∨ dir = objectIdDeleted →
        (d.obj dir).variantType ≠ .directory) ∨
    ∃ (dir : ℕ) (x : Dev), newDir.or (d.obj o).parent = some dir ∧ (d.obj dir).variantType = .directory ∧
      SameTies d x ∧ (changeObjNameWith g e gc o newDir newName force shadows d).1 =
        (updateOhWith g e gc o (some newName) false (decide (dir = objectIdDeleted)) shadows
          (addObjToDir dir o x)).1 := by
  have hname : SameTies d (d.modObj o fun ob => { setObjName o newName ob with dirty := true }) :=
    SameTies.modObj (setObjName_ties o newName _)
  rcases changeObjNameWith_placed (g := g) (e := e) gc o newDir newName force shadows d with
    hno | ⟨dir, hnew, htype, heq⟩
  · exact Or.inl hno
  · exact Or.inr ⟨dir, _, hnew, htype, hname, heq⟩

/-- An object may be renamed into a directory that is not unlinked. -/
theorem changeObjNameWith_evolves (hgc : Evolving E gc) (h : Tied E d) {newDir : Option ℕ} {o : ℕ}
    (hdir : ∀ dir, newDir.or (d.obj o).parent = some dir → Takes d dir o)
    (newName : Name) (force : Bool) (shadows : ℕ) :
    Evolves E [] d (changeObjNameWith g e gc o newDir newName force shadows d).1 := by
  rcases changeObjNameWith_eq (g := g) (e := e) gc o newDir newName force shadows d with
    ⟨heq, -⟩ | ⟨dir, x, hnew, htype, hx, heq⟩
  · rw [heq]
    exact Evolves.refl h
  · rw [heq]
    have htake := (hdir dir hnew).same hx
    have hev := hx.evolves h
    have hmove := hev.trans (addObjToDir_evolves hev.ties htake.mem ((hev.type dir).trans htype) htake.linked
      htake.leaf)
    exact hmove.trans (updateOhWith_evolves hgc hmove.ties _ _ _ _ _)

/-- An object renamed into one of the directories of unlinked and of deleted objects is unlinked. -/
theorem changeObjNameWith_unlinked (hgc : Evolving E gc) (h : Tied E d) {dir o : ℕ}
    (hdir : dir = objectIdUnlinked ∨ dir = objectIdDeleted) (htake : Takes d dir o)
    (newName : Name) (force : Bool) (shadows : ℕ) :
    ((changeObjNameWith g e gc o (some dir) newName force shadows d).1.obj o).unlinked = true := by
  have hmem : dir ∈ initialDirs := by
    rcases hdir with rfl | rfl <;> simp [initialDirs]
  rcases changeObjNameWith_eq (g := g) (e := e) gc o (some dir) newName force shadows d with
    ⟨-, hno⟩ | ⟨dir', x, hnew, htype, hx, heq⟩
  · exact absurd (h.initial dir hmem).2.1 (hno dir rfl hdir)
  · obtain rfl : dir = dir' := by simpa using hnew
    rw [heq]
    have htake := htake.same hx
    have hev := hx.evolves h
    have hmove := hev.trans (addObjToDir_evolves hev.ties htake.mem ((hev.type dir).trans htype) htake.linked
      htake.leaf)
    exact (updateOhWith_evolves hgc hmove.ties _ _ _ _ _).unlinked o (addObjToDir_unlinked hdir o x)

/-! ## Deletion -/

theorem Removable.evolves (ho : Removable E d o) (h : Evolves E [] d d')
    (hleaf : (d.obj o).variantType = .directory → (d'.obj o).children = []) : Removable E d' o where
  notHooked := (h.inode o).trans ho.notHooked
  notInitial := ho.notInitial
  noLink q hq hl := ho.noLink q (h.ids.subset hq) (h.ring q hl)
  leaf ht := hleaf ((h.type o).symm.trans ht)
  notSoft := ho.notSoft.imp id ((h.soft o (by simp)).trans ·)

theorem Removable.takes (ho : Removable E d o) (h : Tied E d) {dir : ℕ} (hdir : dir ∈ initialDirs) :
    Takes d dir o where
  mem := (h.initial dir hdir).1
  linked := (h.initial dir hdir).2.2.1
  leaf _ := ⟨ho.notInitial, ho.leaf⟩

theorem genericObjDelWith_evolves (hgc : Evolving E gc) (h : Tied E d) (ho : Removable E d o)
    (hS : o ∈ S ∨ (d.obj o).softDel = true) :
    Evolves E S d (genericObjDelWith g e gc o d) ∧ o ∉ (genericObjDelWith g e gc o d).ids := by
  have hend : ∀ x : Dev, Evolves E [] d x → Removable E x o →
      Evolves E S d (freeObj o (((removeObjFromDir o x).mapBlocks
        (chunkDel g e ((removeObjFromDir o x).obj o).hdrChunk true)).modObj o
          fun ob => { ob with hdrChunk := 0 })) ∧
      o ∉ (freeObj o (((removeObjFromDir o x).mapBlocks
        (chunkDel g e ((removeObjFromDir o x).obj o).hdrChunk true)).modObj o
          fun ob => { ob with hdrChunk := 0 })).ids := by
    intro x hx hox
    have hrem := removeObjFromDir_evolves hx.ties o
    have hox := hox.evolves hrem fun ht => by
      rw [removeObjFromDir_obj]
      exact leftChildren_nil (hox.leaf ht)
    generalize removeObjFromDir o x = y at *
    have hsame : SameTies y ((y.mapBlocks (chunkDel g e (y.obj o).hdrChunk true)).modObj o
        fun ob => { ob with hdrChunk := 0 }) := (SameTies.mapBlocks y _).trans (SameTies.modObj rfl)
    have hev := (hx.trans hrem).same hsame
    have hoy := hox.evolves (hsame.evolves hrem.ties) fun ht => (hsame.get Obj.children o).trans (hox.leaf ht)
    obtain ⟨hfree, hgone⟩ := freeObj_evolves hev.ties hoy (hS.imp id ((hev.soft o (by simp)).trans ·))
    exact ⟨(hev.mono (by simp)).trans hfree, hgone⟩
  have hinval : SameTies d (invalidateFileCache o d) := ⟨fun _ => rfl, rfl, rfl⟩
  have hev := hinval.evolves h
  have hoi : Removable E (invalidateFileCache o d) o := ⟨ho.1, ho.2, ho.3, ho.4, ho.5⟩
  have hdel : objectIdDeleted ∈ initialDirs := by simp [initialDirs]
  unfold genericObjDelWith
  simp only
  split_ifs
  · have htake := hoi.takes hev.ties hdel
    have hname := changeObjNameWith_evolves (g := g) (e := e) hgc hev.ties
      (fun dir (hd : (some objectIdDeleted).or _ = some dir) => by
        obtain rfl : objectIdDeleted = dir := by simpa using hd
        exact htake) deletedName false 0
    have hun := changeObjNameWith_unlinked (g := g) (e := e) hgc hev.ties (Or.inr rfl) htake deletedName false 0
    exact hend _ (hev.trans hname) (hoi.evolves hname fun _ => hname.ties.empty o hun)
  · exact hend _ hev hoi

/-! ## Garbage collection -/

theorem Tied.soft_removable (h : Tied E d) (hs : (d.obj o).softDel = true) (hE : o ∈ E) : Removable E d o where
  notHooked := by
    cases hin : (d.obj o).myInode with
    | none => rfl
    | some i =>
      rw [h.notSoft (by rw [hin]; rfl)] at hs
      exact Bool.noConfusion hs
  notInitial hi := by
    have := (h.soft o hs).1
    rw [(h.initial o hi).2.1] at this
    exact ObjType.noConfusion this
  noLink q hq hl := by
    have := (h.soft o hs).1
    rw [(h.ring q hq o hl).2.1] at this
    exact ObjType.noConfusion this
  leaf ht := by
    rw [(h.soft o hs).1] at ht
    exact ObjType.noConfusion ht
  notSoft := Or.inl hE

theorem freeTop_sameTies (o : ℕ) (d : Dev) : SameTies d (freeTop o d) :=
  (SameTies.mapBlocks d _).trans (SameTies.modFile _ o _)

theorem gcCleanUp_evolves (h : Tied E d) (hs : (d.obj o).softDel = true) (hE : o ∈ E) :
    Evolves E [] d (gcCleanUp g e d o) := by
  unfold gcCleanUp findByNumber
  by_cases ho : o ∈ d.ids ∧ (d.obj o).deferredFree = false
  · rw [if_pos ho]
    have htop := freeTop_sameTies o d
    have hev := htop.evolves h
    have hsoft : ((freeTop o d).obj o).softDel = true := (hev.soft o (by simp)).trans hs
    have hdel := (genericObjDelWith_evolves (g := g) (e := e) (S := []) (fun _ => Evolves.refl)
      hev.ties (hev.ties.soft_removable hsoft hE) (Or.inr hsoft)).1
    have hcount : SameTies (genericObjDelWith g e (fun d => d) o (freeTop o d))
        { genericObjDelWith g e (fun d => d) o (freeTop o d) with
          nDeletedFiles := (genericObjDelWith g e (fun d => d) o (freeTop o d)).nDeletedFiles - 1 } :=
      ⟨fun _ => rfl, rfl, rfl⟩
    exact (hev.trans hdel).trans (hcount.evolves hdel.ties)
  · rw [if_neg ho]
    exact Evolves.refl h

theorem foldl_gcCleanUp_evolves (l : List ℕ) : ∀ d, Tied E d → (∀ o ∈ l, (d.obj o).softDel = true ∧ o ∈ E) →
    Evolves E [] d (l.foldl (gcCleanUp g e) d) := by
  induction l with
  | nil => exact fun d h _ => Evolves.refl h
  | cons o l ih =>
    intro d h hl
    have hev := gcCleanUp_evolves (g := g) (e := e) h (hl o (by simp)).1 (hl o (by simp)).2
    refine hev.trans (ih _ hev.ties fun q hq => ?_)
    have := hl q (by simp [hq])
    exact ⟨(hev.soft q (by simp)).trans this.1, this.2⟩

/-- Once the files to be deleted are forgotten, none of them may be gone. -/
theorem Evolves.forget (h : Evolves E S d d') : Evolves [] S d { d' with gcCleanupList := [] } :=
  { h with
    ties := { h.ties with clean := by simp } }

theorem Tied.exempt (h : Tied [] d) : Tied E d :=
  { h with clean := fun o ho => Or.inr ((h.clean o ho).resolve_left (by simp)) }

theorem Evolves.exempt (h : Evolves E S d d') (hd : d'.gcCleanupList = []) : Evolves [] S d d' :=
  { h with ties := { h.ties with clean := by rw [hd]; simp } }

theorem gcBlockEnd_evolves (b : ℕ) (h : Tied [] d) : Evolves [] [] d (gcBlockEnd g e b d) := by
  have hflag : ∀ x : Dev, Evolves [] [] d x →
      Evolves [] [] d (x.mapBlocks fun bd => { bd with gc := { bd.gc with disable := false } }) :=
    fun x hx => hx.trans ((SameTies.mapBlocks x _).evolves hx.ties)
  unfold gcBlockEnd
  simp only
  refine hflag _ ?_
  split_ifs
  · exact (SameTies.mapBlocks d _).evolves h
  · have hlist : ∀ o ∈ d.gcCleanupList, (d.obj o).softDel = true ∧ o ∈ d.gcCleanupList :=
      fun o ho => ⟨((h.clean o ho).resolve_left (by simp)).2, ho⟩
    have hfold := foldl_gcCleanUp_evolves (g := g) (e := e) d.gcCleanupList d h.exempt hlist
    exact (hfold.trans ((SameTies.mapBlocks _ _).evolves hfold.ties)).forget

theorem putChunkInFile_sameTies (o k c : ℕ) (d : Dev) : SameTies d (putChunkInFile g e o k c d).1 := by
  unfold putChunkInFile
  by_cases hfile : (d.obj o).variantType ≠ .file
  · rw [if_pos hfile]
    exact SameTies.mapBlocks d _
  · rw [if_neg hfile]
    have hadd : SameTies d ({ d with toBlockDev := ((d.obj o).file.addFind e k d.toBlockDev).1 }.modFile o
        fun _ => ((d.obj o).file.addFind e k d.toBlockDev).2.1) :=
      (SameTies.setBlocks d _).trans (SameTies.modFile _ o _)
    have hload : ∀ x : Dev, SameTies d x → SameTies d ((if groupBase g ((x.obj o).file.entry k) = 0 then
        x.modObj o fun ob => { ob with nDataChunks := ob.nDataChunks + 1 } else x).modFile o
          fun f => f.load k (groupOf g c)) := by
      intro x hx
      split_ifs
      · exact (hx.trans (SameTies.modObj rfl)).trans (SameTies.modFile _ o _)
      · exact hx.trans (SameTies.modFile _ o _)
    simp only
    split
    · split
      · exact hadd
      · exact hload _ hadd
    · exact hadd

theorem onBlocks_sameTies {α : Type} (d : Dev) (f : BlockDev → BlockDev × α) : SameTies d (d.onBlocks f).1 :=
  SameTies.setBlocks d _

theorem gcCopyHdr_sameTies (o old : ℕ) (p : Page) (d : Dev) : SameTies d (gcCopyHdr g e o old p d).1 := by
  unfold gcCopyHdr
  simp only
  have hwrite := onBlocks_sameTies d (writeNewChunk g e (gcHdrPage d o p).data (gcHdrPage d o p).tags true)
  split
  · exact hwrite
  · exact (hwrite.trans (SameTies.modObj rfl)).trans (SameTies.mapBlocks _ _)

theorem gcCopyData_sameTies (o old : ℕ) (p : Page) (d : Dev) : SameTies d (gcCopyData g e o old p d).1 := by
  unfold gcCopyData
  simp only
  have hwrite := onBlocks_sameTies d (writeNewChunk g e p.data p.tags true)
  split
  · exact hwrite
  · exact (hwrite.trans (putChunkInFile_sameTies _ _ _ _)).trans (SameTies.mapBlocks _ _)

theorem gcDropChunk_evolves (old : ℕ) (h : Tied E d) (hid : o ∈ d.ids) (hs : (d.obj o).softDel = true) :
    Evolves E [] d (gcDropChunk g e o old d) := by
  have hlist : ∀ x : Dev, SameTies d x →
      Evolves E [] d { x with gcCleanupList := x.gcCleanupList ++ [o] } := by
    intro x hx
    have hev := hx.evolves h
    refine { hev with ties := { hev.ties with clean := fun q hq => ?_ } }
    rcases List.mem_append.mp hq with hq | hq
    · exact hev.ties.clean q hq
    · obtain rfl : q = o := by simpa using hq
      exact Or.inr ⟨hx.ids ▸ hid, (hev.soft q (by simp)).trans hs⟩
  have hdrop : SameTies d ((d.mapBlocks fun b =>
      { b.modBlock (old / g.chunksPerBlock) fun bi => { bi with softDelPages := bi.softDelPages - 1 } with
        nFreeChunks := b.nFreeChunks - 1 }).modObj o fun ob => { ob with nDataChunks := ob.nDataChunks - 1 }) :=
    (SameTies.mapBlocks d _).trans (SameTies.modObj rfl)
  unfold gcDropChunk
  simp only
  split_ifs
  · have hev := hlist _ hdrop
    exact hev.trans ((SameTies.mapBlocks _ _).evolves hev.ties)
  · exact (hdrop.trans (SameTies.mapBlocks _ _)).evolves h

theorem gcProcessChunk_evolves (old : ℕ) (h : Tied E d) : Evolves E [] d (gcProcessChunk g e old d).1 := by
  unfold gcProcessChunk
  simp only
  split
  · exact (SameTies.mapBlocks d _).evolves h
  · next o hfind =>
    split_ifs with hsoft
    · unfold findByNumber at hfind
      split_ifs at hfind with hid
      obtain rfl := Option.some.inj hfind
      exact gcDropChunk_evolves old h hid.1 hsoft.2.1
    · exact (gcCopyHdr_sameTies _ _ _ _).evolves h
    · exact (gcCopyData_sameTies _ _ _ _).evolves h

theorem gcBlockLoop_evolves (b : ℕ) (n : ℕ) : ∀ (maxCopies : ℕ) (d : Dev), Tied E d →
    Evolves E [] d (gcBlockLoop g e b n maxCopies d).1 := by
  induction n with
  | zero => exact fun _ d h => Evolves.refl h
  | succ n ih =>
    intro maxCopies d h
    have hnext : ∀ x : Dev, Evolves E [] d x →
        Evolves E [] d (x.mapBlocks fun b => { b with gc := { b.gc with chunk := b.gc.chunk + 1 } }) :=
      fun x hx => hx.trans ((SameTies.mapBlocks x _).evolves hx.ties)
    have hchunk := hnext _ (gcProcessChunk_evolves (g := g) (e := e) (b * g.chunksPerBlock + d.gc.chunk) h)
    unfold gcBlockLoop
    simp only
    split_ifs
    · exact hchunk.trans (ih _ _ hchunk.ties)
    · exact hchunk
    · have hskip := hnext d (Evolves.refl h)
      exact hskip.trans (ih _ _ hskip.ties)
    · exact Evolves.refl h

theorem gcBlock_evolves (b : ℕ) (wholeBlock : Bool) (h : Tied [] d) :
    Evolves [] [] d (gcBlock g e b wholeBlock d).1 := by
  have hstart := (SameTies.mapBlocks d (gcBlockStart g b)).evolves h
  unfold gcBlock
  simp only
  split_ifs
  · have hdirty := hstart.trans ((SameTies.mapBlocks _ (blockBecameDirty g e b)).evolves hstart.ties)
    exact hdirty.trans (gcBlockEnd_evolves b hdirty.ties)
  · have hloop := hstart.trans (gcBlockLoop_evolves (g := g) (e := e) b g.chunksPerBlock g.chunksPerBlock _ hstart.ties)
    exact hloop.trans (gcBlockEnd_evolves b hloop.ties)
  · have hloop := hstart.trans (gcBlockLoop_evolves (g := g) (e := e) b g.chunksPerBlock 5 _ hstart.ties)
    exact hloop.trans (gcBlockEnd_evolves b hloop.ties)

theorem chooseGcBlock_evolves (aggressive background : Bool) (h : Tied [] d) :
    Evolves [] [] d (chooseGcBlock g aggressive background d) := by
  have hforget : ∀ (x : Dev) (f : BlockDev → BlockDev), Evolves [] [] d x →
      Evolves [] [] d { x.mapBlocks f with gcCleanupList := [] } :=
    fun x f hx => (hx.trans ((SameTies.mapBlocks x f).evolves hx.ties)).forget
  have hskip := (SameTies.mapBlocks d fun b => { b with gc := { b.gc with skip := 5 } }).evolves h
  unfold chooseGcBlock
  simp only
  split_ifs
  · exact hforget _ _ (hforget _ _ hskip)
  · exact hforget _ _ hskip
  · exact hforget _ _ hskip
  · exact hskip

theorem checkGcLoop_evolves (background : Bool) (n : ℕ) : ∀ d, Tied [] d →
    Evolves [] [] d (checkGcLoop g e background n d) := by
  induction n with
  | zero => exact fun d h => Evolves.refl h
  | succ n ih =>
    intro d h
    have hmode := (onBlocks_sameTies d (gcMode g background)).evolves h
    have hround : ∀ aggressive, Evolves [] [] d (gcRound g e aggressive background (d.onBlocks (gcMode g background)).1) := by
      intro aggressive
      have hchoose := hmode.trans (chooseGcBlock_evolves (g := g) aggressive background hmode.ties)
      unfold gcRound
      simp only
      split_ifs
      · exact hchoose.trans (gcBlock_evolves _ _ hchoose.ties)
      · exact hchoose
    unfold checkGcLoop
    simp only
    split
    · exact hmode
    · next aggressive _ =>
      split_ifs
      · exact (hround aggressive).trans (ih _ (hround aggressive).ties)
      · exact hround aggressive

theorem checkGc_evolves (background : Bool) : Evolving [] (checkGc g e background) := by
  intro d h
  have hcontrol := (onBlocks_sameTies d (gcControl e)).evolves h
  unfold checkGc
  simp only
  split_ifs
  · exact hcontrol.trans (checkGcLoop_evolves background 2 _ hcontrol.ties)
  · exact hcontrol

end

end Yaffs
