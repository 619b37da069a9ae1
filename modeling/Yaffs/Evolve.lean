import Yaffs.Calm

/-!
# Calls on objects in use

Reading, writing, resizing and flushing a file let objects evolve; unlinking an object that is
hooked to an inode leaves it in the hash table, and deleting one that is not takes it out or
marks it deleted.
-/

namespace Yaffs

variable {g : Geometry} {e : Env} {d : Dev} {o : ℕ}

/-! ## File data -/

theorem flushFileCache_evolving (o : ℕ) (discard : Bool) : Evolving [] (flushFileCache g e o discard) :=
  (flushFileCache_calm o discard).evolving

theorem fileRd_evolving (o offset n : ℕ) : Evolving [] fun d => (fileRd g e o offset n d).1 :=
  (fileRd_calm o offset n).evolving

theorem wrFile_evolving (o : ℕ) (buffer : List UInt8) (offset : ℕ) (writeThrough : Bool) :
    Evolving [] fun d => (wrFile g e o buffer offset writeThrough d).1 :=
  (wrFile_calm o buffer offset writeThrough).evolving

theorem resizeFile_evolving (o newSize : ℕ) : Evolving [] fun d => (resizeFile g e o newSize d).1 :=
  (resizeFile_calm o newSize).evolving

theorem flushFile_evolving (o : ℕ) (dataSync discardCache : Bool) :
    Evolving [] fun d => (flushFile g e o dataSync discardCache d).1 :=
  (flushFile_calm o dataSync discardCache).evolving

/-! ## Deleting -/

/-- A file that is not hooked is marked as deleted. -/
theorem Tied.mark (h : Tied [] d) (hin : (d.obj o).myInode = none) {f : Obj → Obj}
    (hf : { (f (d.obj o)).ties with deleted := (d.obj o).deleted, softDel := (d.obj o).softDel } = (d.obj o).ties)
    (hdel : (d.obj o).deleted = true → (f (d.obj o)).deleted = true)
    (hmono : (d.obj o).softDel = true → (f (d.obj o)).softDel = true)
    (hsoft : (f (d.obj o)).softDel = true → (d.obj o).variantType = .file ∧ (f (d.obj o)).deleted = true) :
    Evolves [] [o] d (d.modObj o f) := by
  have hself : (d.modObj o f).obj o = f (d.obj o) := by simp [Dev.modObj]
  have hne : ∀ q, q ≠ o → (d.modObj o f).obj q = d.obj q := fun q hq => by simp [Dev.modObj, hq]
  have hget : ∀ {α : Type} (k : Obj → α) (q : ℕ),
      k { ((d.modObj o f).obj q).ties with deleted := (d.obj q).deleted, softDel := (d.obj q).softDel } =
        k (d.obj q).ties := by
    intro α k q
    by_cases hq : q = o
    · subst hq
      rw [hself, hf]
    · rw [hne q hq]
      rfl
  have htype : ∀ q, ((d.modObj o f).obj q).variantType = (d.obj q).variantType := hget Obj.variantType
  have hparent : ∀ q, ((d.modObj o f).obj q).parent = (d.obj q).parent := hget Obj.parent
  have hun : ∀ q, ((d.modObj o f).obj q).unlinked = (d.obj q).unlinked := hget Obj.unlinked
  have hallow : ∀ q, ((d.modObj o f).obj q).unlinkAllowed = (d.obj q).unlinkAllowed := hget Obj.unlinkAllowed
  have hdef : ∀ q, ((d.modObj o f).obj q).deferredFree = (d.obj q).deferredFree := hget Obj.deferredFree
  have hinode : ∀ q, ((d.modObj o f).obj q).myInode = (d.obj q).myInode := hget Obj.myInode
  have hch : ∀ q, ((d.modObj o f).obj q).children = (d.obj q).children := hget Obj.children
  have hring : ∀ q, ((d.modObj o f).obj q).hardLinks = (d.obj q).hardLinks := hget Obj.hardLinks
  have heq : ∀ q, ((d.modObj o f).obj q).equivObj = (d.obj q).equivObj := hget Obj.equivObj
  have hties : Ties [] d.ids d.gcCleanupList (d.modObj o f).obj :=
    { nodup := h.nodup
      initial := by simpa only [htype, hun, hallow] using h.initial
      hooked := fun q hq => by
        have hqo : q ≠ o := by
          rintro rfl
          rw [hinode, hin] at hq
          simp at hq
        rw [hne q hqo] at hq ⊢
        exact h.hooked q hq
      kept := by simpa only [hdef] using h.kept
      soft := fun q hq => by
        by_cases hqo : q = o
        · subst hqo
          rw [hself] at hq
          rw [htype, hself]
          exact hsoft hq
        · rw [hne q hqo] at hq ⊢
          exact h.soft q hq
      clean := fun q hq => by
        obtain ⟨hmem, hs⟩ := (h.clean q hq).resolve_left (by simp)
        refine Or.inr ⟨hmem, ?_⟩
        by_cases hqo : q = o
        · subst hqo
          rw [hself]
          exact hmono hs
        · rw [hne q hqo]
          exact hs
      ring := by simpa only [hring, htype, heq] using h.ring
      ringNodup := by simpa only [hring] using h.ringNodup
      parent := by simpa only [hparent, htype, hch] using h.parent
      empty := by simpa only [hun, hch] using h.empty
      noRing := by simpa only [htype, hring] using h.noRing
      childless := by simpa only [htype, hch] using h.childless }
  refine ⟨hties, List.Sublist.refl _, fun q hq _ _ => hq, hinode, htype, fun q hq => (hun q).trans hq,
    fun q hq => ?_, fun q hq => ?_, fun q hq => ?_, fun q => by rw [hring]; exact List.Subset.refl _⟩
  · by_cases hqo : q = o
    · subst hqo
      rw [hself]
      exact hdel hq
    · rw [hne q hqo]
      exact hq
  · rw [hne q (by simpa using hq)]
  · rw [hne q (by simpa using hq)]

theorem setDeleted_evolves (h : Tied [] d) (hin : (d.obj o).myInode = none) :
    Evolves [] [o] d (setDeleted o d) ∧ ((setDeleted o d).obj o).deleted = true := by
  have hmark := h.mark (o := o) hin (f := fun ob => { ob with deleted := true }) rfl (fun _ => rfl) id
    fun hs => ⟨(h.soft o hs).1, rfl⟩
  refine ⟨hmark.same (x := setDeleted o d) ⟨fun _ => rfl, rfl, rfl⟩, ?_⟩
  simp [setDeleted, Dev.modObj]

/-- A file that is neither hooked nor softly deleted can be freed. -/
theorem Tied.file_removable (h : Tied [] d) (htype : (d.obj o).variantType = .file)
    (hin : (d.obj o).myInode = none) (hs : (d.obj o).softDel = false) : Removable [] d o where
  notHooked := hin
  notInitial hi := by
    rw [(h.initial o hi).2.1] at htype
    exact ObjType.noConfusion htype
  noLink q hq hl := by
    rw [(h.ring q hq o hl).2.1] at htype
    exact ObjType.noConfusion htype
  leaf ht := by
    rw [htype] at ht
    exact ObjType.noConfusion ht
  notSoft := Or.inr hs

/-- Deletion takes the object out of the hash table or leaves it marked as deleted. -/
structure Gone (o : ℕ) (d d' : Dev) : Prop where
  evolves : Evolves [] [o] d d'
  gone : o ∈ d'.ids → (d'.obj o).unlinked = true ∧ (d'.obj o).deleted = true

theorem genericObjDel_evolves (h : Tied [] d) (ho : Removable [] d o) :
    Evolves [] [o] d (genericObjDel g e o d) ∧ o ∉ (genericObjDel g e o d).ids :=
  genericObjDelWith_evolves (checkGc_evolves false) h ho (Or.inl (by simp))

theorem freeTop_gone (h : Tied [] d) (htype : (d.obj o).variantType = .file)
    (hin : (d.obj o).myInode = none) (hs : (d.obj o).softDel = false) :
    Gone o d (genericObjDel g e o (freeTop o d)) := by
  have htop := (Evolves.refl (S := []) h).same (freeTop_sameTies o d)
  obtain ⟨hdel, hgone⟩ := genericObjDel_evolves (g := g) (e := e) htop.ties
    (htop.ties.file_removable ((htop.type o).trans htype) ((htop.inode o).trans hin) ((htop.soft o (by simp)).trans hs))
  exact ⟨(htop.mono (by simp)).trans hdel, fun hmem => absurd hmem hgone⟩

theorem softDelFile_gone (h : Tied [] d) (hin : (d.obj o).myInode = none)
    (hun : (d.obj o).unlinked = true) (hd : (d.obj o).deleted = true) : Gone o d (softDelFile g e o d) := by
  have hrefl : Gone o d d := ⟨Evolves.refl h, fun _ => ⟨hun, hd⟩⟩
  unfold softDelFile softDelFileWith
  split_ifs with hno hdata
  · exact hrefl
  · simp only [hd, not_or, ne_eq, not_not, Bool.not_eq_true] at hno
    exact freeTop_gone h hno.2.1 hin hno.2.2
  · simp only [hd, not_or, ne_eq, not_not, Bool.not_eq_true] at hno
    have hblocks := (Evolves.refl (S := [o]) h).same (SameTies.setBlocks d ((d.obj o).file.softDel g (groupBase g)
      d.toBlockDev).1)
    have hmark := hblocks.ties.mark (o := o) hin
      (f := fun ob => { ob with file := ((d.obj o).file.softDel g (groupBase g) d.toBlockDev).2, softDel := true })
      rfl id (fun _ => rfl) fun _ => ⟨hno.2.1, hd⟩
    have hev := hblocks.trans hmark
    exact ⟨hev, fun _ => ⟨hev.unlinked o hun, hev.deleted o hd⟩⟩

theorem Gone.of_evolves {d' d'' : Dev} (h : Gone o d' d'') (hev : Evolves [] [o] d d') : Gone o d d'' :=
  ⟨hev.trans h.evolves, h.gone⟩

theorem emptyFile_evolving (o : ℕ) : Evolving [] (emptyFile g e o) := by
  intro d h
  unfold emptyFile
  split_ifs
  · exact resizeFile_evolving o 0 d h
  · exact Evolves.refl h

theorem Tied.takes_initial (h : Tied [] d) {dir : ℕ} (hdir : dir ∈ initialDirs) (ho : o ∉ initialDirs)
    (hleaf : (d.obj o).variantType = .directory → (d.obj o).children = []) : Takes d dir o where
  mem := (h.initial dir hdir).1
  linked := (h.initial dir hdir).2.2.1
  leaf _ := ⟨ho, hleaf⟩

/-- Renaming an object into one of the directories of unlinked and of deleted objects. -/
theorem changeObjName_unlinks (h : Tied [] d) {dir : ℕ} (hdir : dir = objectIdUnlinked ∨ dir = objectIdDeleted)
    (ho : o ∉ initialDirs) (hleaf : (d.obj o).variantType = .directory → (d.obj o).children = []) (name : Name)
    (force : Bool) (shadows : ℕ) :
    Evolves [] [] d (changeObjName g e o (some dir) name force shadows d).1 ∧
      ((changeObjName g e o (some dir) name force shadows d).1.obj o).unlinked = true := by
  have hmem : dir ∈ initialDirs := by
    rcases hdir with rfl | rfl <;> simp [initialDirs]
  have htake := h.takes_initial hmem ho hleaf
  refine ⟨changeObjNameWith_evolves (checkGc_evolves false) h (fun dir' hd => ?_) name force shadows,
    changeObjNameWith_unlinked (checkGc_evolves false) h hdir htake name force shadows⟩
  obtain rfl : dir = dir' := by simpa using hd
  exact htake

theorem unlinkFileIfNeeded_gone (h : Tied [] d) (htype : (d.obj o).variantType = .file)
    (hin : (d.obj o).myInode = none) (hs : (d.obj o).softDel = false) :
    Gone o d (unlinkFileIfNeeded g e o d).1 := by
  have hrem := h.file_removable htype hin hs
  obtain ⟨hname, hun⟩ := changeObjName_unlinks (g := g) (e := e) h (Or.inr rfl) hrem.notInitial
    hrem.leaf deletedName false 0
  unfold unlinkFileIfNeeded
  rw [hin]
  simp only [Option.isSome_none, Bool.false_eq_true, if_false]
  generalize (changeObjName g e o (some objectIdDeleted) deletedName false 0 d).1 = x at *
  obtain ⟨hset, hd⟩ := setDeleted_evolves (o := o) hname.ties ((hname.inode o).trans hin)
  have hempty := emptyFile_evolving (g := g) (e := e) o _ hset.ties
  have hev := ((hname.mono (R := [o]) (by simp)).trans hset).trans (hempty.mono (by simp))
  exact (softDelFile_gone hev.ties ((hev.inode o).trans hin)
    (hempty.unlinked o (hset.unlinked o hun)) (hempty.deleted o hd)).of_evolves hev

theorem delFile_gone (h : Tied [] d) (htype : (d.obj o).variantType = .file)
    (hin : (d.obj o).myInode = none) (hs : (d.obj o).softDel = false) : Gone o d (delFile g e o d).1 := by
  have hempty := emptyFile_evolving (g := g) (e := e) o d h
  have htype' := (hempty.type o).trans htype
  have hin' := (hempty.inode o).trans hin
  have hs' := (hempty.soft o (by simp)).trans hs
  have hev := hempty.mono (R := [o]) (by simp)
  unfold delFile
  simp only
  generalize emptyFile g e o d = x at *
  by_cases hdata : 0 < (x.obj o).nDataChunks
  · rw [if_pos hdata]
    by_cases hun : (x.obj o).unlinked = true
    · simp only [hun, if_true, Bool.true_and]
      by_cases hd : (x.obj o).deleted = true
      · simp only [hd, Bool.not_true, Bool.false_eq_true, if_false]
        exact ⟨hev, fun _ => ⟨hun, hd⟩⟩
      · simp only [hd, Bool.not_false, if_true]
        obtain ⟨hset, hd'⟩ := setDeleted_evolves (o := o) hempty.ties hin'
        exact (softDelFile_gone hset.ties ((hset.inode o).trans hin') (hset.unlinked o hun) hd').of_evolves
          (hev.trans hset)
    · simp only [hun, Bool.false_eq_true, if_false]
      have hgone := unlinkFileIfNeeded_gone (g := g) (e := e) hempty.ties htype' hin' hs'
      generalize unlinkFileIfNeeded g e o x = r at hgone ⊢
      split_ifs with hagain
      · simp only [Bool.and_eq_true, Bool.not_eq_true'] at hagain
        have hin'' := (hgone.evolves.inode o).trans hin'
        obtain ⟨hset, hd'⟩ := setDeleted_evolves (o := o) hgone.evolves.ties hin''
        exact (softDelFile_gone hset.ties ((hset.inode o).trans hin'') (hset.unlinked o hagain.1.2) hd').of_evolves
          ((hev.trans hgone.evolves).trans hset)
      · exact hgone.of_evolves hev
  · rw [if_neg hdata]
    exact (freeTop_gone hempty.ties htype' hin' hs').of_evolves hev

/-- An object that is neither a file nor a hard link can be freed once it has no children. -/
theorem Tied.removable (h : Tied [] d) (ho : o ∉ initialDirs) (htype : (d.obj o).variantType ≠ .hardlink)
    (hin : (d.obj o).myInode = none) (hs : (d.obj o).softDel = false)
    (hleaf : (d.obj o).variantType = .directory → (d.obj o).children = []) : Removable [] d o :=
  ⟨hin, ho, fun q hq hl => htype (h.ring q hq o hl).2.1, hleaf, Or.inr hs⟩

theorem isNonEmptyDir_false (h : isNonEmptyDir d o = false) (htype : (d.obj o).variantType = .directory) :
    (d.obj o).children = [] := by
  simpa [isNonEmptyDir, htype] using h

theorem delDir_evolves (h : Tied [] d) (ho : o ∉ initialDirs) (htype : (d.obj o).variantType = .directory)
    (hin : (d.obj o).myInode = none) (hs : (d.obj o).softDel = false) :
    Evolves [] [o] d (delDir g e o (cleanDir o d)).1 ∧
      ((d.obj o).children = [] → o ∉ (delDir g e o (cleanDir o d)).1.ids) := by
  have hclean : SameTies d (cleanDir o d) := ⟨fun _ => rfl, rfl, rfl⟩
  have hev := (Evolves.refl (S := [o]) h).same hclean
  unfold delDir
  split_ifs with hempty
  · refine ⟨hev, fun hch => ?_⟩
    have : isNonEmptyDir (cleanDir o d) o = false := by
      simp [isNonEmptyDir, cleanDir, hch]
    rw [this] at hempty
    exact Bool.noConfusion hempty
  · have hleaf := isNonEmptyDir_false (d := cleanDir o d) (o := o) (by simpa using hempty) htype
    have hrem : Removable [] (cleanDir o d) o :=
      hev.ties.removable ho (by rw [show ((cleanDir o d).obj o).variantType = _ from htype]; simp) hin hs fun _ => hleaf
    have hgone := genericObjDel_evolves (g := g) (e := e) hev.ties hrem
    exact ⟨hev.trans hgone.1, fun _ => hgone.2⟩

/-- A symbolic link can be freed. -/
theorem Tied.symlink_removable (h : Tied [] d) (htype : (d.obj o).variantType = .symlink)
    (hs : (d.obj o).softDel = false) : Removable [] d o := by
  have hin : (d.obj o).myInode = none := by
    by_contra hin
    have := (h.hooked o (Option.isSome_iff_ne_none.mpr hin)).2.1
    rw [htype] at this
    simp at this
  have hinitial : o ∉ initialDirs := by
    intro hi
    have := (h.initial o hi).2.1
    rw [htype] at this
    exact ObjType.noConfusion this
  exact h.removable hinitial (by rw [htype]; simp) hin hs fun ht => by
    rw [htype] at ht
    exact ObjType.noConfusion ht

theorem delSymlink_evolves (h : Tied [] d) (htype : (d.obj o).variantType = .symlink)
    (hs : (d.obj o).softDel = false) : Evolves [] [o] d (delSymlink g e o d).1 := by
  have hname : SameTies d (d.modObj o fun ob => { ob with aliasName := none }) := SameTies.modObj rfl
  have hev := hname.evolves h
  have hrem := hev.ties.symlink_removable ((hev.type o).trans htype) ((hev.soft o (by simp)).trans hs)
  exact (hev.mono (by simp)).trans (genericObjDel_evolves hev.ties hrem).1

theorem delObj_file (htype : (d.obj o).variantType = .file) : delObj g e o d = delFile g e o d := by
  unfold delObj
  rw [htype]

theorem delObj_directory (htype : (d.obj o).variantType = .directory) :
    delObj g e o d = delDir g e o (cleanDir o d) := by
  unfold delObj
  rw [htype]

/-! ## Hard links -/

/-- A hard link can be freed once it is in no ring. -/
theorem Tied.link_removable (h : Tied [] d) (htype : (d.obj o).variantType = .hardlink)
    (hring : ∀ q ∈ d.ids, o ∉ (d.obj q).hardLinks) : Removable [] d o where
  notHooked := by
    by_contra hin
    have := (h.hooked o (Option.isSome_iff_ne_none.mpr hin)).2.1
    rw [htype] at this
    simp at this
  notInitial hi := by
    have := (h.initial o hi).2.1
    rw [htype] at this
    exact ObjType.noConfusion this
  noLink := hring
  leaf ht := by
    rw [htype] at ht
    exact ObjType.noConfusion ht
  notSoft := by
    by_contra hs
    have := (h.soft o (by simpa using hs)).1
    rw [htype] at this
    exact ObjType.noConfusion this

theorem unlinkRing_obj (o : ℕ) (d : Dev) (q : ℕ) : (unlinkRing o d).obj q =
    { d.obj q with
      hardLinks := if (d.obj o).equivObj = some q then (d.obj q).hardLinks.erase o else (d.obj q).hardLinks } := by
  unfold unlinkRing
  cases heq : (d.obj o).equivObj with
  | none => simp
  | some p =>
    by_cases hq : q = p
    · subst hq
      simp [Dev.modObj]
    · simp [Dev.modObj, hq, Ne.symm hq]

/-- A hard link leaves the ring of its object. -/
theorem unlinkRing_evolves (h : Tied [] d) (o : ℕ) : Evolves [] [] d (unlinkRing o d) ∧
    ∀ q ∈ (unlinkRing o d).ids, o ∉ ((unlinkRing o d).obj q).hardLinks := by
  have hobj := unlinkRing_obj o d
  have hsub : ∀ q, ((unlinkRing o d).obj q).hardLinks ⊆ (d.obj q).hardLinks := by
    intro q
    rw [hobj]
    simp only
    split_ifs
    · exact List.erase_subset
    · exact List.Subset.refl _
  have hids : (unlinkRing o d).ids = d.ids ∧ (unlinkRing o d).gcCleanupList = d.gcCleanupList := by
    unfold unlinkRing
    cases (d.obj o).equivObj <;> exact ⟨rfl, rfl⟩
  have hties : Ties [] d.ids d.gcCleanupList (unlinkRing o d).obj :=
    { nodup := h.nodup
      initial := fun q hq => by rw [hobj]; exact h.initial q hq
      hooked := fun q hq => by rw [hobj] at hq ⊢; exact h.hooked q hq
      kept := fun q => by rw [hobj]; exact h.kept q
      soft := fun q hq => by rw [hobj] at hq ⊢; exact h.soft q hq
      clean := fun q hq => by rw [hobj]; exact h.clean q hq
      ring := fun q hq l hl => by
        have := h.ring q hq l (hsub q hl)
        rw [hobj]
        exact this
      ringNodup := fun q => by
        rw [hobj]
        simp only
        split_ifs
        · exact (h.ringNodup q).erase o
        · exact h.ringNodup q
      parent := fun q hq p hp => by
        rw [hobj] at hp
        have := h.parent q hq p hp
        rw [hobj]
        exact this
      empty := fun q hq => by rw [hobj] at hq ⊢; exact h.empty q hq
      noRing := fun q hq => by
        rw [hobj] at hq
        have hnil := h.noRing q hq
        exact List.eq_nil_of_subset_nil (hnil ▸ hsub q)
      childless := fun q hq => by rw [hobj] at hq ⊢; exact h.childless q hq }
  refine ⟨⟨?_, hids.1 ▸ List.Sublist.refl _, fun q hq _ _ => hids.1 ▸ hq, fun q => by rw [hobj], fun q => by rw [hobj],
    fun q hq => by rw [hobj]; exact hq, fun q hq => by rw [hobj]; exact hq, fun q _ => by rw [hobj],
    fun q _ => by rw [hobj], hsub⟩,
    fun q hq hl => ?_⟩
  · unfold Tied
    rw [hids.1, hids.2]
    exact hties
  · rw [hids.1] at hq
    have heq := (h.ring q hq o (hsub q hl)).2.2
    rw [hobj] at hl
    simp only [heq, if_true] at hl
    exact ((h.ringNodup q).mem_erase_iff.mp hl).1 rfl

theorem delLink_evolves (h : Tied [] d) (htype : (d.obj o).variantType = .hardlink) :
    Evolves [] [o] d (delLink g e o d).1 := by
  obtain ⟨hev, hring⟩ := unlinkRing_evolves h o
  have hrem := hev.ties.link_removable ((hev.type o).trans htype) hring
  exact (hev.mono (by simp)).trans (genericObjDel_evolves hev.ties hrem).1

/-- The link has been put among the unlinked objects, and the object can take its place. -/
theorem handOver_takes {hl : ℕ} (h : Tied [] d) (hid : o ∈ d.ids) (ho : o ∉ initialDirs)
    (htype : (d.obj o).variantType ≠ .hardlink) (hl' : hl ∈ (d.obj o).hardLinks) :
    Evolves [] [] (unlinkRing hl d) (addObjToDir objectIdUnlinked hl (unlinkRing hl d)) ∧
      ∀ dir, (d.obj hl).parent.or ((addObjToDir objectIdUnlinked hl (unlinkRing hl d)).obj o).parent = some dir →
        Takes (addObjToDir objectIdUnlinked hl (unlinkRing hl d)) dir o := by
  obtain ⟨hlid, hlt, -⟩ := h.ring o hid hl hl'
  have hne : o ≠ hl := fun heq => htype (heq ▸ hlt)
  have hodir : (d.obj o).variantType ≠ .directory := fun ht => by
    rw [h.noRing o ht] at hl'
    simp at hl'
  obtain ⟨hunl, hring⟩ := unlinkRing_evolves h hl
  have hlt' := (hunl.type hl).trans hlt
  have hrem := hunl.ties.link_removable hlt' hring
  have htake : Takes (unlinkRing hl d) objectIdUnlinked hl := hrem.takes hunl.ties (by simp [initialDirs])
  have hadd := addObjToDir_evolves hunl.ties htake.mem (hunl.ties.initial objectIdUnlinked (by simp [initialDirs])).2.1
    htake.linked htake.leaf
  have hev := hunl.trans hadd
  -- a directory that holds one of the two is not unlinked, and only the link has been moved
  have hplace : ∀ dir, (∃ q ∈ d.ids, (d.obj q).parent = some dir) →
      Takes (addObjToDir objectIdUnlinked hl (unlinkRing hl d)) dir o := by
    rintro dir ⟨q, hq, hp⟩
    obtain ⟨hmem, hdir, -⟩ := h.parent q hq dir hp
    have hsoft : (d.obj dir).softDel = false := by
      by_contra hs
      have := (h.soft dir (by simpa using hs)).1
      rw [hdir] at this
      exact ObjType.noConfusion this
    have hdl : dir ≠ hl := fun heq => by
      rw [heq, hlt] at hdir
      exact ObjType.noConfusion hdir
    refine ⟨hev.live dir hmem (by simp) hsoft, ?_, fun _ => ⟨ho, fun ht => absurd ((hev.type o).symm.trans ht) hodir⟩⟩
    have := congrArg Obj.unlinked (addObjToDir_obj objectIdUnlinked hl (unlinkRing hl d) dir)
    refine Eq.trans this ?_
    simp only [unlinkRing_obj, hdl, false_and, decide_false, Bool.or_false]
    exact h.parent_linked hq hp
  have hparent : ((addObjToDir objectIdUnlinked hl (unlinkRing hl d)).obj o).parent = (d.obj o).parent := by
    have := congrArg Obj.parent (addObjToDir_obj objectIdUnlinked hl (unlinkRing hl d) o)
    refine Eq.trans this ?_
    simp [hne, unlinkRing_obj]
  refine ⟨hadd, fun dir hd => ?_⟩
  rw [hparent] at hd
  cases hp : (d.obj hl).parent with
  | some p =>
    rw [hp] at hd
    exact hplace dir ⟨hl, hlid, hp.trans (by simpa using hd)⟩
  | none =>
    rw [hp] at hd
    exact hplace dir ⟨o, hid, by simpa using hd⟩

/-- An object takes the place of its first hard link, which is deleted. -/
theorem handOver_evolves {hl : ℕ} (h : Tied [] d) (hid : o ∈ d.ids) (ho : o ∉ initialDirs)
    (htype : (d.obj o).variantType ≠ .hardlink) (hl' : hl ∈ (d.obj o).hardLinks) :
    Evolves [] [hl] d (handOver g e o hl d).1 := by
  obtain ⟨-, hlt, -⟩ := h.ring o hid hl hl'
  obtain ⟨hunl, hring⟩ := unlinkRing_evolves h hl
  have hlt' := (hunl.type hl).trans hlt
  have hrem := hunl.ties.link_removable hlt' hring
  obtain ⟨hadd, hplace⟩ := handOver_takes h hid ho htype hl'
  have hev := hunl.trans hadd
  have hname := changeObjNameWith_evolves (g := g) (e := e) (checkGc_evolves (g := g) (e := e) false) hev.ties
    hplace (getObjName d hl) false 0
  have hmove := hev.trans hname
  unfold handOver
  simp only
  split
  · have hrem' := hrem.evolves (hadd.trans hname) fun ht => by
      rw [hlt'] at ht
      exact ObjType.noConfusion ht
    exact (hmove.mono (by simp)).trans (genericObjDel_evolves hmove.ties hrem').1
  · exact hmove.mono (by simp)

/-! ## Unlinking -/

theorem unlinkNamed_evolves (h : Tied [] d) (hid : o ∈ d.ids) (ho : o ∉ initialDirs)
    (hs : (d.obj o).softDel = false) :
    ∃ S, (∀ q ∈ S, (d.obj q).myInode = none) ∧
      Evolves [] S d (unlinkNamed g e o (d.obj o).myInode.isNone d).1 := by
  have hrefl : Evolves [] [] d d := Evolves.refl h
  unfold unlinkNamed
  by_cases hlink : (d.obj o).variantType = .hardlink
  · rw [if_pos hlink]
    refine ⟨[o], fun q hq => ?_, delLink_evolves h hlink⟩
    obtain rfl : q = o := by simpa using hq
    by_contra hin
    have := (h.hooked q (Option.isSome_iff_ne_none.mpr hin)).2.1
    rw [hlink] at this
    simp at this
  · rw [if_neg hlink]
    cases hring : (d.obj o).hardLinks with
    | cons hl ls =>
      have hmem : hl ∈ (d.obj o).hardLinks := by simp [hring]
      refine ⟨[hl], fun q hq => ?_, handOver_evolves h hid ho hlink hmem⟩
      obtain rfl : q = hl := by simpa using hq
      by_contra hin
      have := (h.hooked q (Option.isSome_iff_ne_none.mpr hin)).2.1
      rw [(h.ring o hid q hmem).2.1] at this
      simp at this
    | nil =>
      by_cases hin : (d.obj o).myInode = none
      · have hone : ∀ q ∈ [o], (d.obj q).myInode = none := fun q hq => by
          obtain rfl : q = o := by simpa using hq
          exact hin
        simp only [hin, Option.isNone_none, if_true]
        cases htype : (d.obj o).variantType with
        | file => exact ⟨[o], hone, (delFile_gone h htype hin hs).evolves⟩
        | directory => exact ⟨[o], hone, (delDir_evolves h ho htype hin hs).1⟩
        | symlink => exact ⟨[o], hone, delSymlink_evolves h htype hs⟩
        | special =>
          have hrem := h.removable ho (by simp [htype]) hin hs fun ht => by simp [htype] at ht
          exact ⟨[o], hone, (genericObjDel_evolves h hrem).1⟩
        | hardlink => exact absurd htype hlink
        | unknown => exact ⟨[], by simp, hrefl⟩
        | other _ => exact ⟨[], by simp, hrefl⟩
      · have hsome : (d.obj o).myInode.isNone = false := by
          rw [Option.isNone_eq_false_iff, Option.isSome_iff_ne_none]
          exact hin
        simp only [hsome, Bool.false_eq_true, if_false]
        split_ifs with hempty
        · exact ⟨[], by simp, hrefl⟩
        · exact ⟨[], by simp, (changeObjName_unlinks h (Or.inl rfl) ho
            (isNonEmptyDir_false (by simpa using hempty)) unlinkedName false 0).1⟩

theorem unlinkObj_evolves (h : Tied [] d) (hid : o ∈ d.ids) (hs : (d.obj o).softDel = false) :
    ∃ S, (∀ q ∈ S, (d.obj q).myInode = none) ∧ Evolves [] S d (unlinkObj g e o d).1 := by
  unfold unlinkObj
  split_ifs with hallow
  · have hinitial : o ∉ initialDirs := fun hi => by
      rw [(h.initial o hi).2.2.2] at hallow
      exact Bool.noConfusion hallow
    have hparent := updateParentWith_evolves (g := g) (e := e) (checkGc_evolves (g := g) (e := e) false) h
      (d.obj o).parent
    have hlive := hparent.live o hid (by simp) hs
    obtain ⟨S, hS, hev⟩ := unlinkNamed_evolves (g := g) (e := e) hparent.ties hlive hinitial
      ((hparent.soft o (by simp)).trans hs)
    refine ⟨S, fun q hq => (hparent.inode q).symm.trans (hS q hq), (hparent.mono (by simp)).trans ?_⟩
    unfold unlinkWorker
    rw [← hparent.inode o]
    exact hev
  · exact ⟨[], by simp, Evolves.refl h⟩

/-! ## Creating -/

/-- `yaffs_new_obj_id` never returns a number in use. -/
theorem newObjIdLoop_notMem (ids : List ℕ) (fuel : ℕ) : ∀ n, (ids.filter (n < ·)).length ≤ fuel →
    newObjIdLoop ids fuel n ∉ ids := by
  induction fuel with
  | zero =>
    intro n hn hmem
    have hin : newObjIdLoop ids 0 n ∈ ids.filter (n < ·) := by
      refine List.mem_filter.mpr ⟨hmem, ?_⟩
      simp [newObjIdLoop, nObjectBuckets]
    rw [List.length_eq_zero_iff.mp (Nat.le_zero.mp hn)] at hin
    simp at hin
  | succ fuel ih =>
    intro n hn
    unfold newObjIdLoop
    split_ifs with hmem
    · refine ih _ ?_
      -- the number met lies above `n` and not above itself
      have hlt : (ids.filter (n + nObjectBuckets < ·)).length < (ids.filter (n < ·)).length := by
        have hsub : (ids.filter (n + nObjectBuckets < ·)).Sublist (ids.filter (n < ·)) := by
          refine List.monotone_filter_right ids fun x hx => ?_
          simp only [decide_eq_true_eq] at hx ⊢
          omega
        refine Nat.lt_of_le_of_ne hsub.length_le fun heq => ?_
        have hin : n + nObjectBuckets ∈ ids.filter (n < ·) := by
          refine List.mem_filter.mpr ⟨hmem, ?_⟩
          simp [nObjectBuckets]
        rw [← hsub.eq_of_length heq] at hin
        simp at hin
      omega
    · exact hmem

theorem findNiceBucket_sameTies (d : Dev) : SameTies d (findNiceBucket d).1 := by
  have hloop : ∀ n lowest l (x : Dev), SameTies x (findNiceBucketLoop n lowest l x).1 := by
    intro n
    induction n with
    | zero => exact fun _ _ x => SameTies.refl x
    | succ n ih =>
      intro lowest l x
      have hfinder : SameTies x { x with bucketFinder := (x.bucketFinder + 1) % nObjectBuckets } :=
        ⟨fun _ => rfl, rfl, rfl⟩
      unfold findNiceBucketLoop
      simp only
      split_ifs
      · exact hfinder.trans (ih _ _ _)
      · exact hfinder.trans (ih _ _ _)
      · exact SameTies.refl x
  exact hloop 10 999999 999 d

theorem newObjId_notMem (d : Dev) : (newObjId d).2 ∉ (newObjId d).1.ids :=
  newObjIdLoop_notMem _ _ _ (List.length_filter_le _ _)

/-- The number `n` may have been given to a new object; the others have evolved. -/
structure Creates (n : ℕ) (d d' : Dev) : Prop where
  ties : Tied [] d'
  ids : ∀ o ∈ d'.ids, o = n ∨ o ∈ d.ids
  inode : ∀ o, (d'.obj o).myInode = (d.obj o).myInode
  unlinked : ∀ o, o ≠ n → (d.obj o).unlinked = true → (d'.obj o).unlinked = true

theorem Creates.evolves {n : ℕ} {S : List ℕ} {d d' d'' : Dev} (h : Creates n d d') (h' : Evolves [] S d' d'') :
    Creates n d d'' where
  ties := h'.ties
  ids o ho := h.ids o (h'.ids.subset ho)
  inode o := (h'.inode o).trans (h.inode o)
  unlinked o ho hu := h'.unlinked o (h.unlinked o ho hu)

theorem Evolves.creates {S : List ℕ} {d d' : Dev} (h : Evolves [] S d d') (n : ℕ) : Creates n d d' :=
  ⟨h.ties, fun _ ho => Or.inr (h.ids.subset ho), h.inode, fun _ _ => h.unlinked _⟩

/-- An object that is not in the hash table is set up. -/
theorem Creates.fresh {n : ℕ} {d d' : Dev} (h : Creates n d d') (hn : n ∉ d'.ids) {f : Obj → Obj}
    (hin : (f (d'.obj n)).myInode = none) (hdef : (f (d'.obj n)).deferredFree = false)
    (hsoft : (f (d'.obj n)).softDel = false) (hring : (f (d'.obj n)).hardLinks = [])
    (hch : (f (d'.obj n)).children = []) : Creates n d (d'.modObj n f) := by
  have hself : (d'.modObj n f).obj n = f (d'.obj n) := by simp [Dev.modObj]
  have hne : ∀ q, q ≠ n → (d'.modObj n f).obj q = d'.obj q := fun q hq => by simp [Dev.modObj, hq]
  have hmem : ∀ q ∈ d'.ids, q ≠ n := fun q hq heq => hn (heq ▸ hq)
  have hties := h.ties
  have hnone : (d'.obj n).myInode = none := by
    by_contra hno
    exact hn (hties.hooked n (Option.isSome_iff_ne_none.mpr hno)).1
  refine ⟨?_, h.ids, fun o => ?_, fun o ho hu => by rw [hne o ho]; exact h.unlinked o ho hu⟩
  · exact
      { nodup := hties.nodup
        initial := fun q hq => by
          rw [hne q (hmem q (hties.initial q hq).1)]
          exact hties.initial q hq
        hooked := fun q hq => by
          by_cases hqn : q = n
          · rw [hqn, hself, hin] at hq
            simp at hq
          · rw [hne q hqn] at hq ⊢
            exact hties.hooked q hq
        kept := fun q => by
          by_cases hqn : q = n
          · rw [hqn, hself, hdef]
          · rw [hne q hqn]
            exact hties.kept q
        soft := fun q hq => by
          by_cases hqn : q = n
          · rw [hqn, hself, hsoft] at hq
            exact Bool.noConfusion hq
          · rw [hne q hqn] at hq ⊢
            exact hties.soft q hq
        clean := fun q hq => by
          obtain ⟨hqm, hs⟩ := (hties.clean q hq).resolve_left (by simp)
          rw [hne q (hmem q hqm)]
          exact Or.inr ⟨hqm, hs⟩
        ring := fun q hq l hl => by
          rw [hne q (hmem q hq)] at hl
          have := hties.ring q hq l hl
          rw [hne l (hmem l this.1)]
          exact this
        ringNodup := fun q => by
          by_cases hqn : q = n
          · rw [hqn, hself, hring]
            exact List.nodup_nil
          · rw [hne q hqn]
            exact hties.ringNodup q
        parent := fun q hq p hp => by
          rw [hne q (hmem q hq)] at hp
          have := hties.parent q hq p hp
          rw [hne p (hmem p this.1)]
          exact this
        empty := fun q hq => by
          by_cases hqn : q = n
          · rw [hqn, hself, hch]
          · rw [hne q hqn] at hq ⊢
            exact hties.empty q hq
        noRing := fun q hq => by
          by_cases hqn : q = n
          · rw [hqn, hself, hring]
          · rw [hne q hqn] at hq ⊢
            exact hties.noRing q hq
        childless := fun q hq => by
          by_cases hqn : q = n
          · rw [hqn, hself, hch]
          · rw [hne q hqn] at hq ⊢
            exact hties.childless q hq }
  · by_cases hon : o = n
    · rw [hon, hself, hin, ← h.inode, hnone]
    · rw [hne o hon]
      exact h.inode o

/-- A new object enters the hash table. -/
theorem Creates.hash {n p : ℕ} {d d' : Dev} (h : Creates n d d') (hn : n ∉ d'.ids)
    (hparent : (d'.obj n).parent = some p) (hp : p ∈ d'.ids) (htype : (d'.obj p).variantType = .directory)
    (hch : n ∈ (d'.obj p).children) (hring : (d'.obj n).hardLinks = []) : Creates n d (hashObj n d') := by
  have hties := h.ties
  refine ⟨?_, fun o ho => ?_, h.inode, h.unlinked⟩
  · exact
      { nodup := List.nodup_cons.mpr ⟨hn, hties.nodup⟩
        initial := fun q hq => ⟨List.mem_cons_of_mem _ (hties.initial q hq).1, (hties.initial q hq).2⟩
        hooked := fun q hq => ⟨List.mem_cons_of_mem _ (hties.hooked q hq).1, (hties.hooked q hq).2⟩
        kept := hties.kept
        soft := hties.soft
        clean := fun q hq => (hties.clean q hq).imp id fun hc => ⟨List.mem_cons_of_mem _ hc.1, hc.2⟩
        ring := fun q hq l hl => by
          rcases List.mem_cons.mp hq with rfl | hq
          · have hl : l ∈ (d'.obj q).hardLinks := hl
            rw [hring] at hl
            simp at hl
          · have := hties.ring q hq l hl
            exact ⟨List.mem_cons_of_mem _ this.1, this.2⟩
        ringNodup := hties.ringNodup
        parent := fun q hq p' hp' => by
          rcases List.mem_cons.mp hq with rfl | hq
          · obtain rfl : p = p' := Option.some.inj (hparent.symm.trans hp')
            exact ⟨List.mem_cons_of_mem _ hp, htype, hch⟩
          · have := hties.parent q hq p' hp'
            exact ⟨List.mem_cons_of_mem _ this.1, this.2⟩
        empty := hties.empty
        noRing := hties.noRing
        childless := hties.childless }
  · rcases List.mem_cons.mp ho with ho | ho
    · exact Or.inl ho
    · exact h.ids o ho

theorem addChild_evolves {dir : ℕ} (h : Tied [] d) (htype : (d.obj dir).variantType = .directory)
    (hun : (d.obj dir).unlinked = false) (o : ℕ) :
    Evolves [] [] d (d.modObj dir fun ob => { ob with children := o :: ob.children }) := by
  have hobj : ∀ q, (d.modObj dir fun ob => { ob with children := o :: ob.children }).obj q =
      { d.obj q with children := if q = dir then o :: (d.obj q).children else (d.obj q).children } := by
    intro q
    by_cases hq : q = dir
    · subst hq
      simp [Dev.modObj]
    · simp [Dev.modObj, hq]
  refine Evolves.move h rfl rfl (fun q => by rw [hobj]; rfl) (fun q hq => by rw [hobj]; exact hq)
    (fun q hq => by rw [hobj]; exact (h.initial q hq).2.2.1) (fun q hq p hp => ?_) (fun q hq => ?_) fun q hq => ?_
  · rw [hobj] at hp
    obtain ⟨hpm, hdir, hch⟩ := h.parent q hq p hp
    refine ⟨hpm, hdir, ?_⟩
    rw [hobj]
    simp only
    split_ifs
    · exact List.mem_cons_of_mem _ hch
    · exact hch
  · rw [hobj] at hq ⊢
    have hqd : q ≠ dir := by
      rintro rfl
      rw [hun] at hq
      exact Bool.noConfusion hq
    simp only [if_neg hqd]
    exact h.empty q hq
  · rw [hobj]
    have hqd : q ≠ dir := fun heq => hq (heq ▸ htype)
    simp only [if_neg hqd]
    exact h.childless q hq

/-- What an object must be to take another one as a child. -/
structure SamePlace (ob ob' : Obj) : Prop where
  type : ob'.variantType = ob.variantType
  unlinked : ob'.unlinked = ob.unlinked

theorem SamePlace.trans {ob ob' ob'' : Obj} (h : SamePlace ob ob') (h' : SamePlace ob' ob'') : SamePlace ob ob'' :=
  ⟨h'.type.trans h.type, h'.unlinked.trans h.unlinked⟩

theorem SameTies.place {d d' : Dev} (h : SameTies d d') (q : ℕ) : SamePlace (d.obj q) (d'.obj q) :=
  ⟨h.get Obj.variantType q, h.get Obj.unlinked q⟩

theorem SamePlace.modObj {q : ℕ} (f : Obj → Obj) (hq : q ≠ o ∨ SamePlace (d.obj o) (f (d.obj o))) :
    SamePlace (d.obj q) ((d.modObj o f).obj q) := by
  by_cases hqo : q = o
  · subst hqo
    simpa [Dev.modObj] using hq
  · simp only [Dev.modObj, Function.update_of_ne hqo]
    exact ⟨rfl, rfl⟩

theorem addObjToDir_place {dir q : ℕ} (hq : q ≠ o ∨ ¬(dir = objectIdUnlinked ∨ dir = objectIdDeleted)) :
    SamePlace (d.obj q) ((addObjToDir dir o d).obj q) := by
  have hobj := addObjToDir_obj dir o d q
  refine ⟨(congrArg Obj.variantType hobj : _), (congrArg Obj.unlinked hobj : _).trans ?_⟩
  have : ¬(q = o ∧ (dir = objectIdUnlinked ∨ dir = objectIdDeleted)) := fun hc => hq.elim (· hc.1) (· hc.2)
  simp only [this, decide_false, Bool.or_false]

/-- The object `yaffs_alloc_empty_obj` makes lies in lost+found. -/
theorem allocEmptyObj_spec {n : ℕ} (h : Tied [] d) (hn : n ∉ d.ids) :
    if (allocEmptyObj e n d).2 then
      Creates n d (allocEmptyObj e n d).1 ∧ (allocEmptyObj e n d).1.ids = d.ids ∧
        ((allocEmptyObj e n d).1.obj n).ties = { parent := some objectIdLostNFound } ∧
        n ∈ ((allocEmptyObj e n d).1.obj objectIdLostNFound).children ∧
        ∀ q, q ≠ n → SamePlace (d.obj q) ((allocEmptyObj e n d).1.obj q)
    else SameTies d (allocEmptyObj e n d).1 := by
  unfold allocEmptyObj
  simp only
  have hcall := SameTies.mapBlocks d fun b => { b with nand := { b.nand with calls := b.nand.calls + 1 } }
  generalize d.mapBlocks (fun b => { b with nand := { b.nand with calls := b.nand.calls + 1 } }) = x at *
  cases e.allocOk d.nand.calls
  · simpa using hcall
  · simp only [if_true]
    have hx := (hcall.evolves h).creates n
    have hnx : n ∉ x.ids := hcall.ids ▸ hn
    have hroot := h.initial objectIdRoot (by simp [initialDirs])
    have hne : objectIdRoot ≠ n := fun heq => hn (heq ▸ hroot.1)
    have hlost : objectIdLostNFound ≠ n :=
      fun heq => hn (heq ▸ (h.initial objectIdLostNFound (by simp [initialDirs])).1)
    have hfresh := hx.fresh hnx (f := fun _ => { parent := some objectIdRoot }) rfl rfl rfl rfl rfl
    have hself : (x.modObj n fun _ => { parent := some objectIdRoot }).obj n = { parent := some objectIdRoot } := by
      simp [Dev.modObj]
    have hids : (x.modObj n fun _ => { parent := some objectIdRoot }).ids = d.ids := hcall.ids
    have hplace : ∀ q, q ≠ n → SamePlace (d.obj q) ((x.modObj n fun _ => { parent := some objectIdRoot }).obj q) :=
      fun q hq => (hcall.place q).trans (SamePlace.modObj _ (Or.inl hq))
    generalize x.modObj n (fun _ => { parent := some objectIdRoot }) = y at *
    have hrooty := hfresh.ties.initial objectIdRoot (by simp [initialDirs])
    have hadd := addChild_evolves hfresh.ties hrooty.2.1 hrooty.2.2.1 n
    have hself' : (y.modObj objectIdRoot fun ob => { ob with children := n :: ob.children }).obj n =
        { parent := some objectIdRoot } := by
      simp [Dev.modObj, Ne.symm hne, hself]
    have hids' : (y.modObj objectIdRoot fun ob => { ob with children := n :: ob.children }).ids = d.ids := hids
    have hplace' : ∀ q, q ≠ n → SamePlace (d.obj q)
        ((y.modObj objectIdRoot fun ob => { ob with children := n :: ob.children }).obj q) :=
      fun q hq => (hplace q hq).trans (SamePlace.modObj _ (Or.inr ⟨rfl, rfl⟩))
    have hsame : ∀ z : Dev, SameTies z { z with nObj := z.nObj + 1 } := fun z => ⟨fun _ => rfl, rfl, rfl⟩
    have hz := hadd.same (hsame _)
    have hselfz : ({ (y.modObj objectIdRoot fun ob => { ob with children := n :: ob.children }) with
        nObj := (y.modObj objectIdRoot fun ob => { ob with children := n :: ob.children }).nObj + 1 } : Dev).obj n =
        { parent := some objectIdRoot } := hself'
    have hidsz : ({ (y.modObj objectIdRoot fun ob => { ob with children := n :: ob.children }) with
        nObj := (y.modObj objectIdRoot fun ob => { ob with children := n :: ob.children }).nObj + 1 } : Dev).ids =
        d.ids := hids'
    have hplacez : ∀ q, q ≠ n → SamePlace (d.obj q)
        (({ (y.modObj objectIdRoot fun ob => { ob with children := n :: ob.children }) with
          nObj := (y.modObj objectIdRoot fun ob => { ob with children := n :: ob.children }).nObj + 1 } : Dev).obj q) :=
      hplace'
    generalize ({ (y.modObj objectIdRoot fun ob => { ob with children := n :: ob.children }) with
        nObj := (y.modObj objectIdRoot fun ob => { ob with children := n :: ob.children }).nObj + 1 } : Dev) = z at *
    have hlostz := hz.ties.initial objectIdLostNFound (by simp [initialDirs])
    have hmove := addObjToDir_evolves (o := n) hz.ties hlostz.1 hlostz.2.1 hlostz.2.2.1
      fun hd => by simp [objectIdLostNFound, objectIdUnlinked, objectIdDeleted] at hd
    have hobj := addObjToDir_obj objectIdLostNFound n z
    refine ⟨(hfresh.evolves hz).evolves hmove, ?_, ?_, ?_,
      fun q hq => (hplacez q hq).trans (addObjToDir_place (Or.inl hq))⟩
    · rw [← hidsz]
      unfold addObjToDir removeObjFromDir
      cases (z.obj n).parent <;> simp only <;> split_ifs <;> rfl
    · have hplain : ¬(objectIdLostNFound = objectIdUnlinked ∨ objectIdLostNFound = objectIdDeleted) := by decide
      rw [hobj, leftChildren_nil (by rw [hselfz]), if_pos rfl, if_neg (Ne.symm hlost), hselfz]
      simp only [hplain, and_false, decide_false, Bool.or_false]
      rfl
    · have := congrArg Obj.children (hobj objectIdLostNFound)
      rw [show ((addObjToDir objectIdLostNFound n z).obj objectIdLostNFound).children = _ from this]
      simp

/-- A new object of type `type` is in the hash table, and has no mark. -/
structure NewObj (type : ObjType) (n : ℕ) (d d' : Dev) : Prop where
  creates : Creates n d d'
  new : n ∉ d.ids
  mem : n ∈ d'.ids
  kept : ∀ q ∈ d.ids, q ∈ d'.ids
  place : ∀ q, q ≠ n → SamePlace (d.obj q) (d'.obj q)
  ties : (d'.obj n).ties =
    { variantType := type, parent := some objectIdLostNFound, unlinkAllowed := true }

theorem newObj_new (type : ObjType) (h : Tied [] d) :
    (∃ n, (newObj g e type d).2 = some n ∧ NewObj type n d (newObj g e type d).1) ∨
      (newObj g e type d).2 = none ∧ SameTies d (newObj g e type d).1 := by
  have hnew : (newObjId d).2 ∉ (newObjId d).1.ids := newObjId_notMem d
  have hbucket : SameTies d (newObjId d).1 := findNiceBucket_sameTies d
  unfold newObj
  simp only
  generalize (newObjId d).2 = n at *
  generalize (newObjId d).1 = x at *
  have htnode : SameTies d (if type = .file then x.onBlocks (getTnode e) else (x, true)).1 := by
    split_ifs
    · exact hbucket.trans (onBlocks_sameTies x (getTnode e))
    · exact hbucket
  have hids : (if type = .file then x.onBlocks (getTnode e) else (x, true)).1.ids = x.ids := by
    split_ifs <;> rfl
  generalize (if type = .file then x.onBlocks (getTnode e) else (x, true)) = r at *
  cases hr : r.2
  · exact Or.inr ⟨rfl, htnode⟩
  · simp only [if_true]
    have hty := htnode.evolves h
    have hspec := allocEmptyObj_spec (e := e) hty.ties (hids ▸ hnew)
    cases hq : (allocEmptyObj e n r.1).2
    · simp only [hq, Bool.false_eq_true, if_false] at hspec ⊢
      refine Or.inr ⟨trivial, ?_⟩
      split_ifs
      · exact (htnode.trans hspec).trans (SameTies.mapBlocks _ _)
      · exact htnode.trans hspec
    · simp only [hq, if_true] at hspec ⊢
      obtain ⟨hcreate, hids', hobj, hch, hplace⟩ := hspec
      refine Or.inl ⟨n, rfl, ?_⟩
      generalize (allocEmptyObj e n r.1).1 = y at *
      have hny : n ∉ y.ids := by
        rw [hids', hids]
        exact hnew
      have hget : ∀ {α : Type} (k : Obj → α), k (y.obj n).ties = k { parent := some objectIdLostNFound } :=
        fun k => congrArg k hobj
      have hcreate : Creates n d y :=
        ⟨hcreate.ties, fun o ho => (hcreate.ids o ho).imp id fun hm => htnode.ids ▸ hm,
          fun o => (hcreate.inode o).trans (hty.inode o),
          fun o hne hu => hcreate.unlinked o hne (hty.unlinked o hu)⟩
      have hfresh := hcreate.fresh hny (f := fun ob =>
        { ob with
          renameAllowed := true
          unlinkAllowed := true
          variantType := type
          file :=
            if type = .file then { shrinkSize := g.maxFileSize, topLevel := 0, top := some (Tnode.empty 0) }
            else {} })
        (hget Obj.myInode) (hget Obj.deferredFree) (hget Obj.softDel) (hget Obj.hardLinks) (hget Obj.children)
      have hself : ∀ f : Obj → Obj, (y.modObj n f).obj n = f (y.obj n) := fun f => by simp [Dev.modObj]
      have hlost := hfresh.ties.initial objectIdLostNFound (by simp [initialDirs])
      have hln : objectIdLostNFound ≠ n := fun heq => hny (heq ▸ hlost.1)
      have hhash := hfresh.hash (p := objectIdLostNFound) hny (by rw [hself]; exact hget Obj.parent) hlost.1 hlost.2.1
        (by simpa [Dev.modObj, hln] using hch) (by rw [hself]; exact hget Obj.hardLinks)
      have hinit : ∀ q, q ≠ n → SamePlace (y.obj q) ((initObj g n type y).obj q) := fun q hq => by
        have hobj : (initObj g n type y).obj q = y.obj q := by simp [initObj, hashObj, Dev.modObj, hq]
        rw [hobj]
        exact ⟨rfl, rfl⟩
      refine ⟨hhash, fun hm => hnew (hbucket.ids.symm ▸ hm), List.mem_cons_self,
        fun q hq => List.mem_cons_of_mem _ (hids'.symm ▸ htnode.ids.symm ▸ hq), fun q hq =>
          ((htnode.place q).trans (hplace q hq)).trans (hinit q hq), ?_⟩
      unfold initObj hashObj
      simp only
      rw [hself]
      have := congrArg (fun ob : Obj => { ob with variantType := type, unlinkAllowed := true }) hobj
      exact this

/-- A new file is in the hash table, and has no mark. -/
structure NewFile (n : ℕ) (d d' : Dev) : Prop where
  creates : Creates n d d'
  new : n ∉ d.ids
  mem : n ∈ d'.ids
  kept : ∀ q ∈ d.ids, q ∈ d'.ids
  place : ∀ q, q ≠ n → SamePlace (d.obj q) (d'.obj q)
  ties : (d'.obj n).ties =
    { variantType := .file, parent := some objectIdLostNFound, unlinkAllowed := true }

theorem NewObj.newFile {n : ℕ} {d d' : Dev} (h : NewObj .file n d d') : NewFile n d d' :=
  ⟨h.creates, h.new, h.mem, h.kept, h.place, h.ties⟩

theorem newObj_spec (h : Tied [] d) :
    (∃ n, (newObj g e .file d).2 = some n ∧ NewFile n d (newObj g e .file d).1) ∨
      (newObj g e .file d).2 = none ∧ SameTies d (newObj g e .file d).1 :=
  (newObj_new .file h).imp (fun ⟨n, hn, hnew⟩ => ⟨n, hn, hnew.newFile⟩) id

/-- The new file moves to its directory. -/
theorem setupObj_spec {n parent : ℕ} {d' : Dev} (h : NewFile n d d') (hp : parent ∈ d.ids)
    (htype : (d.obj parent).variantType = .directory) (hun : (d.obj parent).unlinked = false)
    (hplain : ¬(parent = objectIdUnlinked ∨ parent = objectIdDeleted))
    (name : Name) (equiv : ℕ) (aliasStr : Option Name) :
    Creates n d (setupObj n parent .file name equiv aliasStr d') ∧
      n ∈ (setupObj n parent .file name equiv aliasStr d').ids ∧
      ((setupObj n parent .file name equiv aliasStr d').obj n).unplaced =
        { variantType := .file, unlinkAllowed := true } := by
  have hpn : parent ≠ n := fun heq => h.new (heq ▸ hp)
  have hname : SameTies d' (d'.modObj n fun ob => { setObjName n name ob with dirty := true }) :=
    SameTies.modObj (setObjName_ties n name _)
  have hplace := (h.place parent hpn).trans (hname.place parent)
  have hev := hname.evolves h.creates.ties
  have hmem := hname.ids.symm ▸ h.kept parent hp
  have hmove := addObjToDir_evolves (o := n) hev.ties hmem (hplace.type.trans htype)
    (hplace.unlinked.trans hun) fun hd => absurd hd hplain
  have hties := (hname.obj n).trans h.ties
  unfold setupObj
  simp only
  refine ⟨(h.creates.evolves hev).evolves hmove, ?_, ?_⟩
  · have hids : ∀ x : Dev, (addObjToDir parent n x).ids = x.ids := fun x => by
      unfold addObjToDir removeObjFromDir
      cases (x.obj n).parent <;> simp only <;> split_ifs <;> rfl
    rw [hids]
    exact hname.ids.symm ▸ h.mem
  · have := congrArg Obj.unplaced (addObjToDir_obj parent n
      (d'.modObj n fun ob => { setObjName n name ob with dirty := true }) n)
    refine Eq.trans this ?_
    rw [hties]
    rfl

/-- A file created is new, in the hash table and has no mark; else no new object is left that is
not unlinked. -/
theorem createObj_spec {parent : ℕ} (h : Tied [] d) (hp : parent ∈ d.ids)
    (htype : (d.obj parent).variantType = .directory) (hun : (d.obj parent).unlinked = false)
    (hplain : ¬(parent = objectIdUnlinked ∨ parent = objectIdDeleted))
    (name : Name) (equiv : ℕ) (aliasStr : Name) :
    (∃ n, (createObj g e .file parent name equiv aliasStr d).2 = some n ∧
      Creates n d (createObj g e .file parent name equiv aliasStr d).1 ∧ n ∉ d.ids ∧
      n ∈ (createObj g e .file parent name equiv aliasStr d).1.ids ∧
      ((createObj g e .file parent name equiv aliasStr d).1.obj n).variantType = .file ∧
      ((createObj g e .file parent name equiv aliasStr d).1.obj n).deleted = false) ∨
    (createObj g e .file parent name equiv aliasStr d).2 = none ∧
      ∃ n, Creates n d (createObj g e .file parent name equiv aliasStr d).1 ∧ n ∉ d.ids ∧
        (n ∈ (createObj g e .file parent name equiv aliasStr d).1.ids →
          ((createObj g e .file parent name equiv aliasStr d).1.obj n).unlinked = true) := by
  have hfree : (newObjId d).2 ∉ d.ids := by
    have := newObjId_notMem d
    rwa [show (newObjId d).1.ids = d.ids from (findNiceBucket_sameTies d).ids] at this
  unfold createObj
  simp only [reduceCtorEq, if_false]
  split_ifs with hfound
  · exact Or.inr ⟨rfl, (newObjId d).2, (Evolves.refl (S := []) h).creates _, hfree, fun hm => absurd hm hfree⟩
  · rcases newObj_spec (g := g) (e := e) h with ⟨n, hsome, hnew⟩ | ⟨hnone, hsame⟩
    · rw [hsome]
      simp only
      generalize (newObj g e .file d).1 = x at *
      obtain ⟨hset, hmem, hmark⟩ := setupObj_spec hnew hp htype hun hplain name equiv (some [])
      generalize setupObj n parent .file name equiv (some []) x = y at *
      have hget : ∀ {α : Type} (k : Obj → α), k (y.obj n).unplaced = k { variantType := .file, unlinkAllowed := true } :=
        fun k => congrArg k hmark
      have htypen : (y.obj n).variantType = .file := hget Obj.variantType
      have hsoft : (y.obj n).softDel = false := hget Obj.softDel
      have hdel : (y.obj n).deleted = false := hget Obj.deleted
      have hin : (y.obj n).myInode = none := hget Obj.myInode
      have hhdr := updateOhWith_evolves (g := g) (e := e) (checkGc_evolves (g := g) (e := e) false) hset.ties n
        (some name) false false 0
      unfold finishObj updateOh
      simp only
      generalize updateOhWith g e (checkGc g e false) n (some name) false false 0 y = r at hhdr ⊢
      split
      · rw [delObj_file ((hhdr.type n).trans htypen)]
        have hgone := delFile_gone (g := g) (e := e) hhdr.ties ((hhdr.type n).trans htypen) ((hhdr.inode n).trans hin)
          ((hhdr.soft n (by simp)).trans hsoft)
        exact Or.inr ⟨rfl, n, (hset.evolves hhdr).evolves hgone.evolves, hnew.new, fun hm => (hgone.gone hm).1⟩
      · have hparent := updateParentWith_evolves (g := g) (e := e) (checkGc_evolves (g := g) (e := e) false) hhdr.ties
          (some parent)
        have hall := hhdr.trans hparent
        exact Or.inl ⟨n, rfl, hset.evolves hall, hnew.new, hall.live n hmem (by simp) hsoft,
          (hall.type n).trans htypen, (hall.alive n (by simp)).trans hdel⟩
    · rw [hnone]
      exact Or.inr ⟨rfl, (newObjId d).2, (hsame.evolves h).creates _, hfree,
        fun hm => absurd (hsame.ids ▸ hm) hfree⟩

end Yaffs
