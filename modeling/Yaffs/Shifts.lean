import Yaffs.CacheRun
import Yaffs.Moves

/-!
# Calls that move objects

Deleting, unlinking, renaming and creating objects make the moves `Moves` lists, and the other calls of the
core make none. A rename that replaces an object by the first of its own hard links is left out : unlinking
the target frees the object that is being renamed.
-/

namespace Yaffs

open LiveList

variable {g : Geometry} {e : Env} {gc : Dev → Dev} {d d' : Dev} {o : ℕ}

/-! ## Deleting objects -/

theorem unlinked_hidden (hun : (d.obj o).unlinked = true) : ¬Listable d o := fun hl => by
  rw [hl.linked] at hun
  exact Bool.noConfusion hun

theorem changeObjName_shifts (ht : Tied [] d) (h : Homed d) {newDir : Option ℕ}
    (hdir : ∀ dir, newDir.or (d.obj o).parent = some dir → Enters d dir o) (newName : Name) (force : Bool)
    (shadows : ℕ) : Shifts (changeObjNameMoves o newDir newName force shadows d) d
      (changeObjName g e o newDir newName force shadows d).1 :=
  changeObjNameWith_shifts (checkGc_stillGc false) ht h hdir newName force shadows

/-- An object is renamed into one of the directories of unlinked and of deleted objects. -/
theorem changeObjName_unlists (ht : Tied [] d) (h : Homed d) {dir : ℕ}
    (hdir : dir = objectIdUnlinked ∨ dir = objectIdDeleted) (ho : o ∉ initialDirs)
    (hleaf : (d.obj o).variantType = .directory → (d.obj o).children = []) (name : Name) :
    Shifts (changeObjNameMoves o (some dir) name false 0 d) d (changeObjName g e o (some dir) name false 0 d).1 := by
  have hmem : dir ∈ initialDirs := by
    rcases hdir with rfl | rfl <;> simp [initialDirs]
  refine changeObjName_shifts ht h (fun dir' hd => ?_) name false 0
  obtain rfl : dir = dir' := by simpa using hd
  exact Enters.of_unlisted (ht.takes_initial hmem ho hleaf) hdir

theorem genericObjDel_shifts (ht : Tied [] d) (h : Homed d) (ho : Removable [] d o) :
    Shifts (genericObjDelMoves g o d) d (genericObjDel g e o d) :=
  genericObjDelWith_shifts (checkGc_stillGc false) (checkGc_evolves false) ht h ho

theorem freeTop_shifts (ht : Tied [] d) (h : Homed d) (htype : (d.obj o).variantType = .file)
    (hin : (d.obj o).myInode = none) (hs : (d.obj o).softDel = false) :
    Shifts (genericObjDelMoves g o (freeTop o d)) d (genericObjDel g e o (freeTop o d)) := by
  have hsame := freeTop_sameTies o d
  have hev := hsame.evolves ht
  have hrem := hev.ties.file_removable ((hev.type o).trans htype) ((hev.inode o).trans hin)
    ((hev.soft o (by simp)).trans hs)
  exact (h.same hsame).trans (genericObjDel_shifts hev.ties (h.same hsame).homed hrem)

theorem setDeleted_shifts (h : Homed d) (o : ℕ) : Shifts [] d (setDeleted o d) := by
  have hmark := h.modObj (o := o) (f := fun ob => { ob with deleted := true }) rfl rfl rfl rfl
  exact hmark.stay (hmark.homed.books rfl rfl)

theorem emptyFile_shifts (ht : Tied [] d) (h : Homed d) (o : ℕ) : Shifts [] d (emptyFile g e o d) := by
  unfold emptyFile
  split_ifs
  · exact (resizeFile_calm o 0 d).shifts ht h
  · exact Shifts.refl h

theorem softDelFile_shifts (ht : Tied [] d) (h : Homed d) (hin : (d.obj o).myInode = none)
    (hun : (d.obj o).unlinked = true) (hd : (d.obj o).deleted = true) :
    Shifts (softDelFileMoves g o d) d (softDelFile g e o d) := by
  unfold softDelFileMoves softDelFile softDelFileWith
  split_ifs with hno hdata
  · exact Shifts.refl h
  · simp only [hd, not_or, ne_eq, not_not, Bool.not_eq_true] at hno
    exact freeTop_shifts ht h hno.2.1 hin hno.2.2
  · have hblocks := h.same (SameTies.setBlocks d ((d.obj o).file.softDel g (groupBase g) d.toBlockDev).1)
    have hout : ¬Listable { d with toBlockDev := ((d.obj o).file.softDel g (groupBase g) d.toBlockDev).1 } o :=
      unlinked_hidden hun
    exact hblocks.stay (hblocks.homed.modHidden hout rfl)

theorem unlinkFileIfNeeded_shifts (ht : Tied [] d) (h : Homed d) (htype : (d.obj o).variantType = .file)
    (hin : (d.obj o).myInode = none) (hs : (d.obj o).softDel = false) :
    Shifts (unlinkFileIfNeededMoves g e o d) d (unlinkFileIfNeeded g e o d).1 := by
  have hrem := ht.file_removable htype hin hs
  obtain ⟨hname, hun⟩ := changeObjName_unlinks (g := g) (e := e) ht (Or.inr rfl) hrem.notInitial
    hrem.leaf deletedName false 0
  have hmove := changeObjName_unlists (g := g) (e := e) ht h (Or.inr rfl) hrem.notInitial hrem.leaf deletedName
  unfold unlinkFileIfNeededMoves unlinkFileIfNeeded
  rw [hin]
  simp only [Option.isSome_none, Bool.false_eq_true, if_false]
  generalize (changeObjName g e o (some objectIdDeleted) deletedName false 0 d).1 = x at *
  obtain ⟨hset, hd⟩ := setDeleted_evolves (o := o) hname.ties ((hname.inode o).trans hin)
  have hmark := setDeleted_shifts hmove.homed o
  have hempty := emptyFile_evolving (g := g) (e := e) o _ hset.ties
  have hemptied := emptyFile_shifts (g := g) (e := e) hset.ties hmark.homed o
  exact ((hmove.stay hmark).stay hemptied).trans (softDelFile_shifts hempty.ties hemptied.homed
    ((hempty.inode o).trans ((hset.inode o).trans ((hname.inode o).trans hin)))
    (hempty.unlinked o (hset.unlinked o hun)) (hempty.deleted o hd))

theorem delFile_shifts (ht : Tied [] d) (h : Homed d) (htype : (d.obj o).variantType = .file)
    (hin : (d.obj o).myInode = none) (hs : (d.obj o).softDel = false) :
    Shifts (delFileMoves g e o d) d (delFile g e o d).1 := by
  have hempty := emptyFile_evolving (g := g) (e := e) o d ht
  have hemptied := emptyFile_shifts (g := g) (e := e) ht h o
  have htype' := (hempty.type o).trans htype
  have hin' := (hempty.inode o).trans hin
  have hs' := (hempty.soft o (by simp)).trans hs
  have hnil : ∀ {ms : List DirMove} {y : Dev}, Shifts ms (emptyFile g e o d) y → Shifts ms d y :=
    fun hy => hemptied.trans hy
  unfold delFileMoves delFile
  simp only
  generalize emptyFile g e o d = x at *
  by_cases hdata : 0 < (x.obj o).nDataChunks
  · rw [if_pos hdata, if_pos hdata]
    by_cases hun : (x.obj o).unlinked = true
    · simp only [hun, if_true, Bool.true_and]
      by_cases hd : (x.obj o).deleted = true
      · simp only [hd, Bool.not_true, Bool.false_eq_true, if_false]
        exact hemptied
      · simp only [hd, Bool.not_false, if_true]
        obtain ⟨hset, hd'⟩ := setDeleted_evolves (o := o) hempty.ties hin'
        have hmark := setDeleted_shifts hemptied.homed o
        exact hnil (hmark.trans (softDelFile_shifts hset.ties hmark.homed ((hset.inode o).trans hin')
          (hset.unlinked o hun) hd'))
    · simp only [hun, Bool.false_eq_true, if_false]
      have hgone := unlinkFileIfNeeded_gone (g := g) (e := e) hempty.ties htype' hin' hs'
      have hmoved := unlinkFileIfNeeded_shifts (g := g) (e := e) hempty.ties hemptied.homed htype' hin' hs'
      generalize unlinkFileIfNeeded g e o x = r at hgone hmoved ⊢
      split_ifs with hagain
      · simp only [Bool.and_eq_true, Bool.not_eq_true'] at hagain
        have hin'' := (hgone.evolves.inode o).trans hin'
        obtain ⟨hset, hd'⟩ := setDeleted_evolves (o := o) hgone.evolves.ties hin''
        have hmark := setDeleted_shifts hmoved.homed o
        exact hnil ((hmoved.stay hmark).trans (softDelFile_shifts hset.ties hmark.homed ((hset.inode o).trans hin'')
          (hset.unlinked o hagain.1.2) hd'))
      · exact hnil hmoved
  · rw [if_neg hdata, if_neg hdata]
    exact hnil (freeTop_shifts hempty.ties hemptied.homed htype' hin' hs')

theorem delDir_shifts (ht : Tied [] d) (h : Homed d) (ho : o ∉ initialDirs)
    (htype : (d.obj o).variantType = .directory) (hin : (d.obj o).myInode = none) (hs : (d.obj o).softDel = false) :
    Shifts (delDirMoves g o (cleanDir o d)) d (delDir g e o (cleanDir o d)).1 := by
  have hclean : SameTies d (cleanDir o d) := ⟨fun _ => rfl, rfl, rfl⟩
  have hev := hclean.evolves ht
  unfold delDirMoves delDir
  split_ifs with hempty
  · exact h.same hclean
  · have hleaf := isNonEmptyDir_false (d := cleanDir o d) (o := o) (by simpa using hempty) htype
    have hrem : Removable [] (cleanDir o d) o :=
      hev.ties.removable ho (by rw [show ((cleanDir o d).obj o).variantType = _ from htype]; simp) hin hs fun _ => hleaf
    exact (h.same hclean).trans (genericObjDel_shifts hev.ties (h.same hclean).homed hrem)

theorem delSymlink_shifts (ht : Tied [] d) (h : Homed d) (htype : (d.obj o).variantType = .symlink)
    (hs : (d.obj o).softDel = false) : Shifts (delSymlinkMoves g o d) d (delSymlink g e o d).1 := by
  have hname : SameTies d (d.modObj o fun ob => { ob with aliasName := none }) := SameTies.modObj rfl
  have hrem := (hname.evolves ht).ties.symlink_removable ((hname.get Obj.variantType o).trans htype)
    ((hname.get Obj.softDel o).trans hs)
  exact (h.same hname).trans (genericObjDel_shifts (hname.evolves ht).ties (h.same hname).homed hrem)

theorem unlinkRing_shifts (h : Homed d) (o : ℕ) : Shifts [] d (unlinkRing o d) := by
  have hobj := unlinkRing_obj o d
  have hids : (unlinkRing o d).ids = d.ids := by
    unfold unlinkRing
    cases (d.obj o).equivObj <;> rfl
  refine h.stay hids (fun q => by rw [hobj]) fun q hl => ⟨by rw [hobj], hids ▸ hl.mem, ?_, ?_⟩
  · rw [hobj]
    exact hl.linked
  · rw [hobj]
    exact hl.notSoft

theorem delLink_shifts (ht : Tied [] d) (h : Homed d) (htype : (d.obj o).variantType = .hardlink) :
    Shifts (delLinkMoves g o d) d (delLink g e o d).1 := by
  obtain ⟨hev, hring⟩ := unlinkRing_evolves ht o
  have hrem := hev.ties.link_removable ((hev.type o).trans htype) hring
  have hleft := unlinkRing_shifts h o
  exact hleft.trans (genericObjDel_shifts hev.ties hleft.homed hrem)

/-! ## Unlinking objects -/

theorem handOver_shifts {hl : ℕ} (ht : Tied [] d) (h : Homed d) (ho : Listable d o) (hinit : o ∉ initialDirs)
    (htype : (d.obj o).variantType ≠ .hardlink) (hl' : hl ∈ (d.obj o).hardLinks) :
    Shifts (handOverMoves g e o hl d) d (handOver g e o hl d).1 := by
  obtain ⟨-, hlt, -⟩ := ht.ring o ho.mem hl hl'
  have hne : o ≠ hl := fun heq => htype (heq ▸ hlt)
  obtain ⟨hunl, hring⟩ := unlinkRing_evolves ht hl
  have hlt' := (hunl.type hl).trans hlt
  have hrem := hunl.ties.link_removable hlt' hring
  obtain ⟨hadd, hplace⟩ := handOver_takes ht ho.mem hinit htype hl'
  have hev := hunl.trans hadd
  have hleft := unlinkRing_shifts h hl
  have hmoved := hleft.trans (addObjToDir_shifts (o := hl) hleft.homed
    (hunl.ties.initial objectIdUnlinked (by simp [initialDirs])).1 fun hd => absurd rfl hd.1)
  have hlist : Listable (addObjToDir objectIdUnlinked hl (unlinkRing hl d)) o :=
    hmoved.listable o ho (by simp [addObjToDirMoves, hne])
  have hname := changeObjName_shifts (g := g) (e := e) hev.ties hmoved.homed
    (fun dir hd => ⟨hplace dir hd, fun _ => hlist⟩) (getObjName d hl) false 0
  have hnamed := changeObjNameWith_evolves (g := g) (e := e) (checkGc_evolves (g := g) (e := e) false) hev.ties
    hplace (getObjName d hl) false 0
  unfold handOverMoves handOver
  simp only
  split_ifs
  · have hrem' := hrem.evolves (hadd.trans hnamed) fun ht => by
      rw [hlt'] at ht
      exact ObjType.noConfusion ht
    exact (hmoved.trans hname).trans (genericObjDel_shifts hnamed.ties hname.homed hrem')
  · rw [List.append_nil]
    exact hmoved.trans hname

theorem unlinkNamed_shifts (ht : Tied [] d) (h : Homed d) (ho : Listable d o) (hinit : o ∉ initialDirs) :
    Shifts (unlinkNamedMoves g e o (d.obj o).myInode.isNone d) d
      (unlinkNamed g e o (d.obj o).myInode.isNone d).1 := by
  have hs := ho.notSoft
  unfold unlinkNamedMoves unlinkNamed
  by_cases hlink : (d.obj o).variantType = .hardlink
  · rw [if_pos hlink, if_pos hlink]
    exact delLink_shifts ht h hlink
  · rw [if_neg hlink, if_neg hlink]
    cases hring : (d.obj o).hardLinks with
    | cons hl ls => exact handOver_shifts ht h ho hinit hlink (by simp [hring])
    | nil =>
      by_cases hin : (d.obj o).myInode = none
      · simp only [hin, Option.isNone_none, if_true]
        cases htype : (d.obj o).variantType with
        | file => exact delFile_shifts ht h htype hin hs
        | directory => exact delDir_shifts ht h hinit htype hin hs
        | symlink => exact delSymlink_shifts ht h htype hs
        | special => exact genericObjDel_shifts ht h (ht.removable hinit (by simp [htype]) hin hs fun hd => by simp [htype] at hd)
        | hardlink => exact absurd htype hlink
        | unknown => exact Shifts.refl h
        | other _ => exact Shifts.refl h
      · have hsome : (d.obj o).myInode.isNone = false := by
          rw [Option.isNone_eq_false_iff, Option.isSome_iff_ne_none]
          exact hin
        simp only [hsome, Bool.false_eq_true, if_false]
        split_ifs with hempty
        · exact Shifts.refl h
        · exact changeObjName_unlists ht h (Or.inl rfl) hinit (isNonEmptyDir_false (by simpa using hempty)) unlinkedName

theorem unlinkObj_shifts (ht : Tied [] d) (h : Homed d) (ho : Listable d o) :
    Shifts (unlinkObjMoves g e o d) d (unlinkObj g e o d).1 := by
  unfold unlinkObjMoves unlinkObj
  split_ifs with hallow
  · have hinitial : o ∉ initialDirs := fun hi => by
      rw [(ht.initial o hi).2.2.2] at hallow
      exact Bool.noConfusion hallow
    have hcalm := updateParent_calm (g := g) (e := e) (d.obj o).parent d
    have hev := hcalm.evolves ht
    have hshift := hcalm.shifts ht h
    have hnamed := unlinkNamed_shifts (g := g) (e := e) hev.ties hshift.homed (hshift.listable o ho (by simp)) hinitial
    rw [hev.inode o] at hnamed
    exact hshift.trans hnamed
  · exact Shifts.refl h

/-! ## What an operation takes out -/

theorem changeObjNameMoves_out {q : ℕ} {newDir : Option ℕ} {newName : Name} {force : Bool} {shadows : ℕ}
    (hq : DirMove.out q ∈ changeObjNameMoves o newDir newName force shadows d) : q = o := by
  unfold changeObjNameMoves addObjToDirMoves at hq
  split at hq
  · simp at hq
  · simp only at hq
    split_ifs at hq
    · simp at hq
    · simpa using hq

theorem genericObjDelMoves_out {q : ℕ} (hq : DirMove.out q ∈ genericObjDelMoves g o d) : q = o :=
  genericObjDelMoves_aside d _ hq

theorem softDelFileMoves_out {q : ℕ} (hq : DirMove.out q ∈ softDelFileMoves g o d) : q = o := by
  unfold softDelFileMoves at hq
  split_ifs at hq
  · simp at hq
  · exact genericObjDelMoves_out hq
  · simp at hq

theorem unlinkFileIfNeededMoves_out {q : ℕ} (hq : DirMove.out q ∈ unlinkFileIfNeededMoves g e o d) : q = o := by
  unfold unlinkFileIfNeededMoves at hq
  split_ifs at hq
  · exact changeObjNameMoves_out hq
  · rcases List.mem_append.mp hq with hq | hq
    · exact changeObjNameMoves_out hq
    · exact softDelFileMoves_out hq

theorem delFileMoves_out {q : ℕ} (hq : DirMove.out q ∈ delFileMoves g e o d) : q = o := by
  unfold delFileMoves at hq
  simp only at hq
  split_ifs at hq
  · exact softDelFileMoves_out (by simpa using hq)
  · simp at hq
  · rcases List.mem_append.mp hq with hq | hq
    · exact unlinkFileIfNeededMoves_out hq
    · exact softDelFileMoves_out hq
  · exact unlinkFileIfNeededMoves_out hq
  · exact genericObjDelMoves_out hq

theorem delDirMoves_out {q : ℕ} (hq : DirMove.out q ∈ delDirMoves g o d) : q = o := by
  unfold delDirMoves at hq
  split_ifs at hq
  · simp at hq
  · exact genericObjDelMoves_out hq

theorem handOverMoves_out {q hl : ℕ} (hq : DirMove.out q ∈ handOverMoves g e o hl d) : q = o ∨ q = hl := by
  unfold handOverMoves at hq
  simp only [addObjToDirMoves, List.mem_append, List.mem_cons, List.not_mem_nil] at hq
  rcases hq with ((hq | hq) | hq) | hq
  · exact Or.inr (DirMove.out.inj hq)
  · simp at hq
  · exact Or.inl (changeObjNameMoves_out hq)
  · split_ifs at hq
    · exact Or.inr (genericObjDelMoves_out hq)
    · simp at hq

/-- Unlinking takes out the object, or the object and its first hard link. -/
theorem unlinkNamedMoves_out {q : ℕ} {delNow : Bool} (hq : DirMove.out q ∈ unlinkNamedMoves g e o delNow d) :
    q = o ∨ (d.obj o).hardLinks.head? = some q := by
  unfold unlinkNamedMoves at hq
  by_cases hlink : (d.obj o).variantType = .hardlink
  · rw [if_pos hlink] at hq
    exact Or.inl (genericObjDelMoves_out hq)
  · rw [if_neg hlink] at hq
    cases hring : (d.obj o).hardLinks with
    | cons hl ls =>
      rw [hring] at hq
      exact (handOverMoves_out hq).imp id fun heq => by rw [heq, List.head?_cons]
    | nil =>
      rw [hring] at hq
      refine Or.inl ?_
      simp only at hq
      split_ifs at hq
      · split at hq
        · exact delFileMoves_out hq
        · exact delDirMoves_out hq
        · exact genericObjDelMoves_out hq
        · exact genericObjDelMoves_out hq
        · simp at hq
      · simp at hq
      · exact changeObjNameMoves_out hq

/-- A call that leaves objects where they are does not touch their rings. -/
theorem Calm.ring (hc : Calm g e d d') (ht : Tied [] d) (q : ℕ) : (d'.obj q).hardLinks = (d.obj q).hardLinks := by
  induction hc with
  | refl => rfl
  | same _ hs ih => exact (hs.get Obj.hardLinks q).trans ih
  | gc hc background ih => exact ((checkGc_drops background (hc.evolves ht).ties).ring q).trans ih

theorem unlinkObjMoves_out {q : ℕ} (ht : Tied [] d) (hq : DirMove.out q ∈ unlinkObjMoves g e o d) :
    q = o ∨ (d.obj o).hardLinks.head? = some q := by
  unfold unlinkObjMoves at hq
  split_ifs at hq
  · have := unlinkNamedMoves_out hq
    rwa [(updateParent_calm (d.obj o).parent d).ring ht] at this
  · simp at hq

/-! ## Renaming objects -/

theorem changeObjName_ring (ht : Tied [] d) {newDir : Option ℕ}
    (hdir : ∀ dir, newDir.or (d.obj o).parent = some dir → Takes d dir o) (newName : Name) (force : Bool)
    (shadows q : ℕ) :
    ((changeObjName g e o newDir newName force shadows d).1.obj q).hardLinks = (d.obj q).hardLinks := by
  unfold changeObjName
  rcases changeObjNameWith_placed (g := g) (e := e) (checkGc g e false) o newDir newName force shadows d with
    ⟨heq, -⟩ | ⟨dir, hnew, htype, heq⟩
  · rw [heq]
  · rw [heq]
    have hname : SameTies d (d.modObj o fun ob => { setObjName o newName ob with dirty := true }) :=
      SameTies.modObj (setObjName_ties o newName _)
    have htake := (hdir dir hnew).same hname
    have hev := hname.evolves ht
    have hold := hname.get Obj.hardLinks q
    generalize d.modObj o (fun ob => { setObjName o newName ob with dirty := true }) = y at *
    have hmove := addObjToDir_evolves (o := o) hev.ties htake.mem ((hev.type dir).trans htype)
      htake.linked htake.leaf
    have hcalm := updateOh_calm (g := g) (e := e) o (some newName) false (decide (dir = objectIdDeleted)) shadows
      (addObjToDir dir o y)
    exact ((hcalm.ring hmove.ties q).trans (congrArg Obj.hardLinks (addObjToDir_obj dir o y q) : _)).trans hold

theorem Enters.of_listable {dir : ℕ} (hdir : Listed dir) (hd : Listable d dir) (ho : Listable d o) : Enters d dir o where
  takes := ⟨hd.mem, hd.linked, fun h => absurd h (not_or.mpr hdir)⟩
  listable _ := ho

/-- An object is renamed into a listed directory. -/
theorem changeObjName_enters {dir : ℕ} (ht : Tied [] d) (h : Homed d) (henter : Enters d dir o) (newName : Name)
    (force : Bool) (shadows : ℕ) :
    Tied [] (changeObjName g e o (some dir) newName force shadows d).1 ∧
      Shifts (changeObjNameMoves o (some dir) newName force shadows d) d
        (changeObjName g e o (some dir) newName force shadows d).1 := by
  have hdir : ∀ dir', (some dir).or (d.obj o).parent = some dir' → Enters d dir' o := by
    intro dir' hd
    obtain rfl : dir = dir' := by simpa using hd
    exact henter
  exact ⟨(changeObjNameWith_evolves (checkGc_evolves false) ht (fun dir' hd => (hdir dir' hd).takes) newName force
    shadows).ties, changeObjName_shifts ht h hdir newName force shadows⟩

theorem changeObjName_listable {dir q : ℕ} (ht : Tied [] d) (h : Homed d) (hdir : Listed dir)
    (henter : Enters d dir o) (hq : Listable d q) (newName : Name) (force : Bool) (shadows : ℕ) :
    Listable (changeObjName g e o (some dir) newName force shadows d).1 q := by
  have hshift := (changeObjName_enters (g := g) (e := e) ht h henter newName force shadows).2
  by_cases hout : DirMove.out q ∈ changeObjNameMoves o (some dir) newName force shadows d
  · obtain rfl := changeObjNameMoves_out hout
    -- the object taken out comes in at the front of the directory
    have hmoves : changeObjNameMoves q (some dir) newName force shadows d = addObjToDirMoves dir q := by
      unfold changeObjNameMoves at hout ⊢
      simp only [Option.some_or] at hout ⊢
      split_ifs at hout ⊢
      · simp at hout
      · rfl
    have hch := hshift.children dir hdir
    rw [hmoves, changesAt_add, if_pos rfl] at hch
    exact hshift.homed.member dir hdir q (by rw [hch]; simp [changed, Change.list])
  · exact hshift.listable q hq hout

/-- An existing target that is neither the object nor linked to by it first is nuked. -/
theorem nukeTarget_shifts {newDir target : ℕ} (ht : Tied [] d) (h : Homed d) (hdir : Listed newDir)
    (hd : Listable d newDir) (htype : (d.obj newDir).variantType = .directory) (ho : Listable d o)
    (htarget : Listable d target) (hne : target ≠ o) (hnd : target ≠ newDir)
    (hring : (d.obj target).hardLinks.head? ≠ some o) (newName : Name) :
    Tied [] (nukeTarget g e o newDir newName target d) ∧
      Shifts (nukeTargetMoves g e o newDir newName target d) d (nukeTarget g e o newDir newName target d) ∧
      Enters (nukeTarget g e o newDir newName target d) newDir o := by
  have hgc : SameTies d (setGcDisable true d) := SameTies.mapBlocks d _
  have hev := hgc.evolves ht
  have hoff := h.same hgc
  have henter := Enters.of_listable hdir (hd.same hgc) (ho.same hgc)
  unfold nukeTarget nukeTargetMoves
  simp only
  have hring' : ((setGcDisable true d).obj target).hardLinks.head? ≠ some o := hring
  have htype' : ((setGcDisable true d).obj newDir).variantType = .directory := htype
  have hlist : ∀ q, Listable d q → Listable (setGcDisable true d) q := fun q hq => hq.same hgc
  generalize setGcDisable true d = x at *
  obtain ⟨hties, hname⟩ := changeObjName_enters (g := g) (e := e) hev.ties hoff.homed henter newName false target
  have hkept : ∀ q, Listable d q → Listable (changeObjName g e o (some newDir) newName false target x).1 q :=
    fun q hq => changeObjName_listable hev.ties hoff.homed hdir henter (hlist q hq) newName false target
  have hdirs : ∀ dir', (some newDir).or (x.obj o).parent = some dir' → Takes x dir' o := by
    intro dir' hd'
    obtain rfl : newDir = dir' := by simpa using hd'
    exact henter.takes
  have hrings := changeObjName_ring (g := g) (e := e) hev.ties hdirs newName false target target
  have htypes := (changeObjNameWith_evolves (g := g) (e := e) (checkGc_evolves (g := g) (e := e) false) hev.ties hdirs
    newName false target).type newDir
  rw [show (changeObjNameWith g e (checkGc g e false) o (some newDir) newName false target x).1 =
    (changeObjName g e o (some newDir) newName false target x).1 from rfl] at htypes
  generalize (changeObjName g e o (some newDir) newName false target x).1 = y at *
  have hshadow : SameTies y (y.modObj target fun ob => { ob with isShadowed := true }) := SameTies.modObj rfl
  have hev' := hshadow.evolves hties
  have hmarked := hname.homed.same hshadow
  have hheads : ((y.modObj target fun ob => { ob with isShadowed := true }).obj target).hardLinks.head? ≠ some o := by
    simpa [Dev.modObj, hrings] using hring'
  have hkept' : ∀ q, Listable d q → Listable (y.modObj target fun ob => { ob with isShadowed := true }) q :=
    fun q hq => (hkept q hq).same hshadow
  have hdirtype : ((y.modObj target fun ob => { ob with isShadowed := true }).obj newDir).variantType = .directory :=
    ((hshadow.get Obj.variantType newDir).trans htypes).trans htype'
  generalize y.modObj target (fun ob => { ob with isShadowed := true }) = z at *
  have hunlink := unlinkObj_shifts (g := g) (e := e) hev'.ties hmarked.homed (hkept' target htarget)
  obtain ⟨S, -, hunlinked⟩ := unlinkObj_evolves (g := g) (e := e) hev'.ties (hkept' target htarget).mem
    (hkept' target htarget).notSoft
  -- unlinking the target takes out neither the object nor the directory
  have hobj : Listable (unlinkObj g e target z).1 o := by
    refine hunlink.listable o (hkept' o ho) fun hout => ?_
    rcases unlinkObjMoves_out hev'.ties hout with heq | heq
    · exact hne heq.symm
    · exact hheads heq
  have hdirl : Listable (unlinkObj g e target z).1 newDir := by
    refine hunlink.listable newDir (hkept' newDir hd) fun hout => ?_
    rcases unlinkObjMoves_out hev'.ties hout with heq | heq
    · exact hnd heq.symm
    · have hl := hev'.ties.ring target (hkept' target htarget).mem newDir (List.mem_of_mem_head? heq)
      rw [hl.2.1] at hdirtype
      exact ObjType.noConfusion hdirtype
  have hon : SameTies (unlinkObj g e target z).1 (setGcDisable false (unlinkObj g e target z).1) :=
    SameTies.mapBlocks _ _
  exact ⟨(hon.evolves hunlinked.ties).ties, ((hoff.trans (hname.stay hmarked)).trans hunlink).same hon,
    Enters.of_listable hdir (hdirl.same hon) (hobj.same hon)⟩

theorem renameTo_shifts {newDir : ℕ} (ht : Tied [] d) (h : Homed d) (henter : Enters d newDir o) (oldDir : Option ℕ)
    (newName : Name) :
    Tied [] (renameTo g e o oldDir newDir newName d).1 ∧
      Shifts (changeObjNameMoves o (some newDir) newName true 0 d) d (renameTo g e o oldDir newDir newName d).1 := by
  obtain ⟨hties, hname⟩ := changeObjName_enters (g := g) (e := e) ht h henter newName true 0
  unfold renameTo
  simp only
  generalize (changeObjName g e o (some newDir) newName true 0 d).1 = x at *
  have hcalm := updateParent_calm (g := g) (e := e) oldDir x
  split_ifs
  · have hboth := hcalm.trans (updateParent_calm (some newDir) (updateParent g e oldDir x))
    exact ⟨(hboth.evolves hties).ties, hname.stay (hboth.shifts hties hname.homed)⟩
  · exact ⟨(hcalm.evolves hties).ties, hname.stay (hcalm.shifts hties hname.homed)⟩

/-- The rename would replace an object by the first of its own hard links. -/
def relinks (oldDir : ℕ) (oldName : Option Name) (newDir : ℕ) (newName : Name) (d : Dev) : Bool :=
  match renamed oldDir oldName d, findByName d newDir newName with
  | some o, some target => (d.obj target).hardLinks.head? = some o
  | _, _ => false

theorem mem_of_findByName {dir : ℕ} {name : Name} (h : findByName d dir name = some o) : o ∈ (d.obj dir).children :=
  List.mem_of_find?_eq_some h

/-- `yaffs_rename_obj` on the object it is to rename. -/
theorem renameObj_eq (oldDir : ℕ) (oldName : Option Name) (newDir : ℕ) (newName : Name) (d : Dev) :
    ∃ old : Option ℕ, renameObj g e oldDir oldName newDir newName d =
      if (d.obj oldDir).variantType ≠ .directory ∨ (d.obj newDir).variantType ≠ .directory then (d, false)
      else if maxNameLength < newName.length then (d, false)
      else
        match renamed oldDir oldName d with
        | none => (d, false)
        | some o =>
          if (d.obj o).renameAllowed then
            match findByName d newDir newName with
            | some target =>
              if isNonEmptyDir d target then (d, false)
              else if target = o then renameTo g e o old newDir newName d
              else renameTo g e o old newDir newName (nukeTarget g e o newDir newName target d)
            | none => renameTo g e o old newDir newName d
          else (d, false) := by
  cases oldName with
  | some name => exact ⟨some oldDir, rfl⟩
  | none => exact ⟨(d.obj oldDir).parent, rfl⟩

theorem renameObj_shifts {oldDir newDir : ℕ} {oldName : Option Name} {newName : Name} (ht : Tied [] d) (h : Homed d)
    (hold : Listed oldDir) (hold' : Listable d oldDir) (hnew : Listed newDir) (hnew' : Listable d newDir)
    (hring : relinks oldDir oldName newDir newName d = false) :
    Tied [] (renameObj g e oldDir oldName newDir newName d).1 ∧
      Shifts (renameObjMoves g e oldDir oldName newDir newName d) d
        (renameObj g e oldDir oldName newDir newName d).1 := by
  have hrefl : Tied [] d ∧ Shifts [] d d := ⟨ht, Shifts.refl h⟩
  have hobj : ∀ o, renamed oldDir oldName d = some o → Listable d o := by
    intro o ho
    cases oldName with
    | some name => exact h.member oldDir hold o (mem_of_findByName ho)
    | none => exact Option.some.inj ho ▸ hold'
  obtain ⟨old, heq⟩ := renameObj_eq (g := g) (e := e) oldDir oldName newDir newName d
  rw [heq]
  unfold renameObjMoves
  split_ifs with hdirs hlength
  · exact hrefl
  · exact hrefl
  · simp only [ne_eq, not_or, not_not] at hdirs
    cases ho : renamed oldDir oldName d with
    | none => exact hrefl
    | some o =>
      have henter := Enters.of_listable hnew hnew' (hobj o ho)
      simp only
      split_ifs
      · cases htarget : findByName d newDir newName with
        | none => exact renameTo_shifts ht h henter old newName
        | some target =>
          have hmem := mem_of_findByName htarget
          simp only
          split_ifs with hempty hsame
          · exact hrefl
          · exact renameTo_shifts ht h henter old newName
          · have hnd : target ≠ newDir := by
              rintro rfl
              exact hempty (by simpa [isNonEmptyDir, hdirs.2] using List.ne_nil_of_mem hmem)
            have hhead : (d.obj target).hardLinks.head? ≠ some o := by
              simpa [relinks, ho, htarget] using hring
            obtain ⟨hties, hnuke, henter'⟩ := nukeTarget_shifts (g := g) (e := e) ht h hnew hnew' hdirs.2 (hobj o ho)
              (h.member newDir hnew target hmem) hsame hnd hhead newName
            obtain ⟨hend, hmove⟩ := renameTo_shifts (g := g) (e := e) hties hnuke.homed henter' old newName
            exact ⟨hend, hnuke.trans hmove⟩
      · exact hrefl

/-! ## Creating objects -/

theorem delObj_shifts (ht : Tied [] d) (h : Homed d) (ho : o ∉ initialDirs) (hin : (d.obj o).myInode = none)
    (hs : (d.obj o).softDel = false) : Shifts (delObjMoves g e o d) d (delObj g e o d).1 := by
  unfold delObjMoves delObj
  cases htype : (d.obj o).variantType with
  | file => exact delFile_shifts ht h htype hin hs
  | directory => exact delDir_shifts ht h ho htype hin hs
  | symlink => exact delSymlink_shifts ht h htype hs
  | hardlink => exact delLink_shifts ht h htype
  | special => exact genericObjDel_shifts ht h (ht.removable ho (by simp [htype]) hin hs fun hd => by simp [htype] at hd)
  | unknown => exact Shifts.refl h
  | other _ => exact Shifts.refl h

/-- The moves of a new object : into the root, and on to lost+found. -/
theorem changesAt_new (p n : ℕ) : changesAt p (.into objectIdRoot n :: addObjToDirMoves objectIdLostNFound n) =
    if p = objectIdRoot then [.into n, .out n] else if p = objectIdLostNFound then [.out n, .into n] else [.out n] := by
  by_cases hr : p = objectIdRoot
  · subst hr
    rfl
  · by_cases hl : p = objectIdLostNFound
    · subst hl
      rfl
    · simp [changesAt, addObjToDirMoves, DirMove.at, Ne.symm hr, Ne.symm hl, hr, hl]

theorem newObj_shifts {type : ObjType} {n : ℕ} (ht : Tied [] d) (h : Homed d) (hn : (newObj g e type d).2 = some n)
    (hnew : NewObj type n d (newObj g e type d).1) :
    Shifts (.into objectIdRoot n :: addObjToDirMoves objectIdLostNFound n) d (newObj g e type d).1 := by
  have hids := newObj_hashed (g := g) (e := e) type hn
  have hother := fun q hq => newObj_others (g := g) (e := e) type (d := d) (q := q) hn hq
  have hself := hnew.ties
  have hfresh : ∀ p, Listed p → n ∉ (d.obj p).children := fun p hp hmem => hnew.new (h.member p hp n hmem).mem
  generalize (newObj g e type d).1 = x at *
  have hget : ∀ {α : Type} (k : Obj → α) (q : ℕ), q ≠ n → k (x.obj q).ties = k { (d.obj q).ties with
      children := if q = objectIdLostNFound then n :: (d.obj q).children else (d.obj q).children } :=
    fun k q hq => congrArg k (hother q hq)
  have hln : objectIdLostNFound ≠ n :=
    fun heq => hnew.new (heq ▸ (ht.initial objectIdLostNFound (by simp [initialDirs])).1)
  have hch : ∀ p, (x.obj p).children =
      if p = objectIdLostNFound then n :: (d.obj p).children else (d.obj p).children := by
    intro p
    by_cases hp : p = n
    · subst hp
      rw [if_neg (Ne.symm hln), h.gone p hnew.new]
      exact congrArg Obj.children hself
    · exact hget Obj.children p hp
  have hlist : ∀ q, Listable d q → Listable x q := by
    intro q hq
    have hqn : q ≠ n := fun heq => hnew.new (heq ▸ hq.mem)
    exact ⟨hids ▸ List.mem_cons_of_mem n hq.mem, (hget Obj.unlinked q hqn).trans hq.linked,
      (hget Obj.softDel q hqn).trans hq.notSoft⟩
  -- an entry is the new object in lost+found, or was there before
  have hmem : ∀ p, Listed p → ∀ q ∈ (x.obj p).children,
      p = objectIdLostNFound ∧ q = n ∨ q ≠ n ∧ q ∈ (d.obj p).children := by
    intro p hp q hq
    rw [hch] at hq
    by_cases hqn : q = n
    · subst hqn
      split_ifs at hq with hpl
      · exact Or.inl ⟨hpl, rfl⟩
      · exact absurd hq (hfresh p hp)
    · refine Or.inr ⟨hqn, ?_⟩
      split_ifs at hq
      · exact (List.mem_cons.mp hq).resolve_left hqn
      · exact hq
  refine ⟨⟨fun p hp => ?_, fun p hp q hq => ?_, fun p hp q hq => ?_, fun p hp => ?_⟩, fun q hq _ => hlist q hq,
    fun p hp => ?_, fun p hp => ?_⟩
  · rw [hch]
    split_ifs
    · exact List.nodup_cons.mpr ⟨hfresh p hp, h.nodup p hp⟩
    · exact h.nodup p hp
  · rcases hmem p hp q hq with ⟨rfl, rfl⟩ | ⟨hqn, hq⟩
    · exact congrArg Obj.parent hself
    · exact (hget Obj.parent q hqn).trans (h.parent p hp q hq)
  · rcases hmem p hp q hq with ⟨rfl, rfl⟩ | ⟨-, hq⟩
    · exact ⟨hids ▸ List.mem_cons_self, congrArg Obj.unlinked hself, congrArg Obj.softDel hself⟩
    · exact hlist q (h.member p hp q hq)
  · rw [hids, List.mem_cons, not_or] at hp
    have hpl : p ≠ objectIdLostNFound :=
      fun heq => hp.2 (heq ▸ (ht.initial objectIdLostNFound (by simp [initialDirs])).1)
    rw [hch, if_neg hpl]
    exact h.gone p hp.2
  · have hnot := hfresh p hp
    rw [changesAt_new]
    split_ifs
    · exact ⟨hnot, trivial⟩
    · exact ⟨fun hin => hnot (List.mem_of_mem_erase hin), trivial⟩
    · trivial
  · have hnot := List.erase_of_not_mem (hfresh p hp)
    rw [hch, changesAt_new]
    by_cases hr : p = objectIdRoot
    · rw [if_pos hr, if_neg (by rw [hr]; decide)]
      simp [changed, Change.list]
    · rw [if_neg hr]
      split_ifs
      · simp [changed, Change.list, hnot]
      · simp [changed, Change.list, hnot]

/-- A new object moves to its directory. -/
theorem setupObj_shifts {n parent equiv : ℕ} (h : Homed d) (hparent : parent ∈ d.ids) (hn : Listable d n)
    (type : ObjType) (name : Name) (aliasStr : Option Name) :
    Shifts (addObjToDirMoves parent n) d (setupObj n parent type name equiv aliasStr d) := by
  have hname : SameTies d (d.modObj n fun ob => { setObjName n name ob with dirty := true }) :=
    SameTies.modObj (setObjName_ties n name _)
  have hnamed := h.same hname
  have hmove := hnamed.trans (addObjToDir_shifts (o := n) hnamed.homed (hname.ids ▸ hparent) fun _ => hn.same hname)
  unfold setupObj
  simp only
  generalize addObjToDir parent n (d.modObj n fun ob => { setObjName n name ob with dirty := true }) = x at *
  cases type with
  | symlink => exact hmove.stay (hmove.homed.modObj rfl rfl rfl rfl)
  | hardlink =>
    have hlink := hmove.homed.modObj (o := n) (f := fun ob => { ob with equivObj := some equiv, equivId := equiv })
      rfl rfl rfl rfl
    exact hmove.stay (hlink.stay (hlink.homed.modObj rfl rfl rfl rfl))
  | _ => exact hmove

/-- The directory can take a new entry. -/
structure Receives (d : Dev) (parent : ℕ) : Prop where
  mem : parent ∈ d.ids
  type : (d.obj parent).variantType = .directory
  linked : (d.obj parent).unlinked = false
  listed : Listed parent

theorem createObj_shifts {type : ObjType} {parent equiv : ℕ} (ht : Tied [] d) (h : Homed d) (hp : Receives d parent)
    (hlink : type = .hardlink → equiv ∈ d.ids ∧ (d.obj equiv).variantType ≠ .directory) (name aliasStr : Name) :
    Tied [] (createObj g e type parent name equiv aliasStr d).1 ∧
      Shifts (createObjMoves g e type parent name equiv aliasStr d) d
        (createObj g e type parent name equiv aliasStr d).1 := by
  have hstr : SameTies d (if type = .symlink then cloneStr e aliasStr d else (d, some [])).1 := by
    split_ifs
    · exact ⟨fun _ => rfl, rfl, rfl⟩
    · exact SameTies.refl d
  unfold createObj createObjMoves
  simp only
  generalize (if type = .symlink then cloneStr e aliasStr d else (d, some [])) = s at *
  obtain ⟨y, str⟩ := s
  have hy := (hstr.evolves ht).ties
  have hstart := h.same hstr
  have hby := hstr.bystander
  split_ifs
  · exact ⟨ht, Shifts.refl h⟩
  · cases str with
    | none => exact ⟨hy, hstart⟩
    | some str =>
      simp only
      rcases newObj_new (g := g) (e := e) type hy with ⟨n, hsome, hnew⟩ | ⟨hnone, hsame⟩
      · have hids := newObj_hashed (g := g) (e := e) type hsome
        have hbystand := fun q hq => newObj_bystander (g := g) (e := e) type (d := y) (q := q) hsome hq
        have hmade := newObj_shifts hy hstart.homed hsome hnew
        have hmoves : newObjMoves g e type y = .into objectIdRoot n :: addObjToDirMoves objectIdLostNFound n := by
          unfold newObjMoves
          rw [hsome]
        rw [hmoves, hsome]
        simp only
        generalize (newObj g e type y).1 = z at *
        have hself : Listable z n :=
          ⟨hnew.mem, congrArg Obj.unlinked hnew.ties, congrArg Obj.softDel hnew.ties⟩
        have hset := setupObj_setUp hnew hids hbystand (hstr.ids ▸ hp.mem) ((hby parent).type.trans hp.type)
          ((hstr.get Obj.unlinked parent).trans hp.linked) (not_or.mpr hp.listed)
          (fun hl => ⟨hstr.ids ▸ (hlink hl).1, by rw [(hby equiv).type]; exact (hlink hl).2⟩) name (some str)
        have hsetup : Shifts (addObjToDirMoves parent n) z (setupObj n parent type name equiv (some str) z) :=
          setupObj_shifts hmade.homed (hnew.kept parent (hstr.ids ▸ hp.mem)) hself type name (some str)
        have hplaced := hmade.trans hsetup
        generalize setupObj n parent type name equiv (some str) z = w at *
        have hcalm := updateOh_calm (g := g) (e := e) n (some name) false false 0 w
        have hev := hcalm.evolves hset.ties
        have hhdr := hcalm.shifts hset.ties hplaced.homed
        have hall := (hstart.trans hplaced).stay hhdr
        unfold finishObj
        simp only
        cases (updateOh g e n (some name) false false 0 w).2 with
        | none =>
          have hinitial : n ∉ initialDirs := fun hi => hset.new (hy.initial n hi).1
          have hin := (hev.inode n).trans hset.plain.2.2.1
          have hsoft := (hev.soft n (by simp)).trans hset.plain.1
          exact ⟨(delObj_evolves hev.ties hinitial hin hsoft).ties,
            hall.trans (delObj_shifts hev.ties hall.homed hinitial hin hsoft)⟩
        | some c =>
          have hparent := updateParent_calm (g := g) (e := e) (some parent)
            (updateOh g e n (some name) false false 0 w).1
          rw [List.append_nil]
          exact ⟨(hparent.evolves hev.ties).ties, hall.stay (hparent.shifts hev.ties hall.homed)⟩
      · have hmoves : newObjMoves g e type y = [] := by
          unfold newObjMoves
          rw [hnone]
        rw [hmoves, hnone]
        exact ⟨(hsame.evolves hy).ties, hstart.same hsame⟩

theorem linkObj_shifts {parent target : ℕ} (ht : Tied [] d) (h : Homed d) (hp : Receives d parent)
    (hlink : ∀ q, getEquivalentObj d target = some q → q ∈ d.ids ∧ (d.obj q).variantType ≠ .directory) (name : Name) :
    Tied [] (linkObj g e parent name target d).1 ∧
      Shifts (linkObjMoves g e parent name target d) d (linkObj g e parent name target d).1 := by
  unfold linkObj linkObjMoves
  cases hq : getEquivalentObj d target with
  | none => exact ⟨ht, Shifts.refl h⟩
  | some q => exact createObj_shifts ht h hp (fun _ => hlink q hq) name []

/-! ## Calls -/

theorem delObjMoves_out {q : ℕ} (hq : DirMove.out q ∈ delObjMoves g e o d) : q = o := by
  unfold delObjMoves at hq
  split at hq
  · exact delFileMoves_out hq
  · exact delDirMoves_out hq
  · exact genericObjDelMoves_out hq
  · exact genericObjDelMoves_out hq
  · exact genericObjDelMoves_out hq
  · simp at hq

theorem releaseInode_shifts (ht : Tied [] d) (h : Homed d) (hs : (d.obj o).softDel = false) :
    Tied [] (releaseInode g e o d) ∧ Shifts (releaseInodeMoves g e o d) d (releaseInode g e o d) := by
  have hties : Tied [] (d.modObj o fun ob => { ob with myInode := none }) := ht.setInode (by simp)
  have hshift := h.modObj (o := o) (f := fun ob => { ob with myInode := none }) rfl rfl rfl rfl
  have hin : ((d.modObj o fun ob => { ob with myInode := none }).obj o).myInode = none := by simp [Dev.modObj]
  have hs' : ((d.modObj o fun ob => { ob with myInode := none }).obj o).softDel = false := by simpa [Dev.modObj] using hs
  unfold releaseInode releaseInodeMoves
  simp only
  generalize (d.modObj o fun ob => { ob with myInode := none }) = x at *
  split_ifs with hun
  · have hinitial : o ∉ initialDirs := fun hi => by
      rw [(hties.initial o hi).2.2.1] at hun
      exact Bool.noConfusion hun
    exact ⟨(delObj_evolves hties hinitial hin hs').ties, hshift.trans (delObj_shifts hties hshift.homed hinitial hin hs')⟩
  · exact ⟨hties, hshift⟩

theorem updateDirtyDirs_calm : Calming g e (updateDirtyDirs g e) := by
  have hloop : ∀ n, Calming g e (updateDirtyDirsLoop g e n) := by
    intro n
    induction n with
    | zero => exact Calm.refl
    | succ n ih =>
      intro d
      unfold updateDirtyDirsLoop
      split
      · exact Calm.refl d
      · next o rest _ =>
        have hrest : Calm g e d { d with dirtyDirs := rest } := (Calm.refl d).same ⟨fun _ => rfl, rfl, rfl⟩
        simp only
        split_ifs
        · exact (hrest.next (updateOh_calm o none false false 0)).next ih
        · exact hrest.next ih
  exact fun d => hloop _ d

theorem checkpointSave_sameTies (d : Dev) : SameTies d (checkpointSave g e d) := by
  unfold checkpointSave wrCheckptData
  simp only
  split_ifs <;> exact ⟨fun _ => rfl, rfl, rfl⟩

theorem namedDir_receives (ht : Tied [] d) (ho : namedDir d o = true) : Receives d o := by
  obtain ⟨hmem, htype, hun, hplain⟩ := namedDir_plain ht ho
  exact ⟨hmem, htype, hun, not_or.mp hplain⟩

theorem named_listable (ht : Tied [] d) (ho : named d o = true) : Listable d o := by
  simp only [named, Bool.and_eq_true, Bool.not_eq_true'] at ho
  obtain ⟨hmem, -, hs⟩ := reachable_spec ht ho.1
  exact ⟨hmem, ho.2, hs⟩

theorem namedDir_named (ho : namedDir d o = true) : named d o = true := by
  simp only [namedDir, Bool.and_eq_true] at ho
  exact ho.1.1.1

/-- Only files and directories are hooked to inodes. -/
def Op.hooks (d : Dev) : Op → Bool
  | .openInode _ o => (d.obj o).variantType = .file || (d.obj o).variantType = .directory
  | _ => true

/-- The call is a rename that replaces an object by the first of its own hard links. -/
def Op.relinks (d : Dev) : Op → Bool
  | .rename oldDir oldName newDir newName => Yaffs.relinks oldDir (some oldName) newDir newName d
  | _ => false

/-- A call makes its moves and no others. -/
theorem Op.exec_shifts (ht : Tied [] d) (h : Homed d) (op : Op) (hall : op.allowed g d = true)
    (hhook : op.hooks d = true) (hring : op.relinks d = false) :
    Tied [] (op.exec g e d) ∧ Shifts (op.moves g e d) d (op.exec g e d) := by
  have hcalm : ∀ {x : Dev}, Calm g e d x → Tied [] x ∧ Shifts [] d x :=
    fun hc => ⟨(hc.evolves ht).ties, hc.shifts ht h⟩
  cases op with
  | create type parent name aliasStr =>
    simp only [Op.allowed, Bool.and_eq_true] at hall
    exact createObj_shifts ht h (namedDir_receives ht hall.1.2) (fun hl => by simp [hl, ObjType.creatable] at hall)
      name aliasStr
  | link parent name target =>
    simp only [Op.allowed, Bool.and_eq_true] at hall
    refine linkObj_shifts ht h (namedDir_receives ht hall.1.1.1) (fun q hq => ?_) name
    have hany := hall.2
    rw [hq] at hany
    simp only [Option.any_some, Bool.and_eq_true, bne_iff_ne] at hany
    exact ⟨(named_listable ht hany.1).mem, hany.2⟩
  | rename oldDir oldName newDir newName =>
    simp only [Op.allowed, Bool.and_eq_true] at hall
    exact renameObj_shifts ht h (namedDir_receives ht hall.1).listed (named_listable ht (namedDir_named hall.1))
      (namedDir_receives ht hall.2).listed (named_listable ht (namedDir_named hall.2)) hring
  | unlink o =>
    have hl := named_listable ht hall
    obtain ⟨S, -, hev⟩ := unlinkObj_evolves (g := g) (e := e) ht hl.mem hl.notSoft
    exact ⟨hev.ties, unlinkObj_shifts ht h hl⟩
  | openInode i o =>
    simp only [Op.allowed, named, Bool.and_eq_true] at hall
    obtain ⟨hmem, hdel, -⟩ := reachable_spec ht hall.1.1
    simp only [Op.hooks, Bool.or_eq_true, decide_eq_true_eq] at hhook
    have hshift := h.modObj (o := o) (f := fun ob => { ob with myInode := some i }) rfl rfl rfl rfl
    exact ⟨hookInode_tied ht hmem hhook hdel i, hshift⟩
  | closeInode o =>
    simp only [Op.allowed, Bool.and_eq_true] at hall
    exact releaseInode_shifts ht h (reachable_spec ht hall.1).2.2
  | read o offset n => exact hcalm (fileRd_calm o offset n d)
  | write o offset data writeThrough => exact hcalm (wrFile_calm o data offset writeThrough d)
  | resize o size => exact hcalm (resizeFile_calm o size d)
  | setAttribs o =>
    have hdirty : Calm g e d (d.modObj o fun ob => { ob with dirty := true }) := (Calm.refl d).same (SameTies.modObj rfl)
    exact hcalm (hdirty.next (updateOh_calm o none true false 0))
  | flush o dataSync discardCache => exact hcalm (flushFile_calm o dataSync discardCache d)
  | flushAll discard => exact hcalm (flushWholeCacheLoop_calm discard g.nCaches d)
  | updateDirs => exact hcalm (updateDirtyDirs_calm d)
  | bgGc => exact hcalm ((Calm.refl d).gc true)
  | save => exact hcalm ((Calm.refl d).same (checkpointSave_sameTies d))

end Yaffs
