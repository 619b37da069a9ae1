import Yaffs.Caching
import Yaffs.LiveList

/-!
# Objects that move

How the core changes the lists of children : the calls of `yaffs_remove_obj_from_dir` an operation
makes, and the entries it makes at the front of a directory, in order. gc only takes objects out of the
directories of unlinked and of deleted objects, which no search lists, and is left out.
-/

namespace Yaffs

open LiveList

/-! ## Moves -/

/-- An object leaves its directory, or comes in at the front of one. -/
inductive DirMove
  | out (o : ℕ)
  | into (dir o : ℕ)

/-- What a move is to the list of the directory `p`. -/
def DirMove.at (p : ℕ) : DirMove → Option (Change ℕ)
  | .out o => some (.out o)
  | .into dir o => if dir = p then some (.into o) else none

/-- What moves are to the list of the directory `p`. -/
def changesAt (p : ℕ) (ms : List DirMove) : List (Change ℕ) :=
  ms.filterMap (DirMove.at p)

section

variable (g : Geometry) (e : Env)

/-- The moves of `yaffs_add_obj_to_dir`. -/
def addObjToDirMoves (dir o : ℕ) : List DirMove :=
  [.out o, .into dir o]

/-- The moves of `yaffs_change_obj_name`. -/
def changeObjNameMoves (o : ℕ) (newDir : Option ℕ) (newName : Name) (force : Bool) (shadows : ℕ) (d : Dev) :
    List DirMove :=
  match newDir.or (d.obj o).parent with
  | none => []
  | some dir =>
    let unlinkOp := decide (dir = objectIdUnlinked)
    let delOp := decide (dir = objectIdDeleted)
    if !(unlinkOp || delOp || force || decide (0 < shadows) || (findByName d dir newName).isNone) ||
        (d.obj dir).variantType != .directory then []
    else addObjToDirMoves dir o

/-- The moves of `yaffs_generic_obj_del`. -/
def genericObjDelMoves (o : ℕ) (d : Dev) : List DirMove :=
  (if g.isYaffs2 ∧ (d.obj o).parent ≠ some objectIdDeleted then
    changeObjNameMoves o (some objectIdDeleted) deletedName false 0 d else []) ++ [.out o]

/-- The moves of `yaffs_soft_del_file`. -/
def softDelFileMoves (o : ℕ) (d : Dev) : List DirMove :=
  if (d.obj o).deleted = false ∨ (d.obj o).variantType ≠ .file ∨ (d.obj o).softDel then []
  else if (d.obj o).nDataChunks ≤ 0 then genericObjDelMoves g o (freeTop o d)
  else []

/-- The moves of `yaffs_unlink_file_if_needed`. -/
def unlinkFileIfNeededMoves (o : ℕ) (d : Dev) : List DirMove :=
  if (d.obj o).myInode.isSome then changeObjNameMoves o (some objectIdUnlinked) unlinkedName false 0 d
  else
    changeObjNameMoves o (some objectIdDeleted) deletedName false 0 d ++
      softDelFileMoves g o (emptyFile g e o (setDeleted o
        (changeObjName g e o (some objectIdDeleted) deletedName false 0 d).1))

/-- The moves of `yaffs_del_file`. -/
def delFileMoves (o : ℕ) (d : Dev) : List DirMove :=
  let d := emptyFile g e o d
  if 0 < (d.obj o).nDataChunks then
    let ms := if (d.obj o).unlinked then [] else unlinkFileIfNeededMoves g e o d
    let r := if (d.obj o).unlinked then (d, true) else unlinkFileIfNeeded g e o d
    if r.2 && (r.1.obj o).unlinked && !(r.1.obj o).deleted then ms ++ softDelFileMoves g o (setDeleted o r.1)
    else ms
  else genericObjDelMoves g o (freeTop o d)

/-- The moves of `yaffs_del_dir`. -/
def delDirMoves (o : ℕ) (d : Dev) : List DirMove :=
  if isNonEmptyDir d o then [] else genericObjDelMoves g o d

/-- The moves of `yaffs_del_symlink`. -/
def delSymlinkMoves (o : ℕ) (d : Dev) : List DirMove :=
  genericObjDelMoves g o (d.modObj o fun ob => { ob with aliasName := none })

/-- The moves of `yaffs_del_link`. -/
def delLinkMoves (o : ℕ) (d : Dev) : List DirMove :=
  genericObjDelMoves g o (unlinkRing o d)

/-- The moves of `yaffs_del_obj`. -/
def delObjMoves (o : ℕ) (d : Dev) : List DirMove :=
  match (d.obj o).variantType with
  | .file => delFileMoves g e o d
  | .directory => delDirMoves g o (cleanDir o d)
  | .symlink => delSymlinkMoves g o d
  | .hardlink => delLinkMoves g o d
  | .special => genericObjDelMoves g o d
  | _ => []

/-- The moves by which an object takes the name of its first hard link `hl`. -/
def handOverMoves (o hl : ℕ) (d : Dev) : List DirMove :=
  let name := getObjName d hl
  let parent := (d.obj hl).parent
  let d := addObjToDir objectIdUnlinked hl (unlinkRing hl d)
  let r := changeObjName g e o parent name false 0 d
  addObjToDirMoves objectIdUnlinked hl ++ changeObjNameMoves o parent name false 0 d ++
    if r.2 then genericObjDelMoves g hl r.1 else []

/-- The moves of `yaffs_unlink_worker`, behind the update of the parent. -/
def unlinkNamedMoves (o : ℕ) (delNow : Bool) (d : Dev) : List DirMove :=
  if (d.obj o).variantType = .hardlink then delLinkMoves g o d
  else
    match (d.obj o).hardLinks with
    | hl :: _ => handOverMoves g e o hl d
    | [] =>
      if delNow then
        match (d.obj o).variantType with
        | .file => delFileMoves g e o d
        | .directory => delDirMoves g o (cleanDir o d)
        | .symlink => delSymlinkMoves g o d
        | .special => genericObjDelMoves g o d
        | _ => []
      else if isNonEmptyDir d o then []
      else changeObjNameMoves o (some objectIdUnlinked) unlinkedName false 0 d

/-- The moves of `yaffs_unlink_obj`. -/
def unlinkObjMoves (o : ℕ) (d : Dev) : List DirMove :=
  if (d.obj o).unlinkAllowed then
    unlinkNamedMoves g e o (d.obj o).myInode.isNone (updateParent g e (d.obj o).parent d)
  else []

/-- The moves by which `yaffs_rename_obj` nukes an existing target. -/
def nukeTargetMoves (o newDir : ℕ) (newName : Name) (target : ℕ) (d : Dev) : List DirMove :=
  let d := setGcDisable true d
  changeObjNameMoves o (some newDir) newName false target d ++
    unlinkObjMoves g e target (((changeObjName g e o (some newDir) newName false target d).1).modObj target
      fun ob => { ob with isShadowed := true })

/-- The object `yaffs_rename_obj` is to rename. -/
def renamed (oldDir : ℕ) (oldName : Option Name) (d : Dev) : Option ℕ :=
  match oldName with
  | some name => findByName d oldDir name
  | none => some oldDir

/-- The moves of `yaffs_rename_obj`. -/
def renameObjMoves (oldDir : ℕ) (oldName : Option Name) (newDir : ℕ) (newName : Name) (d : Dev) :
    List DirMove :=
  if (d.obj oldDir).variantType ≠ .directory ∨ (d.obj newDir).variantType ≠ .directory then []
  else if maxNameLength < newName.length then []
  else
    match renamed oldDir oldName d with
    | none => []
    | some o =>
      if (d.obj o).renameAllowed then
        match findByName d newDir newName with
        | some target =>
          if isNonEmptyDir d target then []
          else if target = o then changeObjNameMoves o (some newDir) newName true 0 d
          else nukeTargetMoves g e o newDir newName target d ++
            changeObjNameMoves o (some newDir) newName true 0 (nukeTarget g e o newDir newName target d)
        | none => changeObjNameMoves o (some newDir) newName true 0 d
      else []

/-- The moves of `yaffs_new_obj` : `yaffs_alloc_empty_obj` puts the object first into the root. -/
def newObjMoves (type : ObjType) (d : Dev) : List DirMove :=
  match (newObj g e type d).2 with
  | some o => .into objectIdRoot o :: addObjToDirMoves objectIdLostNFound o
  | none => []

/-- The moves of `yaffs_create_obj`. -/
def createObjMoves (type : ObjType) (parent : ℕ) (name : Name) (equiv : ℕ) (aliasStr : Name) (d : Dev) :
    List DirMove :=
  if (findByName d parent name).isSome then []
  else
    let s := if type = .symlink then cloneStr e aliasStr d else (d, some [])
    match s.2 with
    | none => []
    | some str =>
      let r := newObj g e type s.1
      match r.2 with
      | none => newObjMoves g e type s.1
      | some o =>
        let u := updateOh g e o (some name) false false 0 (setupObj o parent type name equiv (some str) r.1)
        newObjMoves g e type s.1 ++ addObjToDirMoves parent o ++
          match u.2 with
          | none => delObjMoves g e o u.1
          | some _ => []

/-- The moves of `yaffs_link_obj`. -/
def linkObjMoves (parent : ℕ) (name : Name) (target : ℕ) (d : Dev) : List DirMove :=
  match getEquivalentObj d target with
  | some q => createObjMoves g e .hardlink parent name q [] d
  | none => []

/-- The moves of `yaffsfs_ReleaseInode`. -/
def releaseInodeMoves (o : ℕ) (d : Dev) : List DirMove :=
  let d := d.modObj o fun ob => { ob with myInode := none }
  if (d.obj o).unlinked then delObjMoves g e o d else []

/-- The moves of the core's part of a call. -/
def Op.moves (d : Dev) : Op → List DirMove
  | .create type parent name aliasStr => createObjMoves g e type parent name 0 aliasStr d
  | .link parent name target => linkObjMoves g e parent name target d
  | .rename oldDir oldName newDir newName => renameObjMoves g e oldDir (some oldName) newDir newName d
  | .unlink o => unlinkObjMoves g e o d
  | .closeInode o => releaseInodeMoves g e o d
  | _ => []

end

variable {g : Geometry} {e : Env} {gc : Dev → Dev} {E : List ℕ} {d d' d'' : Dev} {o p : ℕ} {ms ms' : List DirMove}

/-! ## Homes -/

/-- A directory a search can list. -/
def Listed (dir : ℕ) : Prop :=
  dir ≠ objectIdUnlinked ∧ dir ≠ objectIdDeleted

/-- The object can be an entry of a listed directory. -/
structure Listable (d : Dev) (o : ℕ) : Prop where
  mem : o ∈ d.ids
  linked : (d.obj o).unlinked = false
  notSoft : (d.obj o).softDel = false

/-- The children of a listed directory are there once, and it is their parent. What is not in the hash
table has none. -/
structure Homed (d : Dev) : Prop where
  nodup : ∀ p, Listed p → (d.obj p).children.Nodup
  parent : ∀ p, Listed p → ∀ o ∈ (d.obj p).children, (d.obj o).parent = some p
  member : ∀ p, Listed p → ∀ o ∈ (d.obj p).children, Listable d o
  gone : ∀ p, p ∉ d.ids → (d.obj p).children = []

/-- The object is in no listed directory. -/
def Unlisted (d : Dev) (o : ℕ) : Prop :=
  ∀ p, Listed p → o ∉ (d.obj p).children

/-- The moves `ms` lead from `d` to `d'`. An object that can be listed stays so unless it is moved. -/
structure Shifts (ms : List DirMove) (d d' : Dev) : Prop where
  homed : Homed d'
  listable : ∀ q, Listable d q → DirMove.out q ∉ ms → Listable d' q
  fits : ∀ p, Listed p → Fits (changesAt p ms) (d.obj p).children
  children : ∀ p, Listed p → (d'.obj p).children = changed (changesAt p ms) (d.obj p).children

theorem changesAt_append (p : ℕ) (ms ms' : List DirMove) :
    changesAt p (ms ++ ms') = changesAt p ms ++ changesAt p ms' :=
  List.filterMap_append

namespace Shifts

theorem refl (h : Homed d) : Shifts [] d d :=
  ⟨h, fun _ hq _ => hq, fun _ _ => trivial, fun _ _ => rfl⟩

theorem trans (h : Shifts ms d d') (h' : Shifts ms' d' d'') : Shifts (ms ++ ms') d d'' where
  homed := h'.homed
  listable q hq hout := by
    rw [List.mem_append, not_or] at hout
    exact h'.listable q (h.listable q hq hout.1) hout.2
  fits p hp := by
    rw [changesAt_append]
    exact (h.fits p hp).append (h.children p hp ▸ h'.fits p hp)
  children p hp := by
    rw [changesAt_append, changed_append, ← h.children p hp]
    exact h'.children p hp

/-- Nothing moves behind. -/
theorem stay (h : Shifts ms d d') (h' : Shifts [] d' d'') : Shifts ms d d'' := by
  have := h.trans h'
  rwa [List.append_nil] at this

end Shifts

namespace Homed

/-- Nothing changes for the entries of listed directories. -/
theorem stay (h : Homed d) (hids : d'.ids = d.ids) (hch : ∀ q, (d'.obj q).children = (d.obj q).children)
    (hobj : ∀ q, Listable d q → (d'.obj q).parent = (d.obj q).parent ∧ Listable d' q) : Shifts [] d d' := by
  have hlisted : ∀ p, Listed p → ∀ q ∈ (d'.obj p).children, q ∈ (d.obj p).children ∧
      (d'.obj q).parent = (d.obj q).parent ∧ Listable d' q := by
    intro p hp q hq
    rw [hch] at hq
    exact ⟨hq, hobj q (h.member p hp q hq)⟩
  refine ⟨⟨fun p hp => ?_, fun p hp q hq => ?_, fun p hp q hq => ?_, fun p hp => ?_⟩, fun q hq _ => (hobj q hq).2,
    fun _ _ => trivial, fun p _ => hch p⟩
  · rw [hch]
    exact h.nodup p hp
  · obtain ⟨hmem, hparent, -⟩ := hlisted p hp q hq
    exact hparent.trans (h.parent p hp q hmem)
  · exact (hlisted p hp q hq).2.2
  · rw [hch]
    exact h.gone p (hids ▸ hp)

theorem same (h : Homed d) (hs : SameTies d d') : Shifts [] d d' := by
  refine h.stay hs.ids (hs.get Obj.children) fun q hq => ⟨hs.get Obj.parent q, hs.ids ▸ hq.mem, ?_, ?_⟩
  · exact (hs.get Obj.unlinked q).trans hq.linked
  · exact (hs.get Obj.softDel q).trans hq.notSoft

/-- An object that cannot be listed changes. -/
theorem modHidden (h : Homed d) (ho : ¬Listable d o) {f : Obj → Obj}
    (hch : (f (d.obj o)).children = (d.obj o).children) : Shifts [] d (d.modObj o f) := by
  have hobj : ∀ q, q ≠ o → (d.modObj o f).obj q = d.obj q := fun q hq => by simp [Dev.modObj, hq]
  refine h.stay rfl (fun q => ?_) fun q hl => ?_
  · by_cases hq : q = o
    · subst hq
      simpa [Dev.modObj] using hch
    · rw [hobj q hq]
  · have hq : q ≠ o := fun heq => ho (heq ▸ hl)
    refine ⟨by rw [hobj q hq], hl.mem, ?_, ?_⟩
    · rw [hobj q hq]
      exact hl.linked
    · rw [hobj q hq]
      exact hl.notSoft

/-- An object changes, but for its place and its marks. -/
theorem modObj (h : Homed d) {f : Obj → Obj} (hch : (f (d.obj o)).children = (d.obj o).children)
    (hparent : (f (d.obj o)).parent = (d.obj o).parent) (hun : (f (d.obj o)).unlinked = (d.obj o).unlinked)
    (hsoft : (f (d.obj o)).softDel = (d.obj o).softDel) : Shifts [] d (d.modObj o f) := by
  have hget : ∀ {α : Type} (k : Obj → α), k (f (d.obj o)) = k (d.obj o) → ∀ q, k ((d.modObj o f).obj q) = k (d.obj q) := by
    intro α k hk q
    by_cases hq : q = o
    · subst hq
      simpa [Dev.modObj] using hk
    · simp [Dev.modObj, hq]
  exact h.stay rfl (hget Obj.children hch) fun q hl => ⟨hget Obj.parent hparent q, hl.mem,
    (hget Obj.unlinked hun q).trans hl.linked, (hget Obj.softDel hsoft q).trans hl.notSoft⟩

end Homed

theorem Shifts.same (h : Shifts ms d d') (hs : SameTies d' d'') : Shifts ms d d'' :=
  h.stay (h.homed.same hs)

/-! ## Leaving and entering directories -/

theorem Homed.left (h : Homed d) (hp : Listed p) (o : ℕ) : leftChildren d o p = (d.obj p).children.erase o := by
  unfold leftChildren
  split_ifs with hparent
  · rfl
  · exact (List.erase_of_not_mem fun ho => hparent (h.parent p hp o ho)).symm

theorem removeObjFromDir_shifts (h : Homed d) (o : ℕ) :
    Shifts [.out o] d (removeObjFromDir o d) ∧ Unlisted (removeObjFromDir o d) o := by
  have hobj := removeObjFromDir_obj o d
  have hids : (removeObjFromDir o d).ids = d.ids := by
    unfold removeObjFromDir
    cases (d.obj o).parent <;> rfl
  have hch : ∀ p, Listed p → ((removeObjFromDir o d).obj p).children = (d.obj p).children.erase o := by
    intro p hp
    rw [hobj, h.left hp]
  have hmem : ∀ p, Listed p → ∀ q ∈ ((removeObjFromDir o d).obj p).children, q ≠ o ∧ q ∈ (d.obj p).children := by
    intro p hp q hq
    rw [hch p hp] at hq
    exact (h.nodup p hp).mem_erase_iff.mp hq
  have hlist : ∀ q, Listable d q → Listable (removeObjFromDir o d) q := fun q hl =>
    ⟨hids ▸ hl.mem, by rw [hobj]; exact hl.linked, by rw [hobj]; exact hl.notSoft⟩
  refine ⟨⟨⟨fun p hp => ?_, fun p hp q hq => ?_, fun p hp q hq => ?_, fun p hp => ?_⟩, fun q hl _ => hlist q hl,
    fun _ _ => trivial, hch⟩, fun p hp hq => (hmem p hp o hq).1 rfl⟩
  · rw [hch p hp]
    exact (h.nodup p hp).erase o
  · obtain ⟨hqo, hq⟩ := hmem p hp q hq
    rw [hobj, if_neg hqo]
    exact h.parent p hp q hq
  · exact hlist q (h.member p hp q (hmem p hp q hq).2)
  · rw [hobj]
    exact leftChildren_nil (h.gone p (hids ▸ hp))

theorem changesAt_add (p dir o : ℕ) :
    changesAt p (addObjToDirMoves dir o) = if dir = p then [.out o, .into o] else [.out o] := by
  by_cases h : dir = p <;> simp [changesAt, addObjToDirMoves, DirMove.at, h]

theorem addObjToDir_shifts (h : Homed d) {dir : ℕ} (hdir : dir ∈ d.ids) (ho : Listed dir → Listable d o) :
    Shifts (addObjToDirMoves dir o) d (addObjToDir dir o d) := by
  have hget : ∀ {α : Type} (f : Obj → α) (q : ℕ), f ((addObjToDir dir o d).obj q).ties = f
    { (d.obj q).ties with
      parent := if q = o then some dir else (d.obj q).parent
      children := if q = dir then o :: leftChildren d o q else leftChildren d o q
      unlinked := (d.obj q).unlinked ||
        decide (q = o ∧ (dir = objectIdUnlinked ∨ dir = objectIdDeleted)) } :=
    fun f q => congrArg f (addObjToDir_obj dir o d q)
  have hparent : ∀ q, ((addObjToDir dir o d).obj q).parent = if q = o then some dir else (d.obj q).parent :=
    hget Obj.parent
  have hun : ∀ q, ((addObjToDir dir o d).obj q).unlinked = ((d.obj q).unlinked ||
      decide (q = o ∧ (dir = objectIdUnlinked ∨ dir = objectIdDeleted))) := hget Obj.unlinked
  have hsoft : ∀ q, ((addObjToDir dir o d).obj q).softDel = (d.obj q).softDel := hget Obj.softDel
  have hids : (addObjToDir dir o d).ids = d.ids := by
    unfold addObjToDir removeObjFromDir
    cases (d.obj o).parent <;> dsimp only <;> split_ifs <;> rfl
  have hch : ∀ p, Listed p → ((addObjToDir dir o d).obj p).children =
      if p = dir then o :: (d.obj p).children.erase o else (d.obj p).children.erase o := by
    intro p hp
    rw [← h.left hp]
    exact hget Obj.children p
  have hnot : ∀ p, Listed p → o ∉ (d.obj p).children.erase o := fun p hp hmem =>
    ((h.nodup p hp).mem_erase_iff.mp hmem).1 rfl
  -- an entry is the object in its new directory, or another that has stayed
  have hmem : ∀ p, Listed p → ∀ q ∈ ((addObjToDir dir o d).obj p).children,
      p = dir ∧ q = o ∨ q ≠ o ∧ q ∈ (d.obj p).children := by
    intro p hp q hq
    rw [hch p hp] at hq
    by_cases hqo : q = o
    · subst hqo
      split_ifs at hq with hpd
      · exact Or.inl ⟨hpd, rfl⟩
      · exact absurd hq (hnot p hp)
    · refine Or.inr ⟨hqo, ?_⟩
      split_ifs at hq with hpd
      · exact List.mem_of_mem_erase ((List.mem_cons.mp hq).resolve_left hqo)
      · exact List.mem_of_mem_erase hq
  refine ⟨⟨fun p hp => ?_, fun p hp q hq => ?_, fun p hp q hq => ?_, fun p hp => ?_⟩, fun q hl hout => ?_,
    fun p hp => ?_, fun p hp => ?_⟩
  · rw [hch p hp]
    have hnd := (h.nodup p hp).erase o
    split_ifs
    · exact List.nodup_cons.mpr ⟨hnot p hp, hnd⟩
    · exact hnd
  · rw [hparent]
    rcases hmem p hp q hq with ⟨rfl, rfl⟩ | ⟨hqo, hq⟩
    · simp
    · rw [if_neg hqo]
      exact h.parent p hp q hq
  · have hl : Listable d q := by
      rcases hmem p hp q hq with ⟨rfl, rfl⟩ | ⟨-, hq⟩
      · exact ho hp
      · exact h.member p hp q hq
    refine ⟨hids ▸ hl.mem, ?_, (hsoft q).trans hl.notSoft⟩
    rw [hun, hl.linked, Bool.false_or, decide_eq_false_iff_not]
    rintro ⟨hqo, hdir⟩
    rcases hmem p hp q hq with ⟨rfl, -⟩ | ⟨hne, -⟩
    · exact hdir.elim hp.1 hp.2
    · exact hne hqo
  · rw [hids] at hp
    have hpd : p ≠ dir := fun heq => hp (heq ▸ hdir)
    have hchp : ((addObjToDir dir o d).obj p).children = _ := hget Obj.children p
    rw [hchp, if_neg hpd]
    exact leftChildren_nil (h.gone p hp)
  · have hqo : q ≠ o := fun heq => hout (by simp [addObjToDirMoves, heq])
    refine ⟨hids ▸ hl.mem, ?_, (hsoft q).trans hl.notSoft⟩
    rw [hun, hl.linked]
    simp [hqo]
  · rw [changesAt_add]
    split_ifs
    · exact ⟨hnot p hp, trivial⟩
    · trivial
  · rw [hch p hp, changesAt_add]
    by_cases hpd : p = dir
    · simp [hpd, changed, Change.list]
    · simp [hpd, Ne.symm hpd, changed, Change.list]

/-- An object put among the unlinked or the deleted ones is in no listed directory. -/
theorem addObjToDir_unlisted (h : Homed d) {dir : ℕ} (hmem : dir ∈ d.ids) (hdir : ¬Listed dir) (o : ℕ) :
    Unlisted (addObjToDir dir o d) o := by
  intro p hp ho
  have hne : dir ≠ p := fun heq => hdir (heq ▸ hp)
  rw [(addObjToDir_shifts h hmem fun hd => absurd hd hdir).children p hp, changesAt_add, if_neg hne] at ho
  exact ((h.nodup p hp).mem_erase_iff.mp ho).1 rfl

theorem Unlisted.shifts (ho : Unlisted d o) (h : Shifts [] d d') : Unlisted d' o := by
  intro p hp
  rw [h.children p hp]
  exact ho p hp

/-- The object an operation deletes or unlinks goes where no search lists it. -/
def AsideMove (o : ℕ) : DirMove → Prop
  | .out q => q = o
  | .into dir _ => ¬Listed dir

theorem Homed.unlisted (h : Homed d) (ho : ¬Listable d o) : Unlisted d o :=
  fun p hp hmem => ho (h.member p hp o hmem)

/-- Moves of an object that cannot be listed do not show. -/
theorem Shifts.aside (h : Shifts ms d d') (hd : Homed d) (ho : ¬Listable d o) (hms : ∀ m ∈ ms, AsideMove o m) :
    Shifts [] d d' := by
  have hchanged : ∀ p, Listed p → ∀ l : List ℕ, o ∉ l → changed (changesAt p ms) l = l := by
    intro p hp
    clear h
    induction ms with
    | nil => exact fun _ _ => rfl
    | cons m ms ih =>
      intro l hl
      have hrest := ih (fun m hm => hms m (List.mem_cons_of_mem _ hm)) l hl
      have hm := hms m List.mem_cons_self
      cases m with
      | out q =>
        obtain rfl : q = o := hm
        have hstep : changed (changesAt p (.out q :: ms)) l = changed (changesAt p ms) (l.erase q) := rfl
        rw [hstep, List.erase_of_not_mem hl, hrest]
      | into dir q =>
        have hne : dir ≠ p := fun heq => hm (heq ▸ hp)
        have hstep : changesAt p (.into dir q :: ms) = changesAt p ms := by
          simp [changesAt, DirMove.at, hne]
        rw [hstep, hrest]
  refine ⟨h.homed, fun q hl _ => h.listable q hl fun hout => ?_, fun _ _ => trivial, fun p hp =>
    (h.children p hp).trans (hchanged p hp _ (hd.unlisted ho p hp))⟩
  have hq : q = o := hms _ hout
  exact ho (hq ▸ hl)

/-! ## Names -/

/-- A gc that moves nothing. -/
def StillGc (E : List ℕ) (gc : Dev → Dev) : Prop :=
  ∀ x, Tied E x → Homed x → Shifts [] x (gc x)

theorem updateOhWith_shifts (hgc : StillGc E gc) (ht : Tied E d) (h : Homed d) (o : ℕ) (name : Option Name)
    (force isShrink : Bool) (shadows : ℕ) :
    Shifts [] d (updateOhWith g e gc o name force isShrink shadows d).1 := by
  rcases updateOhWith_step (g := g) (e := e) gc o name force isShrink shadows d with heq | hstep
  · rw [heq]
    exact Shifts.refl h
  · exact (hgc d ht h).same hstep.sameTies

/-- The object may be renamed into the directory. -/
structure Enters (d : Dev) (dir o : ℕ) : Prop where
  takes : Takes d dir o
  listable : Listed dir → Listable d o

theorem Enters.of_unlisted {dir : ℕ} (h : Takes d dir o) (hdir : dir = objectIdUnlinked ∨ dir = objectIdDeleted) :
    Enters d dir o :=
  ⟨h, fun hl => absurd hdir (not_or.mpr hl)⟩

theorem Listable.same (h : Listable d o) (hs : SameTies d d') : Listable d' o where
  mem := hs.ids ▸ h.mem
  linked := (hs.get Obj.unlinked o).trans h.linked
  notSoft := (hs.get Obj.softDel o).trans h.notSoft

theorem changeObjNameWith_shifts (hgc : StillGc E gc) (ht : Tied E d) (h : Homed d) {newDir : Option ℕ}
    (hdir : ∀ dir, newDir.or (d.obj o).parent = some dir → Enters d dir o) (newName : Name) (force : Bool)
    (shadows : ℕ) : Shifts (changeObjNameMoves o newDir newName force shadows d) d
      (changeObjNameWith g e gc o newDir newName force shadows d).1 := by
  have hname : SameTies d (d.modObj o fun ob => { setObjName o newName ob with dirty := true }) :=
    SameTies.modObj (setObjName_ties o newName _)
  unfold changeObjNameMoves changeObjNameWith
  cases hnew : newDir.or (d.obj o).parent with
  | none => exact Shifts.refl h
  | some dir =>
    have henter := hdir dir hnew
    have hev := hname.evolves ht
    have hnamed := h.same hname
    have hadd := addObjToDir_shifts (o := o) hnamed.homed (henter.takes.same hname).mem
      fun hl => (henter.listable hl).same hname
    have htake := henter.takes.same hname
    simp only
    generalize d.modObj o (fun ob => { setObjName o newName ob with dirty := true }) = x at *
    split_ifs with hno hunl
    · exact Shifts.refl h
    · rw [Bool.or_eq_true, not_or, bne_iff_ne, not_not] at hno
      have hmove := addObjToDir_evolves hev.ties htake.mem ((hev.type dir).trans hno.2) htake.linked htake.leaf
      have hself : (addObjToDir dir o x).modObj o (fun ob => { ob with unlinked := true }) = addObjToDir dir o x := by
        have hset := addObjToDir_unlinked (Or.inl (of_decide_eq_true hunl)) o x
        refine Dev.modObj_self ?_
        generalize (addObjToDir dir o x).obj o = ob at hset ⊢
        cases ob
        simp_all
      rw [hself]
      exact (hnamed.trans hadd).stay (updateOhWith_shifts hgc hmove.ties hadd.homed _ _ _ _ _)
    · rw [Bool.or_eq_true, not_or, bne_iff_ne, not_not] at hno
      have hmove := addObjToDir_evolves hev.ties htake.mem ((hev.type dir).trans hno.2) htake.linked htake.leaf
      exact (hnamed.trans hadd).stay (updateOhWith_shifts hgc hmove.ties hadd.homed _ _ _ _ _)

/-! ## Deletion -/

/-- An object that has left its directory is freed. -/
theorem Shifts.freeObj (h : Shifts (ms ++ [.out o]) d d') (ho : Unlisted d' o) (hleaf : (d'.obj o).children = []) :
    Shifts (ms ++ [.out o]) d (freeObj o d') := by
  have hobj : ∀ q, q ≠ o → (Yaffs.freeObj o d').obj q = d'.obj q := by
    intro q hq
    unfold Yaffs.freeObj
    split_ifs
    · simp [Dev.modObj, hq]
    · rfl
  have hch : ∀ q, ((Yaffs.freeObj o d').obj q).children = (d'.obj q).children := by
    intro q
    unfold Yaffs.freeObj
    split_ifs
    · by_cases hq : q = o
      · subst hq
        simp [Dev.modObj]
      · simp [Dev.modObj, hq]
    · rfl
  have hlist : ∀ q, q ≠ o → Listable d' q → Listable (Yaffs.freeObj o d') q := by
    intro q hq hl
    refine ⟨?_, by rw [hobj q hq]; exact hl.linked, by rw [hobj q hq]; exact hl.notSoft⟩
    unfold Yaffs.freeObj
    split_ifs
    · exact hl.mem
    · exact (List.mem_erase_of_ne hq).mpr hl.mem
  have hmem : ∀ p, Listed p → ∀ q ∈ ((Yaffs.freeObj o d').obj p).children, q ≠ o ∧ q ∈ (d'.obj p).children := by
    intro p hp q hq
    rw [hch] at hq
    exact ⟨fun heq => ho p hp (heq ▸ hq), hq⟩
  refine ⟨⟨fun p hp => ?_, fun p hp q hq => ?_, fun p hp q hq => ?_, fun p hp => ?_⟩, fun q hl hout => ?_, h.fits,
    fun p hp => ?_⟩
  · rw [hch]
    exact h.homed.nodup p hp
  · obtain ⟨hqo, hq⟩ := hmem p hp q hq
    rw [hobj q hqo]
    exact h.homed.parent p hp q hq
  · obtain ⟨hqo, hq⟩ := hmem p hp q hq
    exact hlist q hqo (h.homed.member p hp q hq)
  · rw [hch]
    by_cases hpo : p = o
    · rw [hpo]
      exact hleaf
    · refine h.homed.gone p fun hpm => hp ?_
      unfold Yaffs.freeObj
      split_ifs
      · exact hpm
      · exact (List.mem_erase_of_ne hpo).mpr hpm
  · exact hlist q (fun heq => hout (by simp [heq])) (h.listable q hl hout)
  · rw [hch]
    exact h.children p hp

theorem genericObjDelWith_shifts (hgc : StillGc E gc) (hevolve : Evolving E gc) (ht : Tied E d) (h : Homed d)
    (ho : Removable E d o) : Shifts (genericObjDelMoves g o d) d (genericObjDelWith g e gc o d) := by
  have hend : ∀ (ms : List DirMove) (x : Dev), Shifts ms d x → (x.obj o).children = [] →
      Shifts (ms ++ [.out o]) d (freeObj o
      (((removeObjFromDir o x).mapBlocks (chunkDel g e ((removeObjFromDir o x).obj o).hdrChunk true)).modObj o
        fun ob => { ob with hdrChunk := 0 })) := by
    intro ms x hx hleaf
    obtain ⟨hout, hun⟩ := removeObjFromDir_shifts hx.homed o
    have hdrop : Shifts [] (removeObjFromDir o x) (((removeObjFromDir o x).mapBlocks
        (chunkDel g e ((removeObjFromDir o x).obj o).hdrChunk true)).modObj o fun ob => { ob with hdrChunk := 0 }) :=
      hout.homed.same ((SameTies.mapBlocks _ _).trans (SameTies.modObj rfl))
    refine ((hx.trans hout).stay hdrop).freeObj (hun.shifts hdrop) ?_
    have hleft : ((removeObjFromDir o x).obj o).children = leftChildren x o o := by rw [removeObjFromDir_obj]
    simpa [Dev.modObj, Dev.mapBlocks, hleft] using leftChildren_nil hleaf
  have hinval : SameTies d (invalidateFileCache o d) := ⟨fun _ => rfl, rfl, rfl⟩
  have hev := hinval.evolves ht
  have htake : Takes d objectIdDeleted o := ho.takes ht (by simp [initialDirs])
  unfold genericObjDelMoves genericObjDelWith
  simp only
  by_cases hc : g.isYaffs2 = true ∧ (d.obj o).parent ≠ some objectIdDeleted
  · have hc' : g.isYaffs2 = true ∧ ((invalidateFileCache o d).obj o).parent ≠ some objectIdDeleted := hc
    have hdirs : ∀ dir, (some objectIdDeleted).or ((invalidateFileCache o d).obj o).parent = some dir →
        Takes (invalidateFileCache o d) dir o ∧ dir = objectIdDeleted := by
      intro dir hd
      obtain rfl : objectIdDeleted = dir := by simpa using hd
      exact ⟨htake.same hinval, rfl⟩
    have henter : ∀ dir, (some objectIdDeleted).or ((invalidateFileCache o d).obj o).parent = some dir →
        Enters (invalidateFileCache o d) dir o :=
      fun dir hd => Enters.of_unlisted (hdirs dir hd).1 (Or.inr (hdirs dir hd).2)
    have hname := changeObjNameWith_shifts (g := g) (e := e) hgc hev.ties (h.same hinval).homed henter deletedName
      false 0
    have hmoves : changeObjNameMoves o (some objectIdDeleted) deletedName false 0 (invalidateFileCache o d) =
        changeObjNameMoves o (some objectIdDeleted) deletedName false 0 d := rfl
    rw [hmoves] at hname
    have hun := changeObjNameWith_unlinked (g := g) (e := e) (o := o) hevolve hev.ties (Or.inr rfl) (htake.same hinval)
      deletedName false 0
    have hties := (changeObjNameWith_evolves (g := g) (e := e) hevolve hev.ties (fun dir hd => (hdirs dir hd).1)
      deletedName false 0).ties
    rw [if_pos hc, if_pos hc']
    exact hend _ _ ((h.same hinval).trans hname) (hties.empty o hun)
  · have hc' : ¬(g.isYaffs2 = true ∧ ((invalidateFileCache o d).obj o).parent ≠ some objectIdDeleted) := hc
    rw [if_neg hc, if_neg hc']
    refine hend _ _ (h.same hinval) ?_
    change (d.obj o).children = []
    by_cases htype : (d.obj o).variantType = .directory
    · exact ho.leaf htype
    · exact ht.childless o htype

theorem changeObjNameMoves_aside {dir : ℕ} (hdir : ¬Listed dir) (newName : Name) (force : Bool) (shadows : ℕ)
    (d : Dev) : ∀ m ∈ changeObjNameMoves o (some dir) newName force shadows d, AsideMove o m := by
  unfold changeObjNameMoves addObjToDirMoves
  simp only [Option.some_or]
  split_ifs
  · simp
  · simp [AsideMove, hdir]

theorem genericObjDelMoves_aside (d : Dev) : ∀ m ∈ genericObjDelMoves g o d, AsideMove o m := by
  intro m hm
  unfold genericObjDelMoves at hm
  rcases List.mem_append.mp hm with hm | hm
  · split_ifs at hm
    · exact changeObjNameMoves_aside (fun hl => hl.2 rfl) _ _ _ d m hm
    · simp at hm
  · rw [List.mem_singleton.mp hm]
    exact rfl

/-! ## Garbage collection -/

/-- A softly deleted file cannot be listed. -/
theorem soft_hidden (hs : (d.obj o).softDel = true) : ¬Listable d o := fun hl => by
  rw [hl.notSoft] at hs
  exact Bool.noConfusion hs

theorem gcCleanUp_shifts (ht : Tied E d) (h : Homed d) (hs : (d.obj o).softDel = true) (hE : o ∈ E) :
    Shifts [] d (gcCleanUp g e d o) := by
  unfold gcCleanUp findByNumber
  by_cases ho : o ∈ d.ids ∧ (d.obj o).deferredFree = false
  · rw [if_pos ho]
    have htop := freeTop_sameTies o d
    have hev := htop.evolves ht
    have hsoft : ((freeTop o d).obj o).softDel = true := (hev.soft o (by simp)).trans hs
    have hdel := (genericObjDelWith_shifts (g := g) (e := e) (fun _ _ => Shifts.refl)
      (fun _ hx => Evolves.refl hx) hev.ties (h.same htop).homed
      (hev.ties.soft_removable hsoft hE)).aside (h.same htop).homed (soft_hidden hsoft)
      (genericObjDelMoves_aside (freeTop o d))
    exact ((h.same htop).stay hdel).same ⟨fun _ => rfl, rfl, rfl⟩
  · rw [if_neg ho]
    exact Shifts.refl h

theorem foldl_gcCleanUp_shifts (l : List ℕ) : ∀ d, Tied E d → Homed d →
    (∀ o ∈ l, (d.obj o).softDel = true ∧ o ∈ E) → Shifts [] d (l.foldl (gcCleanUp g e) d) := by
  induction l with
  | nil => exact fun d _ h _ => Shifts.refl h
  | cons o l ih =>
    intro d ht h hl
    have ho := hl o List.mem_cons_self
    have hev := gcCleanUp_evolves (g := g) (e := e) ht ho.1 ho.2
    have hstep := gcCleanUp_shifts (g := g) (e := e) ht h ho.1 ho.2
    refine hstep.stay (ih _ hev.ties hstep.homed fun q hq => ?_)
    have := hl q (List.mem_cons_of_mem o hq)
    exact ⟨(hev.soft q (by simp)).trans this.1, this.2⟩

/-- Only what no search goes by changes. -/
theorem Homed.books (h : Homed d) (hobj : d'.obj = d.obj) (hids : d'.ids = d.ids) : Shifts [] d d' := by
  refine h.stay hids (fun q => by rw [hobj]) fun q hl => ⟨by rw [hobj], hids ▸ hl.mem, ?_, ?_⟩
  · rw [hobj]
    exact hl.linked
  · rw [hobj]
    exact hl.notSoft

theorem gcBlockEnd_shifts (b : ℕ) (ht : Tied [] d) (h : Homed d) : Shifts [] d (gcBlockEnd g e b d) := by
  have hfold := foldl_gcCleanUp_shifts (g := g) (e := e) d.gcCleanupList d (E := d.gcCleanupList) ht.exempt h
    fun o ho => ⟨((ht.clean o ho).resolve_left (by simp)).2, ho⟩
  unfold gcBlockEnd
  simp only
  split_ifs
  · exact h.books rfl rfl
  · exact hfold.stay (hfold.homed.books rfl rfl)

theorem gcProcessChunk_shifts (old : ℕ) (h : Homed d) : Shifts [] d (gcProcessChunk g e old d).1 := by
  have hdrop : ∀ o, Shifts [] d (gcDropChunk g e o old d) := by
    intro o
    have hcount : Shifts [] d ((d.mapBlocks fun b =>
        { b.modBlock (old / g.chunksPerBlock) fun bi => { bi with softDelPages := bi.softDelPages - 1 } with
          nFreeChunks := b.nFreeChunks - 1 }).modObj o fun ob => { ob with nDataChunks := ob.nDataChunks - 1 }) :=
      h.same ((SameTies.mapBlocks d _).trans (SameTies.modObj rfl))
    unfold gcDropChunk
    simp only
    split_ifs <;> exact hcount.stay (hcount.homed.books rfl rfl)
  unfold gcProcessChunk
  simp only
  split
  · exact h.same (SameTies.mapBlocks d _)
  · split_ifs
    · exact hdrop _
    · exact h.same (gcCopyHdr_sameTies _ _ _ _)
    · exact h.same (gcCopyData_sameTies _ _ _ _)

theorem gcBlockLoop_shifts (b n : ℕ) : ∀ (maxCopies : ℕ) (d : Dev), Homed d →
    Shifts [] d (gcBlockLoop g e b n maxCopies d).1 := by
  induction n with
  | zero => exact fun _ d h => Shifts.refl h
  | succ n ih =>
    intro maxCopies d h
    have hnext : ∀ x : Dev, Shifts [] d x →
        Shifts [] d (x.mapBlocks fun b => { b with gc := { b.gc with chunk := b.gc.chunk + 1 } }) :=
      fun x hx => hx.same (SameTies.mapBlocks x _)
    have hchunk := hnext _ (gcProcessChunk_shifts (g := g) (e := e) (b * g.chunksPerBlock + d.gc.chunk) h)
    have hskip := hnext d (Shifts.refl h)
    unfold gcBlockLoop
    simp only
    split_ifs
    · exact hchunk.stay (ih _ _ hchunk.homed)
    · exact hchunk
    · exact hskip.stay (ih _ _ hskip.homed)
    · exact Shifts.refl h

theorem gcBlock_shifts (b : ℕ) (wholeBlock : Bool) (ht : Tied [] d) (h : Homed d) :
    Shifts [] d (gcBlock g e b wholeBlock d).1 := by
  have hev := (SameTies.mapBlocks d (gcBlockStart g b)).evolves ht
  have hstart := h.same (SameTies.mapBlocks d (gcBlockStart g b))
  have hloop : ∀ n, Shifts [] d
      (gcBlockEnd g e b (gcBlockLoop g e b g.chunksPerBlock n (d.mapBlocks (gcBlockStart g b))).1) := fun n => by
    have hcopy := gcBlockLoop_shifts (g := g) (e := e) b g.chunksPerBlock n _ hstart.homed
    have hties := (gcBlockLoop_evolves (g := g) (e := e) b g.chunksPerBlock n _ hev.ties).ties
    exact (hstart.stay hcopy).stay (gcBlockEnd_shifts b hties hcopy.homed)
  unfold gcBlock
  simp only
  split_ifs
  · have hdirty := hstart.same (SameTies.mapBlocks _ (blockBecameDirty g e b))
    exact hdirty.stay (gcBlockEnd_shifts b ((SameTies.mapBlocks _ _).evolves hev.ties).ties hdirty.homed)
  · exact hloop _
  · exact hloop _

theorem checkGcLoop_shifts (background : Bool) (n : ℕ) : ∀ d, Tied [] d → Homed d →
    Shifts [] d (checkGcLoop g e background n d) := by
  induction n with
  | zero => exact fun d _ h => Shifts.refl h
  | succ n ih =>
    intro d ht h
    have hev := (onBlocks_sameTies d (gcMode g background)).evolves ht
    have hmode := h.same (onBlocks_sameTies d (gcMode g background))
    have hround : ∀ aggressive, Evolves [] [] d (gcRound g e aggressive background (d.onBlocks (gcMode g background)).1) ∧
        Shifts [] d (gcRound g e aggressive background (d.onBlocks (gcMode g background)).1) := by
      intro aggressive
      have hchoose := hev.trans (chooseGcBlock_evolves (g := g) aggressive background hev.ties)
      have hchosen : Shifts [] d (chooseGcBlock g aggressive background (d.onBlocks (gcMode g background)).1) := by
        refine hmode.stay (hmode.homed.books ?_ ?_)
        · unfold chooseGcBlock
          simp only
          split_ifs <;> rfl
        · unfold chooseGcBlock
          simp only
          split_ifs <;> rfl
      unfold gcRound
      simp only
      split_ifs
      · exact ⟨hchoose.trans (gcBlock_evolves _ _ hchoose.ties),
          hchosen.stay (gcBlock_shifts _ _ hchoose.ties hchosen.homed)⟩
      · exact ⟨hchoose, hchosen⟩
    unfold checkGcLoop
    simp only
    split
    · exact hmode
    · next aggressive _ =>
      obtain ⟨hevolve, hshift⟩ := hround aggressive
      split_ifs
      · exact hshift.stay (ih _ hevolve.ties hshift.homed)
      · exact hshift

/-- gc moves no entry of a listed directory. -/
theorem checkGc_stillGc (background : Bool) : StillGc [] (checkGc g e background) := by
  intro d ht h
  have hcontrol := h.same (onBlocks_sameTies d (gcControl e))
  have hev := (onBlocks_sameTies d (gcControl e)).evolves ht
  unfold checkGc
  simp only
  split_ifs
  · exact hcontrol.stay (checkGcLoop_shifts background 2 _ hev.ties hcontrol.homed)
  · exact hcontrol

/-- A call that leaves objects where they are. -/
theorem Calm.shifts (hc : Calm g e d d') (ht : Tied [] d) (h : Homed d) : Shifts [] d d' := by
  induction hc with
  | refl => exact Shifts.refl h
  | same _ hs ih => exact ih.same hs
  | gc hc background ih => exact ih.stay (checkGc_stillGc background _ (hc.evolves ht).ties ih.homed)

end Yaffs
