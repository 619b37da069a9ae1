import Yaffs.File

/-!
# Creating, deleting and renaming objects

`yaffs_del_obj` and the functions below it, `yaffs_unlink_obj`, `yaffs_rename_obj` and
`yaffs_create_obj`. An object is passed by its number; `YAFFS_OK` is `true`.
-/

namespace Yaffs

variable (g : Geometry) (e : Env)

/-! ## Deleting objects -/

/-- The device deletes files by resizing them to nothing. -/
def Param.deletesByResize (p : Param) : Bool :=
  p.disableSoftDel || p.isYaffs2

/-- Resize a file to nothing, on a device that deletes files so. -/
def emptyFile (o : ℕ) (d : Dev) : Dev :=
  if g.deletesByResize then (resizeFile g e o 0 d).1 else d

/-- The file `o` is deleted. -/
def setDeleted (o : ℕ) (d : Dev) : Dev :=
  { d.modObj o fun ob => { ob with deleted := true } with nDeletedFiles := d.nDeletedFiles + 1 }

/-- `yaffs_unlink_file_if_needed`. -/
def unlinkFileIfNeeded (o : ℕ) (d : Dev) : Dev × Bool :=
  if (d.obj o).myInode.isSome then changeObjName g e o (some objectIdUnlinked) unlinkedName false 0 d
  else
    let r := changeObjName g e o (some objectIdDeleted) deletedName false 0 d
    (softDelFile g e o (emptyFile g e o (setDeleted o r.1)), r.2)

/-- `yaffs_del_file`. -/
def delFile (o : ℕ) (d : Dev) : Dev × Bool :=
  let d := emptyFile g e o d
  if 0 < (d.obj o).nDataChunks then
    let r := if (d.obj o).unlinked then (d, true) else unlinkFileIfNeeded g e o d
    let d := r.1
    let deleted := (d.obj o).deleted
    if r.2 && (d.obj o).unlinked && !(d.obj o).deleted then (softDelFile g e o (setDeleted o d), true)
    else (d, deleted)
  else (genericObjDel g e o (freeTop o d), true)

/-- `yaffs_del_dir`. -/
def delDir (o : ℕ) (d : Dev) : Dev × Bool :=
  if isNonEmptyDir d o then (d, false) else (genericObjDel g e o d, true)

/-- `yaffs_del_symlink`. -/
def delSymlink (o : ℕ) (d : Dev) : Dev × Bool :=
  (genericObjDel g e o (d.modObj o fun ob => { ob with aliasName := none }), true)

/-- The hard link `o` leaves the ring of links of its object. -/
def unlinkRing (o : ℕ) (d : Dev) : Dev :=
  match (d.obj o).equivObj with
  | some q => d.modObj q fun ob => { ob with hardLinks := ob.hardLinks.erase o }
  | none => d

/-- `yaffs_del_link`. -/
def delLink (o : ℕ) (d : Dev) : Dev × Bool :=
  (genericObjDel g e o (unlinkRing o d), true)

/-- The directory is no longer among the dirty ones. -/
def cleanDir (o : ℕ) (d : Dev) : Dev :=
  { d with dirtyDirs := d.dirtyDirs.erase o }

/-- `yaffs_del_obj`. -/
def delObj (o : ℕ) (d : Dev) : Dev × Bool :=
  match (d.obj o).variantType with
  | .file => delFile g e o d
  | .directory => delDir g e o (cleanDir o d)
  | .symlink => delSymlink g e o d
  | .hardlink => delLink g e o d
  | .special => (genericObjDel g e o d, true)
  | .unknown => (d, false)
  | .other _ => (d, true)

/-! ## Unlinking -/

/-- The object takes the name of its first hard link `hl`, which is deleted. -/
def handOver (o hl : ℕ) (d : Dev) : Dev × Bool :=
  let name := getObjName d hl
  let parent := (d.obj hl).parent
  let d := addObjToDir objectIdUnlinked hl (unlinkRing hl d)
  let r := changeObjName g e o parent name false 0 d
  if r.2 then (genericObjDel g e hl r.1, true) else r

/-- `yaffs_unlink_worker`, behind the update of the parent. -/
def unlinkNamed (o : ℕ) (delNow : Bool) (d : Dev) : Dev × Bool :=
  if (d.obj o).variantType = .hardlink then delLink g e o d
  else
    match (d.obj o).hardLinks with
    | hl :: _ => handOver g e o hl d
    | [] =>
      if delNow then
        match (d.obj o).variantType with
        | .file => delFile g e o d
        | .directory => delDir g e o (cleanDir o d)
        | .symlink => delSymlink g e o d
        | .special => (genericObjDel g e o d, true)
        | _ => (d, false)
      else if isNonEmptyDir d o then (d, false)
      else changeObjName g e o (some objectIdUnlinked) unlinkedName false 0 d

/-- `yaffs_unlink_worker`. -/
def unlinkWorker (o : ℕ) (d : Dev) : Dev × Bool :=
  unlinkNamed g e o (d.obj o).myInode.isNone (updateParent g e (d.obj o).parent d)

/-- `yaffs_unlink_obj`. -/
def unlinkObj (o : ℕ) (d : Dev) : Dev × Bool :=
  if (d.obj o).unlinkAllowed then unlinkWorker g e o d else (d, false)

/-! ## Renaming -/

/-- `dev->gc_disable = x`. -/
def setGcDisable (x : Bool) (d : Dev) : Dev :=
  d.mapBlocks fun b => { b with gc := { b.gc with disable := x } }

/-- The part of `yaffs_rename_obj` that nukes an existing target, using shadowing. -/
def nukeTarget (o newDir : ℕ) (newName : Name) (target : ℕ) (d : Dev) : Dev :=
  let d := (changeObjName g e o (some newDir) newName false target (setGcDisable true d)).1
  let d := d.modObj target fun ob => { ob with isShadowed := true }
  setGcDisable false (unlinkObj g e target d).1

/-- The end of `yaffs_rename_obj`. -/
def renameTo (o : ℕ) (oldDir : Option ℕ) (newDir : ℕ) (newName : Name) (d : Dev) : Dev × Bool :=
  let r := changeObjName g e o (some newDir) newName true 0 d
  let d := updateParent g e oldDir r.1
  (if some newDir ≠ oldDir then updateParent g e (some newDir) d else d, r.2)

/-- `yaffs_rename_obj`, where no old name stands for a null pointer. -/
def renameObj (oldDir : ℕ) (oldName : Option Name) (newDir : ℕ) (newName : Name) (d : Dev) :
    Dev × Bool :=
  if (d.obj oldDir).variantType ≠ .directory ∨ (d.obj newDir).variantType ≠ .directory then (d, false)
  else if maxNameLength < newName.length then (d, false)
  else
    let r : Option ℕ × Option ℕ :=
      match oldName with
      | some name => (findByName d oldDir name, some oldDir)
      | none => (some oldDir, (d.obj oldDir).parent)
    match r.1 with
    | none => (d, false)
    | some o =>
      if (d.obj o).renameAllowed then
        match findByName d newDir newName with
        | some target =>
          if isNonEmptyDir d target then (d, false)
          else if target = o then renameTo g e o r.2 newDir newName d
          else renameTo g e o r.2 newDir newName (nukeTarget g e o newDir newName target d)
        | none => renameTo g e o r.2 newDir newName d
      else (d, false)

/-! ## Creating -/

/-- `yaffs_alloc_empty_obj`, for the object `o` : an object that lies in lost+found. -/
def allocEmptyObj (o : ℕ) (d : Dev) : Dev × Bool :=
  let ok := e.allocOk d.nand.calls
  let d := d.mapBlocks fun b => { b with nand := { b.nand with calls := b.nand.calls + 1 } }
  if ok then
    let d := d.modObj o fun _ => { parent := some objectIdRoot }
    let d := d.modObj objectIdRoot fun ob => { ob with children := o :: ob.children }
    (addObjToDir objectIdLostNFound o { d with nObj := d.nObj + 1 }, true)
  else (d, false)

/-- The rest of `yaffs_new_obj`, on the object it got. -/
def initObj (o : ℕ) (type : ObjType) (d : Dev) : Dev :=
  hashObj o (d.modObj o fun ob =>
    { ob with
      renameAllowed := true
      unlinkAllowed := true
      variantType := type
      file :=
        if type = .file then
          { shrinkSize := g.maxFileSize, topLevel := 0, top := some (Tnode.empty 0) }
        else {} })

/-- `yaffs_new_obj`, for a new number, which it returns. -/
def newObj (type : ObjType) (d : Dev) : Dev × Option ℕ :=
  let n := newObjId d
  let r := if type = .file then n.1.onBlocks (getTnode e) else (n.1, true)
  if r.2 then
    let q := allocEmptyObj e n.2 r.1
    if q.2 then (initObj g n.2 type q.1, some n.2)
    else (if type = .file then q.1.mapBlocks freeTnode else q.1, none)
  else (r.1, none)

/-- `yaffs_clone_str`. -/
def cloneStr (str : Name) (d : Dev) : Dev × Option Name :=
  (d.mapBlocks fun b => { b with nand := { b.nand with calls := b.nand.calls + 1 } },
    if e.allocOk d.nand.calls then some (str.take maxAliasLength) else none)

/-- The part of `yaffs_create_obj` that sets up the new object `o`. -/
def setupObj (o parent : ℕ) (type : ObjType) (name : Name) (equiv : ℕ) (aliasStr : Option Name)
    (d : Dev) : Dev :=
  let d := d.modObj o fun ob => { setObjName o name ob with dirty := true }
  let d := addObjToDir parent o d
  match type with
  | .symlink => d.modObj o fun ob => { ob with aliasName := aliasStr }
  | .hardlink =>
    (d.modObj o fun ob => { ob with equivObj := some equiv, equivId := equiv }).modObj equiv
      fun ob => { ob with hardLinks := o :: ob.hardLinks }
  | _ => d

/-- The end of `yaffs_create_obj` : the header of the new object `o`. -/
def finishObj (o parent : ℕ) (name : Name) (d : Dev) : Dev × Option ℕ :=
  let r := updateOh g e o (some name) false false 0 d
  match r.2 with
  | none => ((delObj g e o r.1).1, none)
  | some _ => (updateParent g e (some parent) r.1, some o)

/-- `yaffs_create_obj`. -/
def createObj (type : ObjType) (parent : ℕ) (name : Name) (equiv : ℕ) (aliasStr : Name) (d : Dev) :
    Dev × Option ℕ :=
  if (findByName d parent name).isSome then (d, none)
  else
    let s := if type = .symlink then cloneStr e aliasStr d else (d, some [])
    match s.2 with
    | none => (s.1, none)
    | some str =>
      let r := newObj g e type s.1
      match r.2 with
      | none => (r.1, none)
      | some o =>
        finishObj g e o parent name (setupObj o parent type name equiv (some str) r.1)

/-- `yaffs_link_obj`, of the object `target`. -/
def linkObj (parent : ℕ) (name : Name) (target : ℕ) (d : Dev) : Dev × Option ℕ :=
  match getEquivalentObj d target with
  | some q =>
    let r := createObj g e .hardlink parent name q [] d
    (r.1, if r.2.isSome then some q else none)
  | none => (d, none)

/-! ## Handles -/

/-- The object `o` is hooked to the inode `i`. -/
def hookInode (i o : ℕ) (d : Dev) : Dev :=
  d.modObj o fun ob => { ob with myInode := some i }

/-- `yaffsfs_ReleaseInode`. -/
def releaseInode (o : ℕ) (d : Dev) : Dev :=
  let d := d.modObj o fun ob => { ob with myInode := none }
  if (d.obj o).unlinked then (delObj g e o d).1 else d

/-! ## Dirty directories -/

/-- The loop of `yaffs_update_dirty_dirs`. -/
def updateDirtyDirsLoop : ℕ → Dev → Dev
  | 0, d => d
  | n + 1, d =>
    match d.dirtyDirs with
    | [] => d
    | o :: rest =>
      let d := { d with dirtyDirs := rest }
      updateDirtyDirsLoop n
        (if (d.obj o).dirty then (updateOh g e o none false false 0 d).1 else d)

/-- `yaffs_update_dirty_dirs`. -/
def updateDirtyDirs (d : Dev) : Dev :=
  updateDirtyDirsLoop g e d.dirtyDirs.length d

end Yaffs
