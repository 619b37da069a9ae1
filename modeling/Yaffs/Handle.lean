import Yaffs.Tally
import Yaffs.Evolve
import Yaffs.Path

/-!
# Handles

The handle management of the direct interface : handles, the file descriptors they share and
the inodes the descriptors share, with the calls that open, duplicate and close handles, read
and write through them and unlink what they refer to.

What path look-up finds is an argument of a call, and so are the permissions of the object
found, which the core does not look at. `v`, the union of a descriptor's position and its
directory search context, is a number; `dscAddr` are the addresses of the search contexts.
`yaffsfs_SetError` is left out : no call reads the error.
-/

namespace Yaffs

/-! ## The tables -/

/-- `struct yaffsfs_Inode`. -/
structure Inode where
  count : ℤ := 0
  iObj : Option ObjRef := none
  deriving DecidableEq, Repr

/-- `struct yaffsfs_FileDes`; `inodeId` is `none` for `-1`. -/
structure FileDes where
  isDir : Bool := false
  reading : Bool := false
  writing : Bool := false
  append : Bool := false
  shareRead : Bool := false
  shareWrite : Bool := false
  inodeId : Option ℕ := none
  handleCount : ℤ := 0
  v : ℤ := 0
  deriving DecidableEq, Repr

/-- `struct yaffsfs_Handle`; `fdId` is `none` for `-1`. -/
structure Handle where
  fdId : Option ℕ := none
  useCount : ℤ := 0
  deriving DecidableEq, Repr

/-- The mounted devices and the tables of the interface. -/
structure Vfs where
  dev : ℕ → Dev
  inode : ℕ → Inode
  fd : ℕ → FileDes
  handle : ℕ → Handle
  /-- `inUse` of a directory search context. -/
  dscInUse : ℕ → Bool
  /-- How often `yaffsfs_ReleaseInode` has deleted the object that has a number. -/
  deletions : ObjRef → ℕ

/-- What does not change while devices stay mounted. -/
structure VfsParam where
  /-- `YAFFSFS_N_HANDLES`. -/
  nHandles : ℕ
  /-- `YAFFSFS_N_DSC`. -/
  nDsc : ℕ
  dscAddr : ℕ → ℤ
  geometry : ℕ → Geometry
  env : ℕ → Env
  readOnly : ℕ → Bool
  /-- `param.max_objects`. -/
  maxObjects : ℕ → ℕ

namespace Vfs

variable (s : Vfs)

/-- Change an entry of the inode table. -/
def modInode (i : ℕ) (f : Inode → Inode) : Vfs :=
  { s with inode := Function.update s.inode i (f (s.inode i)) }

/-- Change a file descriptor. -/
def modFd (i : ℕ) (f : FileDes → FileDes) : Vfs :=
  { s with fd := Function.update s.fd i (f (s.fd i)) }

/-- Change a handle. -/
def modHandle (i : ℕ) (f : Handle → Handle) : Vfs :=
  { s with handle := Function.update s.handle i (f (s.handle i)) }

/-- Run a function of the core on a device. -/
def onDev (i : ℕ) (f : Dev → Dev) : Vfs :=
  { s with dev := Function.update s.dev i (f (s.dev i)) }

/-- An object. -/
def obj (r : ObjRef) : Obj :=
  (s.dev r.dev).obj r.obj

end Vfs

variable (p : VfsParam)

/-- `yaffsfs_HandleToPointer`, by index. -/
def handleToPointer (h : ℤ) : Option ℕ :=
  if 0 ≤ h ∧ h < p.nHandles then some h.toNat else none

/-- `yaffsfs_HandleToFileDes`, by index. -/
def handleToFileDes (s : Vfs) (h : ℤ) : Option ℕ :=
  (handleToPointer p h).bind fun i =>
    if 0 < (s.handle i).useCount then (s.handle i).fdId.filter (· < p.nHandles) else none

/-- `yaffsfs_HandleToInode`, by index. -/
def handleToInode (s : Vfs) (h : ℤ) : Option ℕ :=
  (handleToFileDes p s h).bind fun f =>
    if 0 < (s.fd f).handleCount then (s.fd f).inodeId.filter (· < p.nHandles) else none

/-- `yaffsfs_HandleToObject`. -/
def handleToObject (s : Vfs) (h : ℤ) : Option ObjRef :=
  (handleToInode p s h).bind fun i => (s.inode i).iObj

/-! ## Inodes -/

/-- `yaffs_get_equivalent_obj`. -/
def equivRef (s : Vfs) (r : ObjRef) : Option ObjRef :=
  (getEquivalentObj (s.dev r.dev) r.obj).map (ObjRef.mk r.dev)

/-- `yaffsfs_FindInodeIdForObject`. -/
def findInodeIdForObject (s : Vfs) (r : ObjRef) : Option ℕ :=
  (List.range p.nHandles).find? fun i => (s.inode i).iObj = equivRef s r

/-- `yaffsfs_GetInodeIdForObject`. -/
def getInodeIdForObject (r : ObjRef) (s : Vfs) : Vfs × Option ℕ :=
  let ret := (findInodeIdForObject p s r).or
    ((List.range p.nHandles).find? fun i => (s.inode i).iObj.isNone)
  match ret with
  | some i =>
    (s.modInode i fun inode =>
      { iObj := equivRef s r, count := (if inode.iObj.isNone then 0 else inode.count) + 1 }, some i)
  | none => (s, none)

/-- `yaffsfs_ReleaseInode`. -/
def releaseInodeAt (i : ℕ) (s : Vfs) : Vfs :=
  match (s.inode i).iObj with
  | none => s
  | some r =>
    let s := s.modInode i fun inode => { inode with iObj := none }
    let s := { s with
      deletions := if (s.obj r).unlinked then Function.update s.deletions r (s.deletions r + 1) else s.deletions }
    s.onDev r.dev (releaseInode (p.geometry r.dev) (p.env r.dev) r.obj)

/-- `yaffsfs_PutInode`. -/
def putInode (i : ℕ) (s : Vfs) : Vfs :=
  if i < p.nHandles then
    let s := s.modInode i fun inode => { inode with count := inode.count - 1 }
    if (s.inode i).count ≤ 0 then
      (releaseInodeAt p i s).modInode i fun inode => { inode with count := 0 }
    else s
  else s

/-! ## Handles and file descriptors -/

/-- `yaffsfs_NewHandle`. -/
def newHandle (s : Vfs) : Vfs × Option ℕ :=
  match (List.range p.nHandles).find? fun i => (s.handle i).useCount < 1 with
  | some i => (s.modHandle i fun _ => { fdId := none, useCount := 1 }, some i)
  | none => (s, none)

/-- `yaffsfs_NewHandleAndFileDes`, with the descriptor the handle refers to. -/
def newHandleAndFileDes (s : Vfs) : Vfs × Option (ℕ × ℕ) :=
  let r := newHandle p s
  match r.2 with
  | none => (r.1, none)
  | some h =>
    match (List.range p.nHandles).find? fun i => (r.1.fd i).handleCount < 1 with
    | some f =>
      ((r.1.modFd f fun _ => { inodeId := none, handleCount := 1 }).modHandle h
        fun hd => { hd with fdId := some f }, some (h, f))
    | none => (r.1.modHandle h fun hd => { hd with useCount := 0 }, none)

/-- `yaffsfs_GetHandle`. -/
def getHandle (h : ℤ) (s : Vfs) : Vfs :=
  match handleToPointer p h with
  | some i =>
    if 0 < (s.handle i).useCount then s.modHandle i fun hd => { hd with useCount := hd.useCount + 1 } else s
  | none => s

/-- `yaffsfs_opendir_reldir_no_lock` on a directory : the address of a search context. -/
def opendir (s : Vfs) : Vfs × Option ℤ :=
  match (List.range p.nDsc).find? fun i => !s.dscInUse i with
  | some i => ({ s with dscInUse := Function.update s.dscInUse i true }, some (p.dscAddr i))
  | none => (s, none)

/-- `yaffsfs_closedir_no_lock`. -/
def closedir (addr : ℤ) (s : Vfs) : Vfs :=
  { s with dscInUse := fun i => s.dscInUse i && p.dscAddr i != addr }

/-- The part of `yaffsfs_PutFileDes` that closes a directory. -/
def putDir (f : ℕ) (s : Vfs) : Vfs :=
  if (s.fd f).isDir then (closedir p (s.fd f).v s).modFd f fun fd => { fd with v := 0 } else s

/-- The part of `yaffsfs_PutFileDes` that lets go of the inode. -/
def putFdInode (f : ℕ) (s : Vfs) : Vfs :=
  match (s.fd f).inodeId with
  | some i => (putInode p i s).modFd f fun fd => { fd with inodeId := none }
  | none => s

/-- `yaffsfs_PutFileDes`. -/
def putFileDes (f : ℕ) (s : Vfs) : Vfs :=
  if f < p.nHandles then
    let s := s.modFd f fun fd => { fd with handleCount := fd.handleCount - 1 }
    if (s.fd f).handleCount < 1 then putFdInode p f (putDir p f s) else s
  else s

/-- `yaffsfs_PutHandle`, by index. -/
def putHandleAt (i : ℕ) (s : Vfs) : Vfs :=
  if 0 < (s.handle i).useCount then
    let s := s.modHandle i fun hd => { hd with useCount := hd.useCount - 1 }
    if (s.handle i).useCount < 1 then
      let s := match (s.handle i).fdId with
        | some f => putFileDes p f s
        | none => s
      s.modHandle i fun hd => { hd with fdId := none }
    else s
  else s

/-- `yaffsfs_PutHandle`. -/
def putHandle (h : ℤ) (s : Vfs) : Vfs :=
  match handleToPointer p h with
  | some i => putHandleAt p i s
  | none => s

/-! ## Opening -/

/-- What `rwflags` asks for. -/
inductive Access
  | rdOnly
  | wrOnly
  | rdWr
  | other
  deriving DecidableEq, Repr

/-- The arguments of `yaffs_open_sharing_reldir`, with what path look-up finds. -/
structure OpenArgs where
  /-- `yaffsfs_CheckMemRegion` and `yaffsfs_CheckPath` accept the path. -/
  pathOk : Bool
  /-- What `yaffsfs_FollowLink` returns. -/
  obj : Option ObjRef
  /-- What `yaffsfs_FindDirectory` returns. -/
  dir : Option ObjRef
  name : Name
  loop : Bool
  access : Access
  oCreat : Bool
  oExcl : Bool
  oTrunc : Bool
  oAppend : Bool
  shareRead : Bool
  shareWrite : Bool
  /-- What `yst_mode` of the object permits. -/
  mayRead : Bool
  mayWrite : Bool
  deriving DecidableEq, Repr

/-- Reading is requested of the object, which may be a directory. -/
def OpenArgs.readRequested (a : OpenArgs) (isDir : Bool) : Bool :=
  isDir || a.access = .rdWr || a.access = .rdOnly

/-- Writing is requested; directories are only opened for reading. -/
def OpenArgs.writeRequested (a : OpenArgs) (isDir : Bool) : Bool :=
  !isDir && (a.access = .rdWr || a.access = .wrOnly)

/-- `YAFFSFS_TooManyObjects`. -/
def tooManyObjects (s : Vfs) (dev : ℕ) : Bool :=
  p.maxObjects dev ≠ 0 &&
    decide ((p.maxObjects dev : ℤ) < (s.dev dev).nObj - (s.dev dev).nDeletedFiles)

/-- The sharing of the object's open descriptors denies the request. -/
def sharingDenied (s : Vfs) (a : OpenArgs) (r : ObjRef) (isDir : Bool) : Bool :=
  let users := (List.range p.nHandles).filter fun f =>
    decide (0 < (s.fd f).handleCount) && (s.fd f).inodeId.any fun i => (s.inode i).iObj = some r
  (a.readRequested isDir && !users.all fun f => (s.fd f).shareRead) ||
    (!a.shareRead && users.any fun f => (s.fd f).reading) ||
    (a.writeRequested isDir && !users.all fun f => (s.fd f).shareWrite) ||
    (!a.shareWrite && users.any fun f => (s.fd f).writing)

/-- Opening the existing object `r` is denied. -/
def openDenied (s : Vfs) (a : OpenArgs) (r : ObjRef) (isDir dscOk : Bool) : Bool :=
  (isDir && !dscOk) || (a.oExcl && a.oCreat) || (a.readRequested isDir && !a.mayRead) ||
    (a.writeRequested isDir && !a.mayWrite) || (a.writeRequested isDir && p.readOnly r.dev) ||
    sharingDenied p s a r isDir

/-- The file `yaffs_open` creates. -/
def openCreate (a : OpenArgs) (s : Vfs) : Vfs × Option ObjRef :=
  match a.dir with
  | none => (s, none)
  | some dir =>
    if a.loop || !a.oCreat || p.readOnly dir.dev || tooManyObjects p s dir.dev then (s, none)
    else
      let r := createObj (p.geometry dir.dev) (p.env dir.dev) .file dir.obj a.name 0 [] (s.dev dir.dev)
      let s := s.onDev dir.dev fun _ => r.1
      match r.2 with
      | some n => ({ s with deletions := Function.update s.deletions ⟨dir.dev, n⟩ 0 }, some ⟨dir.dev, n⟩)
      | none => (s, none)

/-- The object is hooked to an inode and the descriptor `f` to it. -/
def openObj (a : OpenArgs) (f : ℕ) (r : ObjRef) (isDir : Bool) (dsc : Option ℤ) (s : Vfs) : Vfs :=
  let q := getInodeIdForObject p r s
  let s := q.1.modFd f fun fd =>
    { fd with
      inodeId := q.2
      reading := a.readRequested isDir
      writing := a.writeRequested isDir
      append := a.oAppend
      shareRead := a.shareRead
      shareWrite := a.shareWrite
      isDir := isDir
      v := dsc.getD 0 }
  let s := match q.2 with
    | some i => s.onDev r.dev (hookInode i r.obj)
    | none => s
  if !isDir && (a.oTrunc && !(a.oCreat && a.oExcl)) && a.writeRequested isDir then
    s.onDev r.dev fun d => (resizeFile (p.geometry r.dev) (p.env r.dev) r.obj 0 d).1
  else s

/-- The open fails : the handle is put back. -/
def openFails (h : ℕ) (dsc : Option ℤ) (s : Vfs) : Vfs :=
  putHandleAt p h (match dsc with
    | some addr => closedir p addr s
    | none => s)

/-- The object found, if it is a file or a directory. -/
def OpenArgs.found (a : OpenArgs) (s : Vfs) : Option ObjRef :=
  a.obj.filter fun r => (s.obj r).variantType = .file || (s.obj r).variantType = .directory

/-- `yaffs_open_sharing_reldir`, which returns the handle or `-1`. -/
def openSharing (a : OpenArgs) (s : Vfs) : Vfs × ℤ :=
  if !a.pathOk then (s, -1)
  else
    let q := newHandleAndFileDes p s
    match q.2 with
    | none => (q.1, -1)
    | some (h, f) =>
      match a.found q.1 with
      | some r =>
        let isDir := decide ((q.1.obj r).variantType = .directory)
        let t := if isDir then opendir p q.1 else (q.1, none)
        if openDenied p t.1 a r isDir t.2.isSome then (openFails p h t.2 t.1, -1)
        else (openObj p a f r isDir t.2 t.1, h)
      | none =>
        let t := openCreate p a q.1
        match t.2 with
        | some r => (openObj p a f r false none t.1, h)
        | none => (openFails p h none t.1, -1)

/-! ## Duplicating and closing -/

/-- `yaffs_dup`. -/
def dup (h : ℤ) (s : Vfs) : Vfs × ℤ :=
  match handleToFileDes p s h with
  | none => (s, -1)
  | some f =>
    let q := newHandle p s
    match q.2 with
    | none => (q.1, -1)
    | some i =>
      ((q.1.modHandle i fun hd => { hd with fdId := some f }).modFd f
        fun fd => { fd with handleCount := fd.handleCount + 1 }, i)

/-- `yaffs_close`. -/
def close (h : ℤ) (s : Vfs) : Vfs × ℤ :=
  match handleToObject p s h, handleToFileDes p s h with
  | some r, some f =>
    let s := if (s.fd f).isDir then s
      else s.onDev r.dev fun d => (flushFile (p.geometry r.dev) (p.env r.dev) r.obj false true d).1
    (putHandle p h s, 0)
  | _, _ => (s, -1)

/-! ## Reading and writing -/

/-- `YAFFS_MAX_RW_SIZE`, `YAFFSFS_RW_SIZE` and `YAFFS_MAX_FILE_SIZE`. -/
def maxRwSize : ℕ := 0x70000000
def rwSize : ℕ := 8192
def maxFileOffset : ℤ := 0x800000000 - 1

/-- `yaffs_get_obj_length`, of an object that is no link. -/
def getObjLength (s : Vfs) (r : ObjRef) : ℕ :=
  if (s.obj r).variantType = .file then (s.obj r).file.fileSize
  else (p.geometry r.dev).dataBytesPerChunk

/-- The transfer from `pos` on lies outside the files the interface allows. -/
def outOfRange (pos : ℤ) (n : ℕ) : Bool :=
  decide (pos < 0) || decide (maxFileOffset < pos) || decide (maxRwSize < n) || decide (maxFileOffset < pos + n)

/-- The loop of `yaffsfs_do_read`, with the number of bytes read; every round that goes on reads
a byte at least. -/
def doReadLoop (h : ℤ) : ℕ → ℕ → ℕ → Vfs → Vfs × ℕ
  | 0, _, _, s => (s, 0)
  | fuel + 1, n, pos, s =>
    if n = 0 then (s, 0)
    else
      let nToRead := min n (rwSize - pos % rwSize)
      match handleToObject p s h with
      | none => (s, 0)
      | some r =>
        let s := s.onDev r.dev fun d => (fileRd (p.geometry r.dev) (p.env r.dev) r.obj pos nToRead d).1
        let q := doReadLoop h fuel (n - nToRead) (pos + nToRead) s
        (q.1, nToRead + q.2)

/-- `yaffsfs_do_read`. -/
def doRead (h : ℤ) (nbyte : ℕ) (isPread : Bool) (offset : ℤ) (s : Vfs) : Vfs × ℤ :=
  match handleToFileDes p s h, handleToObject p s h with
  | some f, some r =>
    if !(s.fd f).reading || decide (maxRwSize < nbyte) then (s, -1)
    else
      let startPos := if isPread then offset else (s.fd f).v
      let nbyte := min nbyte ((getObjLength p s r : ℤ) - startPos).toNat
      let s := getHandle p h s
      if outOfRange startPos nbyte then (putHandle p h s, -1)
      else
        let q := doReadLoop p h nbyte nbyte startPos.toNat s
        let s := putHandle p h q.1
        (if isPread then s else s.modFd f fun fd => { fd with v := startPos + q.2 }, q.2)
  | _, _ => (s, -1)

/-- The loop of `yaffsfs_do_write`, with the number of bytes written; every round that goes on
writes a byte at least. -/
def doWriteLoop (h : ℤ) : ℕ → List UInt8 → ℕ → Vfs → Vfs × ℕ
  | 0, _, _, s => (s, 0)
  | fuel + 1, buf, pos, s =>
    if buf.length = 0 then (s, 0)
    else
      let nToWrite := min buf.length (rwSize - pos % rwSize)
      match handleToObject p s h with
      | none => (s, 0)
      | some r =>
        if p.readOnly r.dev then (s, 0)
        else
          let w := wrFile (p.geometry r.dev) (p.env r.dev) r.obj (buf.take nToWrite) pos false (s.dev r.dev)
          let s := s.onDev r.dev fun _ => w.1
          if w.2 = nToWrite then
            let q := doWriteLoop h fuel (buf.drop nToWrite) (pos + nToWrite) s
            (q.1, nToWrite + q.2)
          else (s, w.2)

/-- `yaffsfs_do_write`. -/
def doWrite (h : ℤ) (buf : List UInt8) (isPwrite : Bool) (offset : ℤ) (s : Vfs) : Vfs × ℤ :=
  match handleToFileDes p s h, handleToObject p s h with
  | some f, some r =>
    if !(s.fd f).writing || p.readOnly r.dev then (s, -1)
    else
      let startPos := if (s.fd f).append then (getObjLength p s r : ℤ) else if isPwrite then offset
        else (s.fd f).v
      let s := getHandle p h s
      if outOfRange startPos buf.length then (putHandle p h s, -1)
      else
        let q := doWriteLoop p h buf.length buf startPos.toNat s
        let s := putHandle p h q.1
        (if isPwrite ∨ q.2 = 0 then s else s.modFd f fun fd => { fd with v := startPos + q.2 },
          if q.2 = 0 ∧ buf ≠ [] then -1 else q.2)
  | _, _ => (s, -1)

/-! ## Unlinking -/

/-- The arguments of `yaffsfs_DoUnlink_reldir`, with what path look-up finds. -/
structure UnlinkArgs where
  pathOk : Bool
  obj : Option ObjRef
  dir : Option ObjRef
  name : Name
  loop : Bool
  isDirectory : Bool
  deriving DecidableEq, Repr

/-- `yaffsfs_DoUnlink_reldir`. -/
def doUnlink (a : UnlinkArgs) (s : Vfs) : Vfs × ℤ :=
  match a.dir, a.obj with
  | some dir, some r =>
    if !a.pathOk || a.loop || a.name = ".".toList || p.readOnly r.dev ||
        a.isDirectory != decide ((s.obj r).variantType = .directory) ||
        (a.isDirectory && r.obj = objectIdRoot) then (s, -1)
    else
      match findByName (s.dev dir.dev) dir.obj a.name with
      | none => (s, -1)
      | some o =>
        let u := unlinkObj (p.geometry dir.dev) (p.env dir.dev) o (s.dev dir.dev)
        (s.onDev dir.dev fun _ => u.1, if u.2 then 0 else -1)
  | _, _ => (s, -1)

/-- `yaffs_funlink`. -/
def funlink (h : ℤ) (s : Vfs) : Vfs × ℤ :=
  match handleToObject p s h with
  | none => (s, -1)
  | some r =>
    if p.readOnly r.dev || isNonEmptyDir (s.dev r.dev) r.obj || r.obj = objectIdRoot then (s, -1)
    else
      let u := unlinkObj (p.geometry r.dev) (p.env r.dev) r.obj (s.dev r.dev)
      (s.onDev r.dev fun _ => u.1, if u.2 then 0 else -1)

/-! ## Runs -/

/-- A call of the interface. -/
inductive Call
  | openSharing (a : OpenArgs)
  | dup (h : ℤ)
  | close (h : ℤ)
  | read (h : ℤ) (nbyte : ℕ) (isPread : Bool) (offset : ℤ)
  | write (h : ℤ) (buf : List UInt8) (isPwrite : Bool) (offset : ℤ)
  | unlink (a : UnlinkArgs)
  | funlink (h : ℤ)
  deriving DecidableEq, Repr

/-- Path look-up can have found what the call is passed : objects that have a name, and directories. -/
def Call.found (s : Vfs) : Call → Bool
  | .openSharing a =>
    (a.obj.all fun r => named (s.dev r.dev) r.obj) && a.dir.all fun r => namedDir (s.dev r.dev) r.obj
  | .unlink a =>
    a.dir.all fun r => namedDir (s.dev r.dev) r.obj &&
      (findByName (s.dev r.dev) r.obj a.name).all fun o => named (s.dev r.dev) o
  | _ => true

/-- A call, with what it returns. -/
def execCall (s : Vfs) : Call → Vfs × ℤ
  | .openSharing a => openSharing p a s
  | .dup h => dup p h s
  | .close h => close p h s
  | .read h nbyte isPread offset => doRead p h nbyte isPread offset s
  | .write h buf isPwrite offset => doWrite p h buf isPwrite offset s
  | .unlink a => doUnlink p a s
  | .funlink h => funlink p h s

/-- One call, if path look-up can find what it is passed. -/
def Vfs.step (s : Vfs) (c : Call) : Vfs :=
  if c.found s then (execCall p s c).1 else s

/-- A sequence of calls. -/
def Vfs.run (s : Vfs) (cs : List Call) : Vfs :=
  cs.foldl (Vfs.step p) s

/-- `yaffsfs_InitHandles`, with the devices mounted. -/
def initHandles (dev : ℕ → Dev) : Vfs where
  dev := dev
  inode _ := {}
  fd _ := {}
  handle _ := {}
  dscInUse _ := false
  deletions _ := 0

end Yaffs
