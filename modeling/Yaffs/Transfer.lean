import Yaffs.Unmount

/-!
# Reads and writes in segments

`yaffsfs_do_read` and `yaffsfs_do_write` give up the lock between segments, and other callers
run in the gaps. A state here tells the callers that are within a read or a write; what they
have in their local variables is a `Transfer`.

The use count of a handle adds up the reference `yaffs_open` or `yaffs_dup` took and those of
running transfers. Whose they are is not in the tables; `owners` tells it, and `accesses` and
`releases` tell what segments and final releases have done.
-/

namespace Yaffs

section Model

variable (p : VfsParam)

/-! ## Transfers -/

/-- What is left to be read or written. -/
inductive Io
  | read (nbyte : ℕ)
  | write (buf : List UInt8)
  deriving DecidableEq, Repr

/-- `nbyte`. -/
def Io.nbyte : Io → ℕ
  | .read n => n
  | .write buf => buf.length

/-- The local variables of `yaffsfs_do_read` and `yaffsfs_do_write` between segments; `obj` is the
object of the handle when the call started. -/
structure Transfer where
  handle : ℤ
  fd : ℕ
  obj : ObjRef
  io : Io
  /-- `isPread` and `isPwrite`. -/
  atOffset : Bool
  startPos : ℤ
  pos : ℕ
  total : ℤ
  deriving DecidableEq, Repr

/-- `yaffsfs_do_read` up to its loop, but for `yaffsfs_GetHandle`; `none` if it fails. -/
def beginRead (h : ℤ) (nbyte : ℕ) (isPread : Bool) (offset : ℤ) (s : Vfs) : Option Transfer :=
  match handleToFileDes p s h, handleToObject p s h with
  | some f, some r =>
    if !(s.fd f).reading || decide (maxRwSize < nbyte) then none
    else
      let startPos := if isPread then offset else (s.fd f).v
      let nbyte := min nbyte ((getObjLength p s r : ℤ) - startPos).toNat
      let bad := outOfRange startPos nbyte
      some
        { handle := h, fd := f, obj := r, io := .read (if bad then 0 else nbyte), atOffset := isPread
          startPos := startPos, pos := startPos.toNat, total := if bad then -1 else 0 }
  | _, _ => none

/-- `yaffsfs_do_write` up to its loop, but for `yaffsfs_GetHandle`; `none` if it fails. -/
def beginWrite (h : ℤ) (buf : List UInt8) (isPwrite : Bool) (offset : ℤ) (s : Vfs) : Option Transfer :=
  match handleToFileDes p s h, handleToObject p s h with
  | some f, some r =>
    if !(s.fd f).writing || p.readOnly r.dev then none
    else
      let startPos := if (s.fd f).append then (getObjLength p s r : ℤ) else if isPwrite then offset
        else (s.fd f).v
      let bad := outOfRange startPos buf.length
      some
        { handle := h, fd := f, obj := r, io := .write (if bad then [] else buf), atOffset := isPwrite
          startPos := startPos, pos := startPos.toNat, total := if bad then -1 else 0 }
  | _, _ => none

/-- The transfer after `nWritten` bytes of the `nToWrite` tried. -/
def Transfer.wrote (τ : Transfer) (buf : List UInt8) (nWritten nToWrite : ℕ) : Transfer :=
  { τ with
    io := .write (if nWritten = nToWrite then buf.drop nToWrite else [])
    pos := τ.pos + nWritten
    total := if nWritten < 1 ∧ τ.total + nWritten < 1 then -1 else τ.total + nWritten }

/-- A round of the loop of `yaffsfs_do_read` or `yaffsfs_do_write`. -/
def segment (τ : Transfer) (s : Vfs) : Vfs × Transfer :=
  match τ.io with
  | .read n =>
    let nToRead := min n (rwSize - τ.pos % rwSize)
    match handleToObject p s τ.handle with
    | none => (s, { τ with io := .read 0 })
    | some r =>
      (s.onDev r.dev fun d => (fileRd (p.geometry r.dev) (p.env r.dev) r.obj τ.pos nToRead d).1,
        { τ with io := .read (n - nToRead), pos := τ.pos + nToRead, total := τ.total + nToRead })
  | .write buf =>
    let nToWrite := min buf.length (rwSize - τ.pos % rwSize)
    match handleToObject p s τ.handle with
    | none => (s, τ.wrote buf 0 nToWrite)
    | some r =>
      if p.readOnly r.dev then (s, τ.wrote buf 0 nToWrite)
      else
        let w := wrFile (p.geometry r.dev) (p.env r.dev) r.obj (buf.take nToWrite) τ.pos false (s.dev r.dev)
        (s.onDev r.dev fun _ => w.1, τ.wrote buf w.2 nToWrite)

/-- The end of `yaffsfs_do_read` and `yaffsfs_do_write`. -/
def endTransfer (τ : Transfer) (s : Vfs) : Vfs :=
  let s := putHandle p τ.handle s
  let moves : Bool := match τ.io with
    | .read _ => decide (0 ≤ τ.total)
    | .write _ => decide (0 < τ.total)
  if !τ.atOffset && moves then s.modFd τ.fd fun fd => { fd with v := τ.startPos + τ.total } else s

/-! ## Callers that share the tables -/

/-- The tables, the callers within a read or a write, and what has happened. -/
structure Session where
  vfs : Vfs
  running : ℕ → Option Transfer
  /-- Whose the references are that a handle counts : `none` is the reference of `yaffs_open` or
  `yaffs_dup`, `some k` that of the transfer of caller `k`. -/
  owners : ℕ → List (Option ℕ)
  /-- For every segment, the object of the call's handle when it started and the one accessed. -/
  accesses : List (ObjRef × ObjRef)
  /-- For every release at the end of a call, the caller and whose reference was dropped. -/
  releases : List (ℕ × Option ℕ)

/-- `yaffsfs_PutHandle` on behalf of `w` : its reference goes, or else another's. -/
def dropOwner (w : Option ℕ) (l : List (Option ℕ)) : List (Option ℕ) :=
  if w ∈ l then l.erase w else l.tail

/-- Whose reference goes. -/
def dropped (w : Option ℕ) (l : List (Option ℕ)) : Option (Option ℕ) :=
  if w ∈ l then some w else l.head?

namespace Session

/-- The end of the call of caller `k`. -/
def finish (k : ℕ) (τ : Transfer) (σ : Session) : Session :=
  { σ with
    vfs := endTransfer p τ σ.vfs
    running := Function.update σ.running k none
    owners := Function.update σ.owners τ.handle.toNat (dropOwner (some k) (σ.owners τ.handle.toNat))
    releases := σ.releases ++ ((dropped (some k) (σ.owners τ.handle.toNat)).map (Prod.mk k)).toList }

/-- Caller `k` has the lock : its call ends, or a segment is transferred, after which the call ends or
gives up the lock. -/
def advance (k : ℕ) (τ : Transfer) (σ : Session) : Session :=
  if τ.io.nbyte = 0 then σ.finish p k τ
  else
    let q := segment p τ σ.vfs
    let σ := { σ with
      vfs := q.1
      accesses := σ.accesses ++ ((handleToObject p σ.vfs τ.handle).map (Prod.mk τ.obj)).toList }
    if q.2.io.nbyte = 0 then σ.finish p k q.2 else { σ with running := Function.update σ.running k (some q.2) }

/-- A read or a write of caller `k` starts, if it does not fail. -/
def start (k : ℕ) (t : Option Transfer) (σ : Session) : Session :=
  match t with
  | none => σ
  | some τ =>
    advance p k τ
      { σ with
        vfs := getHandle p τ.handle σ.vfs
        owners := Function.update σ.owners τ.handle.toNat (some k :: σ.owners τ.handle.toNat) }

/-- A call that is not a read or a write. -/
def call (c : Call) (σ : Session) : Session :=
  let q := execCall p σ.vfs c
  let owners := match c with
    | .openSharing _ | .dup _ => if 0 ≤ q.2 then Function.update σ.owners q.2.toNat [none] else σ.owners
    | .close h => if q.2 = 0 then Function.update σ.owners h.toNat (dropOwner none (σ.owners h.toNat)) else σ.owners
    | _ => σ.owners
  { σ with vfs := q.1, owners := owners }

/-- `yaffsfs_BreakDeviceHandles`. -/
def breakDeviceHandles (dev : ℕ) (σ : Session) : Session :=
  { σ with vfs := Yaffs.breakDeviceHandles p dev σ.vfs, owners := fun _ => [] }

end Session

/-- What the callers do. -/
inductive Act
  | read (k : ℕ) (h : ℤ) (nbyte : ℕ) (isPread : Bool) (offset : ℤ)
  | write (k : ℕ) (h : ℤ) (buf : List UInt8) (isPwrite : Bool) (offset : ℤ)
  /-- A caller takes the lock again. -/
  | next (k : ℕ)
  | call (c : Call)
  | unmount (dev : ℕ)
  | mount (dev : ℕ) (d : Dev)

/-- An action, which takes place under the lock. -/
def Session.act (a : Act) (σ : Session) : Session :=
  match a with
  | .read k h nbyte isPread offset => σ.start p k (beginRead p h nbyte isPread offset σ.vfs)
  | .write k h buf isPwrite offset => σ.start p k (beginWrite p h buf isPwrite offset σ.vfs)
  | .next k =>
    match σ.running k with
    | some τ => σ.advance p k τ
    | none => σ
  | .call c => σ.call p c
  | .unmount dev => σ.breakDeviceHandles p dev
  | .mount dev d => { σ with vfs := σ.vfs.mount dev d }

/-- The action can take place : a caller makes one call at a time, path look-up can have found what a
call is passed, and a device is mounted when no inode holds an object of it. -/
def Act.possible (σ : Session) : Act → Prop
  | .read k .. => σ.running k = none
  | .write k .. => σ.running k = none
  | .next _ => True
  | .call c => c.found σ.vfs = true ∧ match c with
    | .read .. => False
    | .write .. => False
    | _ => True
  | .unmount _ => True
  | .mount dev d => Tied [] d ∧ ∀ i < p.nHandles, ∀ r, (σ.vfs.inode i).iObj = some r → r.dev ≠ dev

end Model

section Frame

variable {p : VfsParam} {s s' : Vfs} {δ ε : ℕ → ℤ} {i f m : ℕ} {r : ObjRef}

/-! ## What a handle leads to -/

/-- The open handle `i` leads by the descriptor `f` and the inode `m` to the object `r`. -/
structure Designates (p : VfsParam) (s : Vfs) (i f m : ℕ) (r : ObjRef) : Prop where
  handle_lt : i < p.nHandles
  use : 0 < (s.handle i).useCount
  fdId : (s.handle i).fdId = some f
  fd_lt : f < p.nHandles
  opened : 0 < (s.fd f).handleCount
  inodeId : (s.fd f).inodeId = some m
  inode_lt : m < p.nHandles
  iObj : (s.inode m).iObj = some r

theorem Designates.handleToObject (h : Designates p s i f m r) : handleToObject p s i = some r := by
  have hf : handleToFileDes p s i = some f := by
    unfold handleToFileDes
    rw [handleToPointer_coe h.handle_lt, Option.bind_some, if_pos h.use, h.fdId]
    simp [h.fd_lt]
  rw [handleToObject_eq, hf, Option.bind_some]
  exact fdToObject_eq_some.mpr ⟨h.opened, m, h.inode_lt, h.inodeId, h.iObj⟩

theorem designates_of_handleToObject {h : ℤ} (hr : handleToObject p s h = some r) :
    ∃ i f m : ℕ, h = i ∧ handleToFileDes p s h = some f ∧ Designates p s i f m r := by
  obtain ⟨i, hi, rfl, huse⟩ := handleToObject_open hr
  obtain ⟨f, hf, hfr⟩ := Option.bind_eq_some_iff.mp ((handleToObject_eq s i).symm.trans hr)
  obtain ⟨hopen, m, hm, hid, hobj⟩ := fdToObject_eq_some.mp hfr
  have hif := hf
  unfold handleToFileDes at hif
  rw [handleToPointer_coe hi, Option.bind_some, if_pos huse] at hif
  obtain ⟨hfd, hlt⟩ := Option.filter_eq_some_iff.mp hif
  exact ⟨i, f, m, rfl, hf, hi, huse, hfd, by simpa using hlt, hopen, hid, hm, hobj⟩

/-- The entries on the way to the object are as before. -/
theorem Designates.congr (h : Designates p s i f m r) (huse : 0 < (s'.handle i).useCount)
    (hfd : (s'.handle i).fdId = (s.handle i).fdId) (hopen : 0 < (s'.fd f).handleCount)
    (hid : (s'.fd f).inodeId = (s.fd f).inodeId) (hobj : (s'.inode m).iObj = (s.inode m).iObj) :
    Designates p s' i f m r :=
  ⟨h.handle_lt, huse, hfd.trans h.fdId, h.fd_lt, hopen, hid.trans h.inodeId, h.inode_lt, hobj.trans h.iObj⟩

/-- Nothing but the devices and the search contexts has changed. -/
structure SameTables (s s' : Vfs) : Prop where
  handle : s'.handle = s.handle
  fd : s'.fd = s.fd
  inode : s'.inode = s.inode

theorem SameTables.refl (s : Vfs) : SameTables s s := ⟨rfl, rfl, rfl⟩

theorem SameTables.onDev (s : Vfs) (j : ℕ) (g : Dev → Dev) : SameTables s (s.onDev j g) := ⟨rfl, rfl, rfl⟩

theorem SameTables.closedir (s : Vfs) (addr : ℤ) : SameTables s (closedir p addr s) := ⟨rfl, rfl, rfl⟩

theorem SameTables.designates (h : SameTables s s') (hl : Designates p s i f m r) : Designates p s' i f m r :=
  hl.congr (by rw [h.handle]; exact hl.use) (by rw [h.handle]) (by rw [h.fd]; exact hl.opened) (by rw [h.fd])
    (by rw [h.inode])

theorem Designates.modHandle (h : Designates p s i f m r) {j : ℕ} (hj : i ≠ j) (g : Handle → Handle) :
    Designates p (s.modHandle j g) i f m r := by
  have hsame : (s.modHandle j g).handle i = s.handle i := Function.update_of_ne hj _ _
  exact h.congr (by rw [hsame]; exact h.use) (by rw [hsame]) h.opened rfl rfl

theorem Designates.modFd (h : Designates p s i f m r) {j : ℕ} (hj : f ≠ j) (g : FileDes → FileDes) :
    Designates p (s.modFd j g) i f m r := by
  have hsame : (s.modFd j g).fd f = s.fd f := Function.update_of_ne hj _ _
  exact h.congr h.use rfl (by rw [hsame]; exact h.opened) (by rw [hsame]) rfl

/-! ### Handles are put back -/

theorem two_le_countP {n : ℕ} {q : ℕ → Bool} {i j : ℕ} (hi : i < n) (hj : j < n) (hij : i ≠ j) (hqi : q i = true)
    (hqj : q j = true) : 2 ≤ (List.range n).countP q := by
  rw [List.countP_eq_length_filter]
  have hsub : [i, j] ⊆ (List.range n).filter q := by
    intro k hk
    simp only [List.mem_cons, List.not_mem_nil, or_false] at hk
    rcases hk with rfl | rfl
    · exact List.mem_filter.mpr ⟨List.mem_range.mpr hi, hqi⟩
    · exact List.mem_filter.mpr ⟨List.mem_range.mpr hj, hqj⟩
  exact (List.subperm_of_subset (by simp [hij]) hsub).length_le

/-- An inode that others count keeps its object. -/
theorem putInode_iObj {j : ℕ} (h : m ≠ j ∨ 1 < (s.inode m).count) :
    ((putInode p j s).inode m).iObj = (s.inode m).iObj := by
  rcases eq_or_ne m j with rfl | hmj
  · have hcount := h.resolve_left fun hne => hne rfl
    unfold putInode
    split_ifs with hlt
    · simp only [Vfs.modInode, Function.update_self]
      rw [if_neg (by omega)]
      simp
    · rfl
  · rw [putInode_inode hmj]

/-- Closing another descriptor keeps what the handle leads to if the inode is counted by both. -/
theorem Designates.putFd (h : Designates p s i f m r) {j : ℕ} (hself : j = f → 1 < (s.fd f).handleCount)
    (hother : j < p.nHandles → j ≠ f → (s.fd j).inodeId = some m → 1 < (s.inode m).count) : Designates p (putFileDes p j s) i f m r := by
  unfold putFileDes
  split_ifs with hj
  swap
  · exact h
  simp only
  rcases eq_or_ne j f with rfl | hjf
  · have hcount := hself rfl
    rw [if_neg (by simp only [Vfs.modFd, Function.update_self]; omega)]
    refine h.congr h.use rfl ?_ ?_ rfl
    · simp only [Vfs.modFd, Function.update_self]
      omega
    · simp [Vfs.modFd]
  · have hdec := h.modFd hjf.symm fun fd => { fd with handleCount := fd.handleCount - 1 }
    split_ifs
    · have hdir : Designates p (putDir p j (s.modFd j fun fd => { fd with handleCount := fd.handleCount - 1 })) i f m r := by
        unfold putDir
        split_ifs
        · exact ((SameTables.closedir _ _).designates hdec).modFd hjf.symm _
        · exact hdec
      have hid : ((putDir p j (s.modFd j fun fd => { fd with handleCount := fd.handleCount - 1 })).fd j).inodeId =
          (s.fd j).inodeId := by
        unfold putDir
        split_ifs <;> simp [Vfs.modFd, closedir]
      have hinode : (putDir p j (s.modFd j fun fd => { fd with handleCount := fd.handleCount - 1 })).inode = s.inode := by
        unfold putDir
        split_ifs <;> rfl
      generalize putDir p j (s.modFd j fun fd => { fd with handleCount := fd.handleCount - 1 }) = t at *
      unfold putFdInode
      rw [hid]
      cases hjm : (s.fd j).inodeId with
      | none => exact hdir
      | some m' =>
        have hkeep : m ≠ m' ∨ 1 < (t.inode m).count := by
          rcases eq_or_ne m m' with rfl | hmm
          · exact Or.inr (by rw [hinode]; exact hother hj hjf hjm)
          · exact Or.inl hmm
        obtain ⟨-, hfds, hhandles⟩ := putInode_tables (p := p) (s := t) m'
        refine Designates.modFd ?_ hjf.symm _
        exact hdir.congr (by rw [hhandles]; exact hdir.use) (by rw [hhandles]) (by rw [hfds]; exact hdir.opened)
          (by rw [hfds]) (putInode_iObj hkeep)
    · exact hdec

theorem Designates.putOther (h : Designates p s i f m r) (hδ : ∀ f, 0 ≤ δ f) (hc : Counted p δ 0 s) {j : ℕ}
    (hj : j < p.nHandles) (hij : i ≠ j) : Designates p (putHandleAt p j s) i f m r := by
  unfold putHandleAt
  split_ifs with huse
  swap
  · exact h
  simp only
  have hdec := h.modHandle hij fun hd => { hd with useCount := hd.useCount - 1 }
  split_ifs
  swap
  · exact hdec
  have hfd : ((s.modHandle j fun hd => { hd with useCount := hd.useCount - 1 }).handle j).fdId = (s.handle j).fdId := by
    simp [Vfs.modHandle]
  rw [hfd]
  cases hjf : (s.handle j).fdId with
  | none => exact hdec.modHandle hij _
  | some f' =>
    refine Designates.modHandle (hdec.putFd (fun hff => ?_) fun hlt hff hid => ?_) hij _
    · -- Both handles refer to the descriptor.
      subst hff
      change 1 < (s.fd f').handleCount
      have htwo : 2 ≤ openHandles p s f' :=
        two_le_countP h.handle_lt hj hij (by simp [Handle.refers, h.use, h.fdId]) (by simp [Handle.refers, huse, hjf])
      have hcount := hc.handleCount f' h.fd_lt
      have hge := hδ f'
      omega
    · -- Both descriptors refer to the inode.
      change 1 < (s.inode m).count
      have hone : 0 < openHandles p s f' := by
        unfold openHandles
        exact List.countP_pos_iff.mpr ⟨j, List.mem_range.mpr hj, by simp [Handle.refers, huse, hjf]⟩
      have hcount := hc.handleCount f' hlt
      have hge := hδ f'
      have hopen : 0 < (s.fd f').handleCount := by omega
      have hid : (s.fd f').inodeId = some m := hid
      have htwo : 2 ≤ openFds p s m :=
        two_le_countP h.fd_lt hlt (Ne.symm hff) (by simp [FileDes.refers, h.opened, h.inodeId])
          (by simp [FileDes.refers, hopen, hid])
      have hcounted := hc.count m h.inode_lt
      simp only [Pi.zero_apply, add_zero] at hcounted
      omega

theorem putFileDes_handle (j : ℕ) : (putFileDes p j s).handle = s.handle := by
  unfold putFileDes
  split_ifs
  swap
  · rfl
  simp only
  split_ifs
  · unfold putFdInode putDir
    split <;> split_ifs <;> first | rfl | exact (putInode_tables _).2.2
  · rfl

theorem putHandleAt_handle (j : ℕ) : (putHandleAt p j s).handle =
    if 0 < (s.handle j).useCount then
      Function.update s.handle j
        { fdId := if (s.handle j).useCount - 1 < 1 then none else (s.handle j).fdId
          useCount := (s.handle j).useCount - 1 }
    else s.handle := by
  unfold putHandleAt
  by_cases huse : 0 < (s.handle j).useCount
  · rw [if_pos huse, if_pos huse]
    simp only [Vfs.modHandle, Function.update_self]
    by_cases hlast : (s.handle j).useCount - 1 < 1
    · rw [if_pos hlast, if_pos hlast]
      cases (s.handle j).fdId <;> simp [putFileDes_handle]
    · rw [if_neg hlast, if_neg hlast]
  · rw [if_neg huse, if_neg huse]

/-! ### Handles are taken and let go of -/

/-- What the open handles but for `j` lead to is as before, and so is how often they are used. -/
structure KeepsOthers (p : VfsParam) (j : Option ℕ) (s s' : Vfs) : Prop where
  designates : ∀ i f m r, j ≠ some i → Designates p s i f m r → Designates p s' i f m r
  use : ∀ i, j ≠ some i → (s'.handle i).useCount = (s.handle i).useCount

theorem KeepsOthers.refl (j : Option ℕ) (s : Vfs) : KeepsOthers p j s s :=
  ⟨fun _ _ _ _ _ h => h, fun _ _ => rfl⟩

theorem KeepsOthers.trans {s'' : Vfs} {j : Option ℕ} (h : KeepsOthers p j s s') (h' : KeepsOthers p j s' s'') :
    KeepsOthers p j s s'' :=
  ⟨fun i f m r hi hd => h'.designates i f m r hi (h.designates i f m r hi hd),
    fun i hi => (h'.use i hi).trans (h.use i hi)⟩

theorem SameTables.keepsOthers (h : SameTables s s') (j : Option ℕ) : KeepsOthers p j s s' :=
  ⟨fun _ _ _ _ _ hd => h.designates hd, fun i _ => by rw [h.handle]⟩

/-- A handle that stays closed leads to nothing. -/
theorem KeepsOthers.closed {j : ℕ} (h : KeepsOthers p (some j) s s') (hbefore : (s.handle j).useCount = 0)
    (hafter : (s'.handle j).useCount = 0) : KeepsOthers p none s s' := by
  refine ⟨fun i f m r _ hd => ?_, fun i _ => ?_⟩
  · refine h.designates i f m r (fun hij => ?_) hd
    have := hd.use
    rw [← Option.some.inj hij, hbefore] at this
    exact absurd this (lt_irrefl 0)
  · rcases eq_or_ne i j with rfl | hij
    · rw [hbefore, hafter]
    · exact h.use i fun hji => hij (Option.some.inj hji).symm

/-- The handle `yaffsfs_NewHandle` hands out. -/
def freeHandle (p : VfsParam) (s : Vfs) : Option ℕ :=
  (List.range p.nHandles).find? fun i => (s.handle i).useCount < 1

/-- The free handle `j` has been taken. -/
structure TakesHandle (p : VfsParam) (j : ℕ) (s s' : Vfs) : Prop where
  free : freeHandle p s = some j
  lt : j < p.nHandles
  before : (s.handle j).useCount = 0
  after : (s'.handle j).useCount = 1
  keeps : KeepsOthers p (some j) s s'

theorem newHandle_cases (hpos : ∀ i, 0 ≤ (s.handle i).useCount) : newHandle p s = (s, none) ∨
    ∃ j, newHandle p s = (s.modHandle j fun _ => { fdId := none, useCount := 1 }, some j) ∧
      TakesHandle p j s (s.modHandle j fun _ => { fdId := none, useCount := 1 }) := by
  unfold newHandle
  cases hj : (List.range p.nHandles).find? fun i => (s.handle i).useCount < 1 with
  | none => exact Or.inl rfl
  | some j =>
    have hclosed : (s.handle j).useCount < 1 := by simpa using List.find?_some hj
    have hzero := hpos j
    refine Or.inr ⟨j, rfl, hj, List.mem_range.mp (List.mem_of_find?_eq_some hj), by omega,
      by simp [Vfs.modHandle], fun i f m r hij hd => ?_, fun i hij => ?_⟩
    · exact hd.modHandle (fun h => hij (by rw [h])) _
    · have hij' : i ≠ j := fun h => hij (by rw [h])
      simp [Vfs.modHandle, hij']

theorem newHandleAndFileDes_cases (hpos : ∀ i, 0 ≤ (s.handle i).useCount) :
    (newHandleAndFileDes p s).2 = none ∧ KeepsOthers p none s (newHandleAndFileDes p s).1 ∨
    ∃ j f', (newHandleAndFileDes p s).2 = some (j, f') ∧ TakesHandle p j s (newHandleAndFileDes p s).1 ∧
      ∀ i f m r, Designates p s i f m r → f ≠ f' := by
  unfold newHandleAndFileDes
  rcases newHandle_cases (p := p) hpos with h | ⟨j, h, htakes⟩
  · rw [h]
    exact Or.inl ⟨rfl, KeepsOthers.refl _ s⟩
  · rw [h]
    simp only
    cases hf : (List.range p.nHandles).find? fun i =>
        ((s.modHandle j fun _ => { fdId := none, useCount := 1 }).fd i).handleCount < 1 with
    | none =>
      simp only
      refine Or.inl ⟨trivial, KeepsOthers.closed (htakes.keeps.trans ⟨fun i f m r hij hd => ?_, fun i hij => ?_⟩)
        htakes.before (by simp [Vfs.modHandle])⟩
      · exact hd.modHandle (fun h => hij (by rw [h])) _
      · have hij' : i ≠ j := fun h => hij (by rw [h])
        simp [Vfs.modHandle, hij']
    | some f' =>
      have hclosed : (s.fd f').handleCount < 1 := by
        have := List.find?_some hf
        exact of_decide_eq_true this
      have hne : ∀ i f m r, Designates p s i f m r → f ≠ f' := by
        rintro i f m r hd rfl
        have := hd.opened
        omega
      simp only
      refine Or.inr ⟨j, f', rfl, ⟨htakes.free, htakes.lt, htakes.before, by simp [Vfs.modHandle, Vfs.modFd],
        fun i f m r hij hd => ?_, fun i hij => ?_⟩, hne⟩
      · have hij' : i ≠ j := fun h => hij (by rw [h])
        exact ((hd.modHandle hij' _).modFd (hne i f m r hd) _).modHandle hij' _
      · have hij' : i ≠ j := fun h => hij (by rw [h])
        simp [Vfs.modHandle, Vfs.modFd, hij']

theorem opendir_sameTables (s : Vfs) : SameTables s (opendir p s).1 := by
  unfold opendir
  split <;> exact ⟨rfl, rfl, rfl⟩

theorem openCreate_sameTables (a : OpenArgs) (s : Vfs) : SameTables s (openCreate p a s).1 := by
  unfold openCreate
  split
  · exact SameTables.refl s
  · split_ifs
    · exact SameTables.refl s
    · simp only
      split <;> exact ⟨rfl, rfl, rfl⟩

/-- An inode that holds an object goes on to hold it. -/
theorem getInodeIdForObject_iObj (q : ObjRef) (h : (s.inode m).iObj = some r) :
    ((getInodeIdForObject p q s).1.inode m).iObj = some r := by
  unfold getInodeIdForObject
  simp only
  cases hi : (findInodeIdForObject p s q).or ((List.range p.nHandles).find? fun i => (s.inode i).iObj.isNone) with
  | none => exact h
  | some i =>
    simp only [Vfs.modInode]
    rcases eq_or_ne m i with rfl | hmi
    · rw [Function.update_self]
      rcases Option.or_eq_some_iff.mp hi with hfind | ⟨-, hfree⟩
      · have : (s.inode m).iObj = equivRef s q := by simpa using List.find?_some hfind
        rw [← h, this]
      · have := List.find?_some hfree
        rw [h] at this
        exact Bool.noConfusion this
    · rw [Function.update_of_ne hmi, h]

theorem openObj_keeps {a : OpenArgs} {f' : ℕ} {q : ObjRef} {isDir : Bool} {dsc : Option ℤ} :
    (openObj p a f' q isDir dsc s).handle = s.handle ∧
      (Designates p s i f m r → f ≠ f' → Designates p (openObj p a f' q isDir dsc s) i f m r) := by
  have htables : ∃ t : Vfs, t.handle = s.handle ∧ SameTables t (openObj p a f' q isDir dsc s) ∧
      (Designates p s i f m r → f ≠ f' → Designates p t i f m r) := by
    have hget : (getInodeIdForObject p q s).1.handle = s.handle ∧ (getInodeIdForObject p q s).1.fd = s.fd := by
      unfold getInodeIdForObject
      simp only
      split <;> exact ⟨rfl, rfl⟩
    refine ⟨(getInodeIdForObject p q s).1.modFd f' fun fd =>
      { fd with
        inodeId := (getInodeIdForObject p q s).2
        reading := a.readRequested isDir
        writing := a.writeRequested isDir
        append := a.oAppend
        shareRead := a.shareRead
        shareWrite := a.shareWrite
        isDir := isDir
        v := dsc.getD 0 }, hget.1, ?_, fun hd hf => ?_⟩
    · unfold openObj
      simp only
      split_ifs <;> split <;> exact ⟨rfl, rfl, rfl⟩
    · refine Designates.modFd (hd.congr ?_ ?_ ?_ ?_ ?_) hf _
      · rw [hget.1]
        exact hd.use
      · rw [hget.1]
      · rw [hget.2]
        exact hd.opened
      · rw [hget.2]
      · rw [getInodeIdForObject_iObj q hd.iObj, hd.iObj]
  obtain ⟨t, hhandle, hsame, hd⟩ := htables
  exact ⟨hsame.handle.trans hhandle, fun h hf => hsame.designates (hd h hf)⟩

theorem Counted.sameTables (h : Counted p δ ε s) (hs : SameTables s s') : Counted p δ ε s' := by
  refine ⟨fun f hf => ?_, fun i hi => ?_⟩
  · unfold openHandles
    rw [hs.fd, hs.handle]
    exact h.handleCount f hf
  · unfold openFds
    rw [hs.inode, hs.fd]
    exact h.count i hi

theorem putHandleAt_keeps (hδ : ∀ f, 0 ≤ δ f) (hc : Counted p δ 0 s) {j : ℕ} (hj : j < p.nHandles) :
    KeepsOthers p (some j) s (putHandleAt p j s) := by
  refine ⟨fun i f m r hij hd => hd.putOther hδ hc hj fun h => hij (by rw [h]), fun i hij => ?_⟩
  have hij' : i ≠ j := fun h => hij (by rw [h])
  rw [putHandleAt_handle]
  split
  · rw [Function.update_of_ne hij']
  · rfl

/-- The handle that was taken is put back. -/
theorem openFails_keeps (hδ : ∀ f, 0 ≤ δ f) {j : ℕ} {t : Vfs} (ht : TakesHandle p j s t) (hc : Counted p δ 0 t)
    (dsc : Option ℤ) : KeepsOthers p none s (openFails p j dsc t) := by
  obtain ⟨u, hu, hfails⟩ : ∃ u, SameTables t u ∧ openFails p j dsc t = putHandleAt p j u := by
    cases dsc
    · exact ⟨t, SameTables.refl t, rfl⟩
    · exact ⟨_, SameTables.closedir t _, rfl⟩
  rw [hfails]
  have hput := putHandleAt_keeps hδ (hc.sameTables hu) ht.lt
  refine KeepsOthers.closed ((ht.keeps.trans (hu.keepsOthers _)).trans hput) ht.before ?_
  rw [putHandleAt_handle, hu.handle, ht.after]
  simp

/-- Opening an object takes a handle or leaves the handles as they are. -/
theorem openSharing_takes (hδ : ∀ f, 0 ≤ δ f) (h : VfsInv p δ 0 s) (hpos : ∀ i, 0 ≤ (s.handle i).useCount)
    (a : OpenArgs) : (openSharing p a s).2 = -1 ∧ KeepsOthers p none s (openSharing p a s).1 ∨
      ∃ j : ℕ, (openSharing p a s).2 = j ∧ TakesHandle p j s (openSharing p a s).1 := by
  unfold openSharing
  split_ifs
  · exact Or.inl ⟨rfl, KeepsOthers.refl _ s⟩
  obtain ⟨hinv, -⟩ := newHandleAndFileDes_spec hδ h
  rcases newHandleAndFileDes_cases (p := p) hpos with ⟨hnone, hkeeps⟩ | ⟨j, f', hsome, htakes, hne⟩
  · simp only
    rw [hnone]
    exact Or.inl ⟨rfl, hkeeps⟩
  · simp only
    rw [hsome]
    simp only
    generalize (newHandleAndFileDes p s).1 = t at *
    -- The object is opened at the new descriptor in the state `u`.
    have hopen : ∀ (u : Vfs) (q : ObjRef) (isDir : Bool) (dsc : Option ℤ), SameTables t u →
        TakesHandle p j s (openObj p a f' q isDir dsc u) := by
      intro u q isDir dsc hu
      have hhandle : (openObj p a f' q isDir dsc u).handle = t.handle :=
        (openObj_keeps (i := 0) (f := 0) (m := 0) (r := q)).1.trans hu.handle
      refine ⟨htakes.free, htakes.lt, htakes.before, by rw [hhandle]; exact htakes.after,
        fun i f m r hij hd => ?_, fun i hij => ?_⟩
      · exact openObj_keeps.2 (hu.designates (htakes.keeps.designates i f m r hij hd)) (hne i f m r hd)
      · rw [hhandle]
        exact htakes.keeps.use i hij
    have hfail : ∀ (u : Vfs) (dsc : Option ℤ), SameTables t u → KeepsOthers p none s (openFails p j dsc u) := by
      intro u dsc hu
      have htakes' : TakesHandle p j s u := ⟨htakes.free, htakes.lt, htakes.before, by rw [hu.handle]; exact htakes.after,
        htakes.keeps.trans (hu.keepsOthers _)⟩
      exact openFails_keeps hδ htakes' (hinv.toCounted.sameTables hu) dsc
    cases a.found t with
    | some q =>
      have hdir : ∀ isDir : Bool, ∃ u dsc, (if isDir then opendir p t else (t, none)) = (u, dsc) ∧
          SameTables t u := fun isDir => by
        cases isDir
        · exact ⟨t, none, rfl, SameTables.refl t⟩
        · exact ⟨_, _, rfl, opendir_sameTables t⟩
      obtain ⟨u, dsc, hu, hsame⟩ := hdir (decide ((t.obj q).variantType = .directory))
      simp only
      rw [hu]
      simp only
      split_ifs
      · exact Or.inl ⟨rfl, hfail u dsc hsame⟩
      · exact Or.inr ⟨j, rfl, hopen u q _ dsc hsame⟩
    | none =>
      simp only
      have hcreate := openCreate_sameTables (p := p) a t
      cases (openCreate p a t).2 with
      | some q => exact Or.inr ⟨j, rfl, hopen _ q false none hcreate⟩
      | none => exact Or.inl ⟨rfl, hfail _ none hcreate⟩

theorem dup_takes (hpos : ∀ i, 0 ≤ (s.handle i).useCount) (h : ℤ) :
    (dup p h s).2 = -1 ∧ KeepsOthers p none s (dup p h s).1 ∨ ∃ j : ℕ, (dup p h s).2 = j ∧ TakesHandle p j s (dup p h s).1 := by
  unfold dup
  cases hf : handleToFileDes p s h with
  | none => exact Or.inl ⟨rfl, KeepsOthers.refl _ s⟩
  | some f' =>
    simp only
    rcases newHandle_cases (p := p) hpos with hnew | ⟨j, hnew, htakes⟩
    · rw [hnew]
      exact Or.inl ⟨rfl, KeepsOthers.refl _ s⟩
    · rw [hnew]
      simp only
      refine Or.inr ⟨j, rfl, htakes.free, htakes.lt, htakes.before, by simp [Vfs.modHandle, Vfs.modFd],
        fun i f m r hij hd => ?_, fun i hij => ?_⟩
      · have hij' : i ≠ j := fun h => hij (by rw [h])
        have hmod := (hd.modHandle hij' fun _ => { fdId := none, useCount := 1 }).modHandle hij'
          fun hd => { hd with fdId := some f' }
        rcases eq_or_ne f f' with rfl | hff
        · -- One more handle refers to the descriptor.
          refine hmod.congr hmod.use rfl ?_ ?_ rfl
          · have := hd.opened
            simp only [Vfs.modFd, Vfs.modHandle, Function.update_self]
            omega
          · simp [Vfs.modFd]
        · exact hmod.modFd hff _
      · have hij' : i ≠ j := fun h => hij (by rw [h])
        simp [Vfs.modHandle, Vfs.modFd, hij']

end Frame

/-! ## Every run -/

section Runs

variable {p : VfsParam} {σ : Session}

/-- Whose the references are, and what running transfers lead to : the object they started with, or
nothing, if all references to their handle have gone. -/
structure SessionInv (p : VfsParam) (σ : Session) : Prop where
  tables : TablesInv p σ.vfs
  useCount : ∀ i, (σ.vfs.handle i).useCount = (σ.owners i).length
  lt : ∀ i, σ.owners i ≠ [] → i < p.nHandles
  nodup : ∀ i, (σ.owners i).Nodup
  owner : ∀ i k, some k ∈ σ.owners i → ∃ τ, σ.running k = some τ ∧ τ.handle = i
  runs : ∀ k τ, σ.running k = some τ → τ.fd < p.nHandles ∧ ∃ i : ℕ, i < p.nHandles ∧ τ.handle = i ∧
    (σ.owners i = [] ∨ some k ∈ σ.owners i ∧ ∃ f m, Designates p σ.vfs i f m τ.obj)
  accesses : ∀ q ∈ σ.accesses, q.2 = q.1
  releases : ∀ q ∈ σ.releases, q.2 = some q.1

/-- The handle an open or a duplication hands out is not named by a running transfer, and a close takes
the reference of the open or the duplication, or the last one. -/
def Act.careful (p : VfsParam) (σ : Session) : Act → Prop
  | .call (.openSharing _) => ∀ k τ i, σ.running k = some τ → freeHandle p σ.vfs = some i → τ.handle ≠ i
  | .call (.dup _) => ∀ k τ i, σ.running k = some τ → freeHandle p σ.vfs = some i → τ.handle ≠ i
  | .call (.close h) => (handleToObject p σ.vfs h).isSome → none ∈ σ.owners h.toNat ∨ (σ.owners h.toNat).length ≤ 1
  | _ => True

/-- The tables and the devices when the first call is made. -/
def Session.init (dev : ℕ → Dev) : Session :=
  ⟨initHandles dev, fun _ => none, fun _ => [], [], []⟩

/-- The states that actions of any number of callers reach, in any order; `ok` is asked of every action. -/
inductive SessionRun (p : VfsParam) (ok : Session → Act → Prop) : Session → Prop
  | start (dev : ℕ → Dev) (hd : ∀ i, Tied [] (dev i)) : SessionRun p ok (Session.init dev)
  | act {σ : Session} (a : Act) (hp : a.possible p σ) (hc : ok σ a) (h : SessionRun p ok σ) :
      SessionRun p ok (σ.act p a)

/-! ### Actions that take or drop no reference -/

/-- The tables change in nothing a handle leads to. -/
theorem SessionInv.tables_change {s' : Vfs} (h : SessionInv p σ) (htables : TablesInv p s')
    (hk : KeepsOthers p none σ.vfs s') : SessionInv p { σ with vfs := s' } :=
  { h with
    tables := htables
    useCount := fun i => (hk.use i (by simp)).trans (h.useCount i)
    runs := fun k τ hτ => by
      obtain ⟨hfd, i, hi, hih, hopen⟩ := h.runs k τ hτ
      exact ⟨hfd, i, hi, hih, hopen.imp id fun ⟨hmem, f, m, hd⟩ => ⟨hmem, f, m, hk.designates i f m _ (by simp) hd⟩⟩ }

theorem TablesInv.evolving {s : Vfs} (h : TablesInv p s) (j : ℕ) {g : Dev → Dev} (hg : Evolving [] g) :
    TablesInv p (s.onDev j g) := by
  obtain ⟨δ, hδ, hinv⟩ := h
  exact ⟨δ, hδ, (hinv.evolving j hg).1⟩

theorem Session.act_mount {dev : ℕ} {d : Dev} (h : SessionInv p σ) (hd : Tied [] d)
    (hfree : ∀ i < p.nHandles, ∀ r, (σ.vfs.inode i).iObj = some r → r.dev ≠ dev) :
    SessionInv p { σ with vfs := σ.vfs.mount dev d } := by
  obtain ⟨δ, hδ, hinv⟩ := h.tables
  have hsame : SameTables σ.vfs (σ.vfs.mount dev d) := ⟨rfl, rfl, rfl⟩
  exact h.tables_change ⟨δ, hδ, hinv.mount hfree hd⟩ (hsame.keepsOthers _)

/-! ### Forced unmount -/

theorem SessionInv.breakDeviceHandles (h : SessionInv p σ) (dev : ℕ) : SessionInv p (σ.breakDeviceHandles p dev) := by
  have htables := h.tables.breakDeviceHandles dev
  obtain ⟨δ, -, hinv⟩ := h.tables
  have hspec := breakDeviceHandles_broken hinv dev
  exact
    { tables := htables
      useCount := fun i => by
        change ((Yaffs.breakDeviceHandles p dev σ.vfs).handle i).useCount = 0
        rw [hspec.handle]
        split_ifs with huse
        · rfl
        · have hcount := h.useCount i
          have hlt := h.lt i
          rcases List.eq_nil_or_concat (σ.owners i) with hnil | ⟨l, w, hl⟩
          · rw [hcount, hnil]
            rfl
          · rw [hl] at hcount hlt
            refine absurd ⟨hlt (by simp), ?_⟩ huse
            rw [hcount, List.length_concat]
            omega
      lt := fun i hi => absurd rfl hi
      nodup := fun _ => List.nodup_nil
      owner := fun i k hk => absurd hk List.not_mem_nil
      runs := fun k τ hτ => by
        obtain ⟨hfd, i, hi, hih, -⟩ := h.runs k τ hτ
        exact ⟨hfd, i, hi, hih, Or.inl rfl⟩
      accesses := h.accesses
      releases := h.releases }

/-! ### References are taken and dropped -/

/-- The references to the handle `j` change, and so may the transfers that run on it. -/
theorem SessionInv.owners_change {σ' : Session} {j : ℕ} (h : SessionInv p σ) (htables : TablesInv p σ'.vfs)
    (hkeep : KeepsOthers p (some j) σ.vfs σ'.vfs) (hj : j < p.nHandles)
    (hother : ∀ i, i ≠ j → σ'.owners i = σ.owners i)
    (huse : (σ'.vfs.handle j).useCount = (σ'.owners j).length) (hnodup : (σ'.owners j).Nodup)
    (hsame : ∀ i k, i ≠ j → some k ∈ σ.owners i → σ'.running k = σ.running k)
    (howner : ∀ k, some k ∈ σ'.owners j → ∃ τ, σ'.running k = some τ ∧ τ.handle = j)
    (hruns : ∀ k τ, σ'.running k = some τ → σ.running k = some τ ∧ τ.handle ≠ j ∨ τ.fd < p.nHandles ∧
      τ.handle = j ∧ (σ'.owners j = [] ∨ some k ∈ σ'.owners j ∧ ∃ f m, Designates p σ'.vfs j f m τ.obj))
    (haccesses : σ'.accesses = σ.accesses) (hreleases : ∀ q ∈ σ'.releases, q.2 = some q.1) : SessionInv p σ' where
  tables := htables
  useCount i := by
    rcases eq_or_ne i j with rfl | hij
    · exact huse
    · rw [hother i hij, hkeep.use i (by simpa using hij.symm), h.useCount i]
  lt i hi := by
    rcases eq_or_ne i j with rfl | hij
    · exact hj
    · rw [hother i hij] at hi
      exact h.lt i hi
  nodup i := by
    rcases eq_or_ne i j with rfl | hij
    · exact hnodup
    · rw [hother i hij]
      exact h.nodup i
  owner i k hk := by
    rcases eq_or_ne i j with rfl | hij
    · exact howner k hk
    · rw [hother i hij] at hk
      rw [hsame i k hij hk]
      exact h.owner i k hk
  runs k τ hτ := by
    rcases hruns k τ hτ with ⟨hrun, hne⟩ | ⟨hfd, hhandle, hopen⟩
    · obtain ⟨hfd, i, hi, hih, hopen⟩ := h.runs k τ hrun
      have hij : i ≠ j := by
        rintro rfl
        exact hne hih
      rw [← hother i hij] at hopen
      exact ⟨hfd, i, hi, hih, hopen.imp id fun ⟨hmem, f, m, hd⟩ =>
        ⟨hmem, f, m, hkeep.designates i f m _ (by simpa using hij.symm) hd⟩⟩
    · exact ⟨hfd, j, hj, hhandle, hopen⟩
  accesses := by rw [haccesses]; exact h.accesses
  releases := hreleases

theorem SessionInv.takes {s' : Vfs} {j : ℕ} (h : SessionInv p σ) (htables : TablesInv p s')
    (ht : TakesHandle p j σ.vfs s') (hfree : ∀ k τ, σ.running k = some τ → τ.handle ≠ j) :
    SessionInv p { σ with vfs := s', owners := Function.update σ.owners j [none] } :=
  h.owners_change htables ht.keeps ht.lt (fun i hij => Function.update_of_ne hij _ _)
    (by simpa using ht.after) (by simp) (fun _ _ _ _ => rfl) (fun k hk => by simp at hk)
    (fun k τ hτ => Or.inl ⟨hτ, hfree k τ hτ⟩) rfl h.releases

/-- A handle that is used more than once leads on to its object when it is put. -/
theorem Designates.putSelf {s : Vfs} {i f m : ℕ} {r : ObjRef} (h : Designates p s i f m r)
    (huse : 1 < (s.handle i).useCount) : Designates p (putHandleAt p i s) i f m r := by
  unfold putHandleAt
  rw [if_pos h.use]
  simp only [Vfs.modHandle, Function.update_self]
  rw [if_neg (by omega)]
  refine h.congr ?_ ?_ h.opened rfl rfl
  · simp only [Function.update_self]
    omega
  · simp

/-- The references that are left after one has gone. -/
theorem mem_dropOwner {w w' : Option ℕ} {l : List (Option ℕ)} (hl : w ∈ l ∨ l.length ≤ 1) (hw : w' ∈ l) (hne : w' ≠ w) :
    dropOwner w l = [] ∨ w' ∈ dropOwner w l ∧ 1 < l.length := by
  unfold dropOwner
  split_ifs with hmem
  · refine Or.inr ⟨(List.mem_erase_of_ne hne).mpr hw, ?_⟩
    have hsub : [w, w'] ⊆ l := by
      intro x hx
      simp only [List.mem_cons, List.not_mem_nil, or_false] at hx
      rcases hx with rfl | rfl
      · exact hmem
      · exact hw
    exact (List.subperm_of_subset (by simp [hne.symm]) hsub).length_le
  · left
    have hlen := hl.resolve_left hmem
    match l with
    | [] => rfl
    | [x] => rfl
    | x :: y :: l => simp at hlen

theorem length_dropOwner (w : Option ℕ) (l : List (Option ℕ)) : (dropOwner w l).length = l.length - 1 := by
  unfold dropOwner
  split_ifs with hmem
  · exact List.length_erase_of_mem hmem
  · exact List.length_tail

theorem dropOwner_sublist (w : Option ℕ) (l : List (Option ℕ)) : (dropOwner w l).Sublist l := by
  unfold dropOwner
  split_ifs
  · exact List.erase_sublist
  · exact List.tail_sublist l

theorem notMem_dropOwner {w : Option ℕ} {l : List (Option ℕ)} (hl : l.Nodup) : w ∉ dropOwner w l := by
  unfold dropOwner
  split_ifs with hmem
  · exact fun hw => (List.Nodup.mem_erase_iff hl).mp hw |>.1 rfl
  · exact fun hw => hmem (List.mem_of_mem_tail hw)

/-- The handle `i` is put on behalf of `w`, whose reference is there or is the last one. -/
theorem SessionInv.drops {σ' : Session} {i : ℕ} {w : Option ℕ} (h : SessionInv p σ) (htables : TablesInv p σ'.vfs)
    (hkeep : KeepsOthers p (some i) σ.vfs σ'.vfs) (hne : σ.owners i ≠ [])
    (huse : (σ'.vfs.handle i).useCount = (σ.vfs.handle i).useCount - 1)
    (hself : ∀ f m r, 1 < (σ.vfs.handle i).useCount → Designates p σ.vfs i f m r → Designates p σ'.vfs i f m r)
    (howners : σ'.owners = Function.update σ.owners i (dropOwner w (σ.owners i)))
    (hw : w ∈ σ.owners i ∨ (σ.owners i).length ≤ 1)
    (hwh : ∀ k, w = some k → ∃ τ, σ.running k = some τ ∧ τ.handle = i)
    (hsame : ∀ k, some k ≠ w → σ'.running k = σ.running k) (hgone : ∀ k, w = some k → σ'.running k = none)
    (haccesses : σ'.accesses = σ.accesses) (hreleases : ∀ q ∈ σ'.releases, q.2 = some q.1) : SessionInv p σ' := by
  have hl : σ'.owners i = dropOwner w (σ.owners i) := by rw [howners, Function.update_self]
  have hcount := h.useCount i
  refine h.owners_change htables hkeep (h.lt i hne) (fun j hj => by rw [howners, Function.update_of_ne hj]) ?_ ?_
    (fun j k hj hk => ?_) (fun k hk => ?_) (fun k τ hτ => ?_) haccesses hreleases
  · rw [hl, length_dropOwner, huse, hcount]
    have := List.length_pos_of_ne_nil hne
    omega
  · rw [hl]
    exact (h.nodup i).sublist (dropOwner_sublist _ _)
  · refine hsame k fun hkw => hj ?_
    obtain ⟨τ, hτ, hτi⟩ := hwh k hkw.symm
    obtain ⟨τ', hτ', hτj⟩ := h.owner j k hk
    obtain rfl : τ = τ' := Option.some.inj (hτ.symm.trans hτ')
    exact Int.ofNat.inj (hτj.symm.trans hτi)
  · rw [hl] at hk
    rw [hsame k fun hkw => notMem_dropOwner (h.nodup i) (hkw ▸ hk)]
    exact h.owner i k ((dropOwner_sublist _ _).subset hk)
  · have hkw : some k ≠ w := fun hkw => by
      rw [hgone k hkw.symm] at hτ
      exact absurd hτ (by simp)
    rw [hsame k hkw] at hτ
    rcases eq_or_ne τ.handle i with hτi | hτi
    · obtain ⟨hfd, j, -, hj, hopen⟩ := h.runs k τ hτ
      obtain rfl : i = j := Int.ofNat.inj (hτi.symm.trans hj)
      obtain ⟨hmem, f, m, hd⟩ := hopen.resolve_left hne
      refine Or.inr ⟨hfd, hτi, ?_⟩
      rw [hl]
      refine (mem_dropOwner hw hmem hkw).imp id fun ⟨hmem', hlen⟩ => ⟨hmem', f, m, hself f m _ ?_ hd⟩
      omega
    · exact Or.inl ⟨hτ, hτi⟩

/-! ### The steps of a call -/

theorem handleToObject_none {s : Vfs} {i : ℕ} (h : (s.handle i).useCount = 0) : handleToObject p s i = none := by
  by_contra hne
  obtain ⟨r, hr⟩ := Option.ne_none_iff_exists'.mp hne
  obtain ⟨k, -, hik, huse⟩ := handleToObject_open hr
  obtain rfl : i = k := Int.ofNat.inj hik
  omega

theorem putHandle_coe {s : Vfs} {i : ℕ} (hi : i < p.nHandles) : putHandle p i s = putHandleAt p i s := by
  unfold putHandle
  rw [handleToPointer_coe hi]

/-- The position of a descriptor is set. -/
theorem Designates.setPosition {s : Vfs} {i f m : ℕ} {r : ObjRef} (h : Designates p s i f m r) (j : ℕ) (v : ℤ) :
    Designates p (s.modFd j fun fd => { fd with v := v }) i f m r := by
  rcases eq_or_ne f j with rfl | hfj
  · refine h.congr h.use rfl ?_ ?_ rfl
    · simp only [Vfs.modFd, Function.update_self]
      exact h.opened
    · simp [Vfs.modFd]
  · exact h.modFd hfj _

/-- The end of a call puts its handle and changes nothing else a handle leads to. -/
theorem endTransfer_spec {s : Vfs} (h : TablesInv p s) {τ : Transfer} {i : ℕ} (hi : i < p.nHandles) (hτ : τ.handle = i)
    (hfd : τ.fd < p.nHandles) : TablesInv p (endTransfer p τ s) ∧
      (endTransfer p τ s).handle = (putHandleAt p i s).handle ∧
      ∀ i' f m r, Designates p (putHandleAt p i s) i' f m r → Designates p (endTransfer p τ s) i' f m r := by
  obtain ⟨δ, hδ, hinv⟩ := h
  have hput := (putHandleAt_spec hi hδ hinv).1
  unfold endTransfer
  simp only
  rw [hτ, putHandle_coe hi]
  split_ifs
  · exact ⟨⟨δ, hδ, (hput.modFd hfd rfl fun _ => rfl).1⟩, rfl, fun i' f m r hd => hd.setPosition _ _⟩
  · exact ⟨⟨δ, hδ, hput⟩, rfl, fun _ _ _ _ hd => hd⟩

theorem SessionInv.finish {k : ℕ} {τ : Transfer} (h : SessionInv p σ) (hτ : σ.running k = some τ) :
    SessionInv p (σ.finish p k τ) := by
  obtain ⟨hfd, i, hi, hih, hopen⟩ := h.runs k τ hτ
  obtain ⟨htables, hhandle, hleads⟩ := endTransfer_spec h.tables hi hih hfd
  obtain ⟨δ, hδ, hinv⟩ := h.tables
  have hcount := h.useCount i
  have hkeep : KeepsOthers p (some i) σ.vfs (endTransfer p τ σ.vfs) := by
    have hput := putHandleAt_keeps hδ hinv.toCounted hi
    exact ⟨fun i' f m r hii hd => hleads i' f m r (hput.designates i' f m r hii hd),
      fun i' hii => by rw [hhandle]; exact hput.use i' hii⟩
  have hnat : τ.handle.toNat = i := by omega
  have howners : (σ.finish p k τ).owners = Function.update σ.owners i (dropOwner (some k) (σ.owners i)) := by
    unfold Session.finish
    rw [hnat]
  have hreleases : (σ.finish p k τ).releases = σ.releases ++ ((dropped (some k) (σ.owners i)).map (Prod.mk k)).toList := by
    unfold Session.finish
    rw [hnat]
  have hgone : (σ.finish p k τ).running k = none := Function.update_self ..
  have hrest : ∀ q, q ≠ k → (σ.finish p k τ).running q = σ.running q := fun q hq => Function.update_of_ne hq _ _
  rcases hopen with hnil | ⟨hmem, f, m, hd⟩
  · -- All references have gone, and there is nothing to put.
    have hl : (σ.finish p k τ).owners i = [] := by
      rw [howners, Function.update_self, hnil]
      rfl
    refine h.owners_change htables hkeep hi (fun j hj => by rw [howners, Function.update_of_ne hj]) ?_ ?_
      (fun j q hj hq => hrest q ?_) (fun q hq => ?_) (fun q τ' hτ' => ?_) rfl fun q hq => ?_
    · have hzero : (σ.vfs.handle i).useCount = 0 := by
        rw [hcount, hnil]
        rfl
      change ((endTransfer p τ σ.vfs).handle i).useCount = _
      rw [hhandle, putHandleAt_handle, if_neg (by omega), hzero, hl]
      rfl
    · rw [hl]
      exact List.nodup_nil
    · rintro rfl
      obtain ⟨τ', hτ', hτj⟩ := h.owner j q hq
      obtain rfl : τ = τ' := Option.some.inj (hτ.symm.trans hτ')
      exact hj (Int.ofNat.inj (hτj.symm.trans hih))
    · rw [hl] at hq
      exact absurd hq List.not_mem_nil
    · have hqk : q ≠ k := by
        rintro rfl
        rw [hgone] at hτ'
        exact absurd hτ' (by simp)
      rw [hrest q hqk] at hτ'
      rcases eq_or_ne τ'.handle i with hτi | hτi
      · exact Or.inr ⟨(h.runs q τ' hτ').1, hτi, Or.inl hl⟩
      · exact Or.inl ⟨hτ', hτi⟩
    · rw [hreleases, hnil] at hq
      exact h.releases q (by simpa [dropped] using hq)
  · have huse := hd.use
    have hput : ((putHandleAt p i σ.vfs).handle i).useCount = (σ.vfs.handle i).useCount - 1 := by
      rw [putHandleAt_handle, if_pos huse, Function.update_self]
    refine h.drops htables hkeep (List.ne_nil_of_mem hmem) ?_ (fun f m r hmore hd => hleads i f m r (hd.putSelf hmore))
      howners (Or.inl hmem) (fun q hq => ?_) (fun q hq => hrest q fun hqk => hq (by rw [hqk]))
      (fun q hq => by rw [← Option.some.inj hq]; exact hgone) rfl fun q hq => ?_
    · change ((endTransfer p τ σ.vfs).handle i).useCount = _
      rw [hhandle, hput]
    · obtain rfl : k = q := Option.some.inj hq
      exact ⟨τ, hτ, hih⟩
    · rw [hreleases] at hq
      simp only [dropped, if_pos hmem, Option.map_some, Option.toList_some, List.mem_append, List.mem_singleton] at hq
      rcases hq with hq | rfl
      · exact h.releases q hq
      · rfl

/-- A segment changes the devices only, and the call goes on with the handle it has. -/
theorem segment_spec (τ : Transfer) {s : Vfs} (h : TablesInv p s) : TablesInv p (segment p τ s).1 ∧
    SameTables s (segment p τ s).1 ∧ (segment p τ s).2.handle = τ.handle ∧ (segment p τ s).2.fd = τ.fd ∧
    (segment p τ s).2.obj = τ.obj := by
  unfold segment
  cases τ.io with
  | read n =>
    simp only
    cases handleToObject p s τ.handle with
    | none => exact ⟨h, SameTables.refl s, rfl, rfl, rfl⟩
    | some r => exact ⟨h.evolving r.dev (fileRd_evolving r.obj _ _), ⟨rfl, rfl, rfl⟩, rfl, rfl, rfl⟩
  | write buf =>
    simp only
    cases handleToObject p s τ.handle with
    | none => exact ⟨h, SameTables.refl s, rfl, rfl, rfl⟩
    | some r =>
      simp only
      split_ifs
      · exact ⟨h, SameTables.refl s, rfl, rfl, rfl⟩
      · refine ⟨?_, ⟨rfl, rfl, rfl⟩, rfl, rfl, rfl⟩
        exact h.evolving (g := fun d => (wrFile (p.geometry r.dev) (p.env r.dev) r.obj _ τ.pos false d).1) r.dev
          (wrFile_evolving r.obj _ τ.pos false)

/-- The object a segment accesses is the one the call started with. -/
theorem SessionInv.accessed {k : ℕ} {τ : Transfer} {r : ObjRef} (h : SessionInv p σ) (hτ : σ.running k = some τ)
    (hr : handleToObject p σ.vfs τ.handle = some r) : r = τ.obj := by
  obtain ⟨-, i, hi, hih, hopen⟩ := h.runs k τ hτ
  rw [hih] at hr
  rcases hopen with hnil | ⟨-, f, m, hd⟩
  · have hzero : (σ.vfs.handle i).useCount = 0 := by
      rw [h.useCount, hnil]
      rfl
    rw [handleToObject_none hzero] at hr
    exact absurd hr (by simp)
  · exact Option.some.inj (hr.symm.trans hd.handleToObject)

theorem SessionInv.advance {k : ℕ} {τ : Transfer} (h : SessionInv p σ) (hτ : σ.running k = some τ) :
    SessionInv p (σ.advance p k τ) := by
  unfold Session.advance
  split_ifs with hend
  · exact h.finish hτ
  obtain ⟨htables, hsame, hhandle, hfd, hobj⟩ := segment_spec τ h.tables
  simp only
  generalize segment p τ σ.vfs = q at *
  -- The state after the segment, with the transfer as it has become.
  have hnext : SessionInv p
      { σ with
        vfs := q.1
        running := Function.update σ.running k (some q.2)
        accesses := σ.accesses ++ ((handleToObject p σ.vfs τ.handle).map (Prod.mk τ.obj)).toList } := by
    have hchange := h.tables_change htables (hsame.keepsOthers none)
    refine { hchange with
      owner := fun i k' hk' => ?_
      runs := fun k' τ' hτ' => ?_
      accesses := fun a ha => ?_ }
    · obtain ⟨τ', hτ', hτi⟩ := h.owner i k' hk'
      rcases eq_or_ne k' k with rfl | hk
      · obtain rfl : τ = τ' := Option.some.inj (hτ.symm.trans hτ')
        exact ⟨q.2, Function.update_self .., hhandle.trans hτi⟩
      · exact ⟨τ', (Function.update_of_ne hk _ _).trans hτ', hτi⟩
    · have hτ' : Function.update σ.running k (some q.2) k' = some τ' := hτ'
      rcases eq_or_ne k' k with rfl | hk
      · rw [Function.update_self] at hτ'
        rw [← Option.some.inj hτ', hhandle, hfd, hobj]
        exact hchange.runs k' τ hτ
      · rw [Function.update_of_ne hk] at hτ'
        exact hchange.runs k' τ' hτ'
    · rcases List.mem_append.mp ha with ha | ha
      · exact h.accesses a ha
      · obtain ⟨r, hr, rfl⟩ := Option.map_eq_some_iff.mp (Option.mem_toList.mp ha)
        exact h.accessed hτ hr
  split_ifs
  · have hfinish := hnext.finish (Function.update_self ..)
    unfold Session.finish at hfinish ⊢
    simpa only [Function.update_idem] using hfinish
  · exact hnext

/-! ### The start of a call -/

theorem Session.advance_running (k : ℕ) (τ : Transfer) (t : Option Transfer) (σ : Session) :
    Session.advance p k τ { σ with running := Function.update σ.running k t } = σ.advance p k τ := by
  unfold Session.advance Session.finish
  simp only
  split_ifs <;> simp only [Function.update_idem]

/-- The transfer that starts is one of the handle and its object. -/
structure Begins (p : VfsParam) (s : Vfs) (τ : Transfer) : Prop where
  fd : τ.fd < p.nHandles
  designates : ∃ i f m : ℕ, τ.handle = i ∧ Designates p s i f m τ.obj

theorem begins_of {s : Vfs} {h : ℤ} {f : ℕ} {r : ObjRef} (hf : handleToFileDes p s h = some f)
    (hr : handleToObject p s h = some r) {τ : Transfer} (hh : τ.handle = h) (hfd : τ.fd = f) (hobj : τ.obj = r) :
    Begins p s τ := by
  obtain ⟨i, f', m, hi, -, hd⟩ := designates_of_handleToObject hr
  exact ⟨hfd ▸ (handleToFileDes_spec hf).1, i, f', m, hh.trans hi, hobj ▸ hd⟩

theorem beginRead_begins {s : Vfs} {h : ℤ} {nbyte : ℕ} {isPread : Bool} {offset : ℤ} {τ : Transfer}
    (hτ : beginRead p h nbyte isPread offset s = some τ) : Begins p s τ := by
  unfold beginRead at hτ
  split at hτ
  · rename_i f r hf hr
    split_ifs at hτ <;> obtain rfl := Option.some.inj hτ <;> exact begins_of hf hr rfl rfl rfl
  · exact absurd hτ (by simp)

theorem beginWrite_begins {s : Vfs} {h : ℤ} {buf : List UInt8} {isPwrite : Bool} {offset : ℤ} {τ : Transfer}
    (hτ : beginWrite p h buf isPwrite offset s = some τ) : Begins p s τ := by
  unfold beginWrite at hτ
  split at hτ
  · rename_i f r hf hr
    split_ifs at hτ <;> obtain rfl := Option.some.inj hτ <;> exact begins_of hf hr rfl rfl rfl
  · exact absurd hτ (by simp)

/-- Caller `k` takes a reference to the handle `i` and runs the transfer. -/
theorem SessionInv.joins {σ' : Session} {k i f m : ℕ} {τ : Transfer} (h : SessionInv p σ) (hk : σ.running k = none)
    (hfd : τ.fd < p.nHandles) (hτi : τ.handle = i) (hd : Designates p σ.vfs i f m τ.obj)
    (hvfs : σ'.vfs = σ.vfs.modHandle i fun hd => { hd with useCount := hd.useCount + 1 })
    (hrun : σ'.running = Function.update σ.running k (some τ))
    (howners : σ'.owners = Function.update σ.owners i (some k :: σ.owners i))
    (haccesses : σ'.accesses = σ.accesses) (hreleases : σ'.releases = σ.releases) : SessionInv p σ' := by
  have htables : TablesInv p σ'.vfs := by
    obtain ⟨δ, hδ, hinv⟩ := h.tables
    have hget := (getHandle_spec hinv (i : ℤ)).1
    unfold getHandle at hget
    rw [handleToPointer_coe hd.handle_lt] at hget
    simp only [if_pos hd.use] at hget
    rw [hvfs]
    exact ⟨δ, hδ, hget⟩
  have hself : ∀ f m r, Designates p σ.vfs i f m r → Designates p σ'.vfs i f m r := by
    intro f m r hd
    have := hd.use
    rw [hvfs]
    refine hd.congr ?_ ?_ hd.opened rfl rfl
    · simp only [Vfs.modHandle, Function.update_self]
      omega
    · simp [Vfs.modHandle]
  have hne : σ.owners i ≠ [] := fun hnil => by
    have hcount := h.useCount i
    have := hd.use
    rw [hcount, hnil] at this
    exact absurd this (lt_irrefl 0)
  have hl : σ'.owners i = some k :: σ.owners i := by rw [howners, Function.update_self]
  have hkself : σ'.running k = some τ := by rw [hrun, Function.update_self]
  have hrest : ∀ q, q ≠ k → σ'.running q = σ.running q := fun q hq => by rw [hrun, Function.update_of_ne hq]
  have hrunning : ∀ j q, some q ∈ σ.owners j → q ≠ k := by
    rintro j q hq rfl
    obtain ⟨τ', hτ', -⟩ := h.owner j q hq
    rw [hk] at hτ'
    exact absurd hτ' (by simp)
  refine h.owners_change (j := i) htables ⟨fun j f m r hj hd => ?_, fun j hj => ?_⟩ hd.handle_lt
    (fun j hj => by rw [howners, Function.update_of_ne hj]) ?_ ?_ (fun j q _ hq => hrest q (hrunning j q hq))
    (fun q hq => ?_) (fun q τ' hτ' => ?_) haccesses (by rw [hreleases]; exact h.releases)
  · rw [hvfs]
    exact hd.modHandle (fun hji => hj (by rw [hji])) _
  · have hji : j ≠ i := fun hji => hj (by rw [hji])
    rw [hvfs]
    simp [Vfs.modHandle, hji]
  · rw [hl, hvfs]
    simp [Vfs.modHandle, h.useCount i]
  · rw [hl]
    exact List.nodup_cons.mpr ⟨fun hmem => hrunning i k hmem rfl, h.nodup i⟩
  · rw [hl] at hq
    rcases List.mem_cons.mp hq with hq | hq
    · rw [Option.some.inj hq]
      exact ⟨τ, hkself, hτi⟩
    · rw [hrest q (hrunning i q hq)]
      exact h.owner i q hq
  · rw [hl]
    rcases eq_or_ne q k with rfl | hqk
    · obtain rfl : τ = τ' := Option.some.inj (hkself.symm.trans hτ')
      exact Or.inr ⟨hfd, hτi, Or.inr ⟨List.mem_cons_self, f, m, hself f m _ hd⟩⟩
    · rw [hrest q hqk] at hτ'
      rcases eq_or_ne τ'.handle i with hi | hi
      · obtain ⟨hfd', j, -, hj, hopen⟩ := h.runs q τ' hτ'
        obtain rfl : i = j := Int.ofNat.inj (hi.symm.trans hj)
        obtain ⟨hmem, f', m', hd'⟩ := hopen.resolve_left hne
        exact Or.inr ⟨hfd', hi, Or.inr ⟨List.mem_cons_of_mem _ hmem, f', m', hself f' m' _ hd'⟩⟩
      · exact Or.inl ⟨hτ', hi⟩

theorem SessionInv.start {k : ℕ} {t : Option Transfer} (h : SessionInv p σ) (hk : σ.running k = none)
    (ht : ∀ τ, t = some τ → Begins p σ.vfs τ) : SessionInv p (σ.start p k t) := by
  cases t with
  | none => exact h
  | some τ =>
    obtain ⟨hfd, i, f, m, hτi, hd⟩ := ht τ rfl
    have hnat : τ.handle.toNat = i := by omega
    have hget : getHandle p τ.handle σ.vfs = σ.vfs.modHandle i fun hd => { hd with useCount := hd.useCount + 1 } := by
      unfold getHandle
      rw [hτi, handleToPointer_coe hd.handle_lt]
      exact if_pos hd.use
    have hjoin : SessionInv p
        { σ with
          vfs := getHandle p τ.handle σ.vfs
          running := Function.update σ.running k (some τ)
          owners := Function.update σ.owners τ.handle.toNat (some k :: σ.owners τ.handle.toNat) } :=
      h.joins hk hfd hτi hd hget rfl (by rw [hnat]) rfl rfl
    have hadvance := hjoin.advance (Function.update_self ..)
    unfold Session.start
    simp only
    rw [← Session.advance_running k τ (some τ)]
    exact hadvance

/-! ### The other calls -/

theorem doUnlink_sameTables (a : UnlinkArgs) (s : Vfs) : SameTables s (doUnlink p a s).1 := by
  unfold doUnlink
  split
  · split_ifs
    · exact SameTables.refl s
    · split
      · exact SameTables.refl s
      · exact ⟨rfl, rfl, rfl⟩
  · exact SameTables.refl s

theorem funlink_sameTables (h : ℤ) (s : Vfs) : SameTables s (funlink p h s).1 := by
  unfold funlink
  split
  · exact SameTables.refl s
  · split_ifs
    · exact SameTables.refl s
    · exact ⟨rfl, rfl, rfl⟩

/-- A close fails, or it puts its handle after the file has been flushed. -/
theorem close_cases (h : ℤ) (s : Vfs) : close p h s = (s, -1) ∨
    ∃ i f m r t, h = (i : ℕ) ∧ handleToObject p s h = some r ∧ Designates p s i f m r ∧ SameTables s t ∧
      close p h s = (putHandleAt p i t, 0) := by
  unfold close
  cases hr : handleToObject p s h with
  | none => exact Or.inl rfl
  | some r =>
    obtain ⟨i, f, m, rfl, hf, hd⟩ := designates_of_handleToObject hr
    rw [hf]
    simp only
    rw [putHandle_coe hd.handle_lt]
    refine Or.inr ⟨i, f, m, r, _, rfl, rfl, hd, ?_, rfl⟩
    split_ifs
    · exact SameTables.refl s
    · exact SameTables.onDev s _ _

theorem SessionInv.close {h : ℤ} (hinv : SessionInv p σ) (htables : TablesInv p (close p h σ.vfs).1)
    (hc : Act.careful p σ (.call (.close h))) : SessionInv p (σ.call p (.close h)) := by
  have hput : ∀ q, Yaffs.close p h σ.vfs = q → SessionInv p
      { σ with
        vfs := q.1
        owners := if q.2 = 0 then Function.update σ.owners h.toNat (dropOwner none (σ.owners h.toNat)) else σ.owners } := by
    rintro q hq
    rcases close_cases (p := p) h σ.vfs with hfail | ⟨i, f, m, r, t, rfl, hr, hd, hsame, hclose⟩
    · obtain rfl : (σ.vfs, -1) = q := hfail.symm.trans hq
      exact hinv
    · have hcareful : none ∈ σ.owners i ∨ (σ.owners i).length ≤ 1 := hc (by rw [hr]; rfl)
      rw [hclose] at htables
      obtain rfl : (putHandleAt p i t, 0) = q := hclose.symm.trans hq
      obtain ⟨δ, hδ, hv⟩ := hinv.tables
      have hkeep : KeepsOthers p (some i) σ.vfs (putHandleAt p i t) :=
        (hsame.keepsOthers _).trans (putHandleAt_keeps hδ (hv.toCounted.sameTables hsame) hd.handle_lt)
      have hne : σ.owners i ≠ [] := fun hnil => by
        have hcount := hinv.useCount i
        have := hd.use
        rw [hcount, hnil] at this
        exact absurd this (lt_irrefl 0)
      refine hinv.drops (w := none) htables hkeep hne ?_ (fun f m r huse hd => ?_) rfl hcareful
        (fun k hk => by simp at hk) (fun _ _ => rfl) (fun k hk => by simp at hk) rfl hinv.releases
      · change ((putHandleAt p i t).handle i).useCount = _
        rw [putHandleAt_handle, hsame.handle, if_pos hd.use, Function.update_self]
      · exact (hsame.designates hd).putSelf (by rw [hsame.handle]; exact huse)
  exact hput _ rfl

theorem SessionInv.call {c : Call} (h : SessionInv p σ) (hp : Act.possible p σ (.call c))
    (hc : Act.careful p σ (.call c)) : SessionInv p (σ.call p c) := by
  obtain ⟨hfound, hkind⟩ := hp
  have htables : TablesInv p (execCall p σ.vfs c).1 := by
    obtain ⟨δ, hδ, hinv⟩ := h.tables
    have hstep := (Vfs.step_spec hδ hinv c).1
    unfold Vfs.step at hstep
    rw [if_pos hfound] at hstep
    exact ⟨δ, hδ, hstep⟩
  have hpos : ∀ i, 0 ≤ (σ.vfs.handle i).useCount := fun i => by
    rw [h.useCount]
    exact Int.natCast_nonneg _
  have htake : ∀ q : Vfs × ℤ, execCall p σ.vfs c = q → (q.2 = -1 ∧ KeepsOthers p none σ.vfs q.1 ∨
      ∃ j : ℕ, q.2 = j ∧ TakesHandle p j σ.vfs q.1) →
      (∀ k τ i, σ.running k = some τ → freeHandle p σ.vfs = some i → τ.handle ≠ i) → SessionInv p
        { σ with
          vfs := q.1
          owners := if 0 ≤ q.2 then Function.update σ.owners q.2.toNat [none] else σ.owners } := by
    rintro q rfl (⟨hfail, hk⟩ | ⟨j, hj, ht⟩) hfree
    · rw [hfail, if_neg (by decide)]
      exact h.tables_change htables hk
    · rw [hj, if_pos (Int.natCast_nonneg j), Int.toNat_natCast]
      exact h.takes htables ht fun k τ hτ => hfree k τ j hτ ht.free
  obtain ⟨δ, hδ, hinv⟩ := h.tables
  cases c with
  | openSharing a => exact htake _ rfl (openSharing_takes hδ hinv hpos a) hc
  | dup hd => exact htake _ rfl (dup_takes hpos hd) hc
  | close hd => exact h.close htables hc
  | read => exact absurd hkind id
  | write => exact absurd hkind id
  | unlink a => exact h.tables_change htables ((doUnlink_sameTables a σ.vfs).keepsOthers none)
  | funlink hd => exact h.tables_change htables ((funlink_sameTables hd σ.vfs).keepsOthers none)

/-! ### Runs -/

theorem SessionInv.act {a : Act} (h : SessionInv p σ) (hp : a.possible p σ) (hc : a.careful p σ) :
    SessionInv p (σ.act p a) := by
  cases a with
  | read k hd nbyte isPread offset => exact h.start hp fun τ hτ => beginRead_begins hτ
  | write k hd buf isPwrite offset => exact h.start hp fun τ hτ => beginWrite_begins hτ
  | next k =>
    have hnext : SessionInv p (match σ.running k with
        | some τ => σ.advance p k τ
        | none => σ) := by
      cases hτ : σ.running k with
      | none => exact h
      | some τ => exact h.advance hτ
    exact hnext
  | call c => exact h.call hp hc
  | unmount dev => exact h.breakDeviceHandles dev
  | mount dev d => exact Session.act_mount h hp.1 hp.2

theorem SessionRun.inv (h : SessionRun p (fun σ a => a.careful p σ) σ) : SessionInv p σ := by
  induction h with
  | start dev hd =>
    exact
      { tables := ⟨0, fun _ => le_rfl, initHandles_spec hd⟩
        useCount := fun _ => rfl
        lt := fun i hi => absurd rfl hi
        nodup := fun _ => List.nodup_nil
        owner := fun i k hk => absurd hk List.not_mem_nil
        runs := fun k τ hτ => absurd hτ (by simp [Session.init])
        accesses := fun q hq => absurd hq List.not_mem_nil
        releases := fun q hq => absurd hq List.not_mem_nil }
  | act a hp hc _ ih => exact ih.act hp hc

/-- Every segment has accessed the object its call started with, and the release at the end of a call has
dropped the reference the call took. -/
def Session.Stays (σ : Session) : Prop :=
  (∀ q ∈ σ.accesses, q.2 = q.1) ∧ ∀ q ∈ σ.releases, q.2 = some q.1

/-- With careful actions transfers stay on their object. -/
theorem segments_stay (h : SessionRun p (fun σ a => a.careful p σ) σ) : σ.Stays :=
  ⟨h.inv.accesses, h.inv.releases⟩

/-- Two bytes are written to a new file on both sides of the end of a segment. -/
def sampleGap : Session :=
  ((Session.init fun _ => freshDev sampleGeometry fun _ => false).act sampleVfs
    (.call (sampleOpen none (some ⟨0, objectIdRoot⟩) "a".toList true))).act sampleVfs (.write 0 0 [1, 2] true 8191)

theorem sampleGap_run {ok : Session → Act → Prop}
    (hopen : ok (Session.init fun _ => freshDev sampleGeometry fun _ => false)
      (.call (sampleOpen none (some ⟨0, objectIdRoot⟩) "a".toList true)))
    (hwrite : ∀ σ, ok σ (.write 0 0 [1, 2] true 8191)) : SessionRun sampleVfs ok sampleGap :=
  .act _ rfl (hwrite _) (.act _ ⟨by decide +kernel, trivial⟩ hopen
    (.start _ fun _ => freshDev_tied sampleGeometry fun _ => false))

/-- The handle is closed between the segments. -/
theorem sampleGap_stays : (((sampleGap.act sampleVfs (.call (.close 0))).act sampleVfs (.next 0)).accesses.length = 2) ∧
    ((sampleGap.act sampleVfs (.call (.close 0))).act sampleVfs (.next 0)).Stays := by
  refine ⟨by decide +kernel, segments_stay (.act _ trivial trivial (.act _ ⟨rfl, trivial⟩ (fun _ => ?_)
    (sampleGap_run (fun k τ i hτ => absurd hτ (by simp [Session.init])) fun _ => trivial)))⟩
  have hmem : none ∈ sampleGap.owners 0 := by decide +kernel
  exact Or.inl hmem

/-- The handle is closed twice between the segments and handed out for another file : the second byte goes
there, and the reference of the open is dropped. -/
theorem sampleReuse_strays : ∃ σ, SessionRun sampleVfs (fun _ _ => True) σ ∧ ¬σ.Stays := by
  refine ⟨(((sampleGap.act sampleVfs (.call (.close 0))).act sampleVfs (.call (.close 0))).act sampleVfs
    (.call (sampleOpen none (some ⟨0, objectIdRoot⟩) "b".toList true))).act sampleVfs (.next 0),
    .act _ trivial trivial (.act _ ⟨by decide +kernel, trivial⟩ trivial (.act _ ⟨rfl, trivial⟩ trivial
      (.act _ ⟨rfl, trivial⟩ trivial (sampleGap_run trivial fun _ => trivial)))), fun hstays => ?_⟩
  revert hstays
  unfold Session.Stays
  decide +kernel

end Runs

end Yaffs
