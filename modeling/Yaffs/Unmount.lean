import Yaffs.Refcount

/-!
# Forced unmount

`yaffsfs_BreakDeviceHandles` walks the handles and closes them all, of whichever device their
objects are; of the descriptors it lets go of those whose objects lie on the device, and it
looks at no directory search context. `breakDeviceHandles_spec` says so for every state of
the tables that calls reach.

A state here also tells the directory a search context searches, and so the device it
belongs to.
-/

namespace Yaffs

section Model

variable (p : VfsParam)

/-- The part of `yaffsfs_BreakDeviceHandles` that lets go of a descriptor. -/
def breakFd (f : ℕ) (s : Vfs) : Vfs :=
  let s := s.modFd f fun fd => { fd with handleCount := 0 }
  let s := match (s.fd f).inodeId with
    | some i => putInode p i s
    | none => s
  s.modFd f fun fd => { fd with inodeId := none }

/-- The part of `yaffsfs_BreakDeviceHandles` that closes a handle. -/
def closeHandle (i : ℕ) (s : Vfs) : Vfs :=
  if 0 < (s.handle i).useCount then s.modHandle i fun _ => { fdId := some 0, useCount := 0 } else s

/-- A round of the loop of `yaffsfs_BreakDeviceHandles`. -/
def breakHandle (dev i : ℕ) (s : Vfs) : Vfs :=
  let fd := handleToFileDes p s i
  let obj := handleToObject p s i
  let s := closeHandle i s
  match fd, obj with
  | some f, some r => if 0 < (s.fd f).handleCount ∧ r.dev = dev then breakFd p f s else s
  | _, _ => s

/-- `yaffsfs_BreakDeviceHandles`. -/
def breakDeviceHandles (dev : ℕ) (s : Vfs) : Vfs :=
  (List.range p.nHandles).foldl (fun s i => breakHandle p dev i s) s

/-! ## The tables with the directories searched -/

/-- The tables, with the directory each search context searches. -/
structure Tables where
  vfs : Vfs
  /-- `dirObj` of a directory search context. -/
  dirObj : ℕ → Option ObjRef

/-- The directory an open search context searches. -/
def Tables.search (t : Tables) (c : ℕ) : Option ObjRef :=
  if c < p.nDsc ∧ t.vfs.dscInUse c then t.dirObj c else none

/-- The tables after a call; a context the call has taken searches `r`. -/
def Tables.follow (t : Tables) (s : Vfs) (r : Option ObjRef) : Tables where
  vfs := s
  dirObj c := if s.dscInUse c && !t.vfs.dscInUse c then r else t.dirObj c

/-- The object whose search a call may begin. -/
def Call.searched : Call → Option ObjRef
  | .openSharing a => a.obj
  | _ => none

/-- A call of the interface. -/
def Tables.call (c : Call) (t : Tables) : Tables :=
  t.follow (t.vfs.step p c) c.searched

/-- `yaffs_opendir` of a directory. -/
def Tables.opendir (r : ObjRef) (t : Tables) : Tables :=
  t.follow (Yaffs.opendir p t.vfs).1 (some r)

/-- `yaffs_closedir`. -/
def Tables.closedir (addr : ℤ) (t : Tables) : Tables :=
  t.follow (Yaffs.closedir p addr t.vfs) none

/-- `yaffsfs_BreakDeviceHandles` does not look at the search contexts. -/
def Tables.breakDeviceHandles (dev : ℕ) (t : Tables) : Tables :=
  t.follow (Yaffs.breakDeviceHandles p dev t.vfs) none

/-- The device is mounted anew as `d`. -/
def Vfs.mount (dev : ℕ) (d : Dev) (s : Vfs) : Vfs :=
  { s with
    dev := Function.update s.dev dev d
    deletions := fun r => if r.dev = dev then 0 else s.deletions r }

/-- The device is mounted anew as `d`. -/
def Tables.mount (dev : ℕ) (d : Dev) (t : Tables) : Tables :=
  t.follow (t.vfs.mount dev d) none

/-! ## What belongs to a device -/

/-- The object of an open descriptor. -/
def fdToObject (s : Vfs) (f : ℕ) : Option ObjRef :=
  if 0 < (s.fd f).handleCount then
    ((s.fd f).inodeId.filter (· < p.nHandles)).bind fun i => (s.inode i).iObj
  else none

/-- What is asked of a forced unmount of `dev` : what belongs to other devices is unchanged, what
belongs to `dev` is released. -/
structure Isolates (dev : ℕ) (t t' : Tables) : Prop where
  device : ∀ j, j ≠ dev → t'.vfs.dev j = t.vfs.dev j
  handle : ∀ h < p.nHandles, 0 < (t.vfs.handle h).useCount →
    (∀ r, handleToObject p t.vfs h = some r → r.dev ≠ dev) → t'.vfs.handle h = t.vfs.handle h
  fd : ∀ f < p.nHandles, 0 < (t.vfs.fd f).handleCount →
    (∀ r, fdToObject p t.vfs f = some r → r.dev ≠ dev) → t'.vfs.fd f = t.vfs.fd f
  inode : ∀ i < p.nHandles, ∀ r, (t.vfs.inode i).iObj = some r → r.dev ≠ dev →
    t'.vfs.inode i = t.vfs.inode i
  search : ∀ c r, t.search p c = some r → r.dev ≠ dev → t'.search p c = some r
  usable : ∀ h r, handleToObject p t.vfs h = some r → r.dev ≠ dev → handleToObject p t'.vfs h = some r
  handleOff : ∀ h < p.nHandles, ∀ r, handleToObject p t.vfs h = some r → r.dev = dev →
    (t'.vfs.handle h).useCount < 1
  fdOff : ∀ f < p.nHandles, ∀ r, fdToObject p t.vfs f = some r → r.dev = dev →
    (t'.vfs.fd f).handleCount < 1 ∧ (t'.vfs.fd f).inodeId = none
  inodeOff : ∀ i < p.nHandles, ∀ r, (t.vfs.inode i).iObj = some r → r.dev = dev → t'.vfs.inode i = {}
  searchOff : ∀ c r, t.search p c = some r → r.dev = dev → t'.search p c = none

/-- Every open handle is one of `dev`, every open descriptor of `dev` has a handle, and no search is one
of `dev`. -/
structure OnlyHandles (dev : ℕ) (t : Tables) : Prop where
  handle : ∀ h < p.nHandles, 0 < (t.vfs.handle h).useCount → ∃ r, handleToObject p t.vfs h = some r ∧ r.dev = dev
  fd : ∀ f < p.nHandles, ∀ r, fdToObject p t.vfs f = some r → r.dev = dev →
    ∃ h < p.nHandles, handleToFileDes p t.vfs h = some f
  search : ∀ c r, t.search p c = some r → r.dev ≠ dev

/-- The states of the tables that calls reach, and forced unmounts and mounts of devices; a device is
mounted anew when no inode holds an object of it. -/
inductive TableRun : Tables → Prop
  | start (dev : ℕ → Dev) (hd : ∀ i, Tied [] (dev i)) : TableRun ⟨initHandles dev, fun _ => none⟩
  | call {t : Tables} (c : Call) (h : TableRun t) : TableRun (t.call p c)
  | opendir {t : Tables} (r : ObjRef) (h : TableRun t) : TableRun (t.opendir p r)
  | closedir {t : Tables} (addr : ℤ) (h : TableRun t) : TableRun (t.closedir p addr)
  | break {t : Tables} (dev : ℕ) (h : TableRun t) : TableRun (t.breakDeviceHandles p dev)
  | mount {t : Tables} (dev : ℕ) (d : Dev) (hd : Tied [] d)
      (hfree : ∀ i < p.nHandles, ∀ r, (t.vfs.inode i).iObj = some r → r.dev ≠ dev)
      (h : TableRun t) : TableRun (t.mount dev d)

end Model

section Break

variable {p : VfsParam} {s s' : Vfs} {δ ε : ℕ → ℤ} {dev : ℕ}

/-! ## Putting an inode -/

theorem putInode_inode {i j : ℕ} (hj : j ≠ i) : (putInode p i s).inode j = s.inode j := by
  unfold putInode releaseInodeAt
  simp only
  split_ifs
  · split <;> simp [Vfs.modInode, Vfs.onDev, hj]
  · simp [Vfs.modInode, hj]
  · rfl

theorem putInode_dev {i j : ℕ} {r : ObjRef} (hr : (s.inode i).iObj = some r) (hj : j ≠ r.dev) :
    (putInode p i s).dev j = s.dev j := by
  unfold putInode releaseInodeAt
  simp only [Vfs.modInode, Function.update_self, hr]
  split_ifs <;> simp [Vfs.onDev, hj]

/-- The inode keeps its object as long as it is counted. -/
theorem putInode_self {i : ℕ} (hi : i < p.nHandles) {r : ObjRef} (hr : (s.inode i).iObj = some r) :
    ((putInode p i s).inode i).iObj = some r ∨ (putInode p i s).inode i = {} := by
  unfold putInode releaseInodeAt
  rw [if_pos hi]
  simp only [Vfs.modInode, Function.update_self, hr]
  by_cases hlast : (s.inode i).count - 1 ≤ 0
  · right
    rw [if_pos hlast]
    simp [Vfs.onDev]
  · left
    rw [if_neg hlast]
    simp

/-! ## What breaking the handles does -/

/-- A descriptor the device lets go of. -/
def FileDes.broken (fd : FileDes) : FileDes :=
  { fd with handleCount := 0, inodeId := none }

/-- The handles before `m` have been closed, and the descriptors of the handles before `k` broken. -/
structure Broken (p : VfsParam) (dev m k : ℕ) (s s' : Vfs) : Prop where
  inv : ∃ δ, VfsInv p δ 0 s'
  device : ∀ j, j ≠ dev → s'.dev j = s.dev j
  dscInUse : s'.dscInUse = s.dscInUse
  handle : ∀ h, s'.handle h =
    if h < m ∧ 0 < (s.handle h).useCount then { fdId := some 0, useCount := 0 } else s.handle h
  fd : ∀ f, s'.fd f = s.fd f ∨ (∃ h < m, handleToFileDes p s h = some f) ∧
    (∃ r, fdToObject p s f = some r ∧ r.dev = dev) ∧ s'.fd f = (s.fd f).broken
  off : ∀ h < k, ∀ f r, handleToFileDes p s h = some f → fdToObject p s f = some r → r.dev = dev →
    s'.fd f = (s.fd f).broken
  held : ∀ i r, (s'.inode i).iObj = some r → (s.inode i).iObj = some r
  inode : ∀ i < p.nHandles, ∀ r, (s.inode i).iObj = some r → (r.dev ≠ dev → s'.inode i = s.inode i) ∧
    ((s'.inode i).iObj = some r ∨ s'.inode i = {})

/-- Only the descriptor, its inode and the device of the object have changed. -/
structure FdBroken (p : VfsParam) (f i : ℕ) (r : ObjRef) (s s' : Vfs) : Prop where
  inv : ∃ δ, VfsInv p δ 0 s'
  fd : s'.fd = Function.update s.fd f (s.fd f).broken
  handle : s'.handle = s.handle
  dscInUse : s'.dscInUse = s.dscInUse
  device : ∀ j, j ≠ r.dev → s'.dev j = s.dev j
  inode : ∀ j, j ≠ i → s'.inode j = s.inode j
  self : (s'.inode i).iObj = some r ∨ s'.inode i = {}

theorem breakFd_spec {f i : ℕ} {r : ObjRef} (h : VfsInv p δ 0 s) (hf : f < p.nHandles) (hi : i < p.nHandles)
    (hopen : 0 < (s.fd f).handleCount) (hid : (s.fd f).inodeId = some i) (hr : (s.inode i).iObj = some r) :
    FdBroken p f i r s (breakFd p f s) := by
  let t := s.modFd f fun fd => { fd with handleCount := 0 }
  have hself : t.fd f = { s.fd f with handleCount := 0 } := Function.update_self ..
  have htid : (t.fd f).inodeId = some i := by
    rw [hself]
    exact hid
  have htr : (t.inode i).iObj = some r := hr
  have hbreak : breakFd p f s = (putInode p i t).modFd f fun fd => { fd with inodeId := none } := by
    unfold breakFd
    simp only
    rw [show ((s.modFd f fun fd => { fd with handleCount := 0 }).fd f).inodeId = some i from htid]
  -- The inode counts one descriptor more than there are until it is put.
  have hinv : VfsInv p (fun f' => δ f' + if f' = f then 0 - (s.fd f).handleCount else 0) (bump i) t := by
    refine h.tables (h.toCounted.modFd hf (fun _ _ => rfl) fun j _ => ?_) (fun _ => rfl) (fun _ _ => Iff.rfl) rfl rfl
    rw [FileDes.refers_of_closed (by exact Int.zero_lt_one)]
    simp [FileDes.refers, hopen, hid, bump, eq_comm]
  obtain ⟨hput, -⟩ := putInode_spec hi hinv
  obtain ⟨hdsc, hfds, hhandles⟩ := putInode_tables (p := p) (s := t) i
  have hclosed : ((putInode p i t).fd f).handleCount < 1 := by
    rw [hfds, hself]
    exact Int.zero_lt_one
  have hlast := (hput.modFd (u := fun fd => { fd with inodeId := none }) hf rfl fun j => by
    rw [FileDes.refers_of_closed hclosed, FileDes.refers_of_closed (by exact hclosed)]).1
  rw [hbreak]
  exact
    { inv := ⟨_, hlast⟩
      fd := by
        simp only [Vfs.modFd, hfds, hself]
        simp only [t, Vfs.modFd, Function.update_idem]
        rfl
      handle := hhandles
      dscInUse := hdsc
      device := fun j hj => putInode_dev htr hj
      inode := fun j hj => putInode_inode hj
      self := putInode_self hi htr }

/-! ### A round of the loop -/

theorem handleToPointer_coe {k : ℕ} (hk : k < p.nHandles) : handleToPointer p k = some k := by
  unfold handleToPointer
  rw [if_pos ⟨by omega, by omega⟩]
  simp

/-- The object of an open handle is that of its descriptor. -/
theorem handleToObject_eq (s : Vfs) (h : ℤ) :
    handleToObject p s h = (handleToFileDes p s h).bind (fdToObject p s) := by
  unfold handleToObject handleToInode
  rw [Option.bind_assoc]
  congr 1
  funext f
  unfold fdToObject
  split_ifs <;> rfl

theorem fdToObject_eq_some {f : ℕ} {r : ObjRef} : fdToObject p s f = some r ↔
    0 < (s.fd f).handleCount ∧ ∃ i < p.nHandles, (s.fd f).inodeId = some i ∧ (s.inode i).iObj = some r := by
  unfold fdToObject
  split_ifs with hopen
  · simp only [hopen, true_and, Option.bind_eq_some_iff, Option.filter_eq_some_iff, decide_eq_true_eq]
    constructor
    · rintro ⟨i, ⟨hi, hlt⟩, hr⟩
      exact ⟨i, hlt, hi, hr⟩
    · rintro ⟨i, hlt, hi, hr⟩
      exact ⟨i, ⟨hi, hlt⟩, hr⟩
  · simp [hopen]

/-- A descriptor that is not broken yet keeps its object. -/
theorem Broken.still {m k f : ℕ} {r : ObjRef} (h : Broken p dev m k s s') (hf : f < p.nHandles)
    (hr : fdToObject p s f = some r) (hsame : s'.fd f = s.fd f) : fdToObject p s' f = some r := by
  obtain ⟨hopen, i, hi, hid, hir⟩ := fdToObject_eq_some.mp hr
  obtain ⟨δ, hinv⟩ := h.inv
  refine fdToObject_eq_some.mpr ⟨by rw [hsame]; exact hopen, i, hi, by rw [hsame]; exact hid, ?_⟩
  -- The descriptor counts for its inode, which so has an object.
  have hpos : 0 < openFds p s' i := by
    unfold openFds
    exact List.countP_pos_iff.mpr ⟨f, List.mem_range.mpr hf, by simp [FileDes.refers, hsame, hopen, hid]⟩
  have hcount := hinv.count i hi
  simp only [Pi.zero_apply, add_zero] at hcount
  obtain ⟨q, hq⟩ := Option.isSome_iff_exists.mp ((hinv.iObj i hi).mpr (by omega))
  rw [hq]
  exact (h.held i q hq).symm.trans hir

theorem Broken.close {k : ℕ} (hk : k < p.nHandles) (h : Broken p dev k k s s') :
    Broken p dev (k + 1) k s (closeHandle k s') := by
  have hsame : s'.handle k = s.handle k := by
    rw [h.handle, if_neg (by omega)]
  have hfd : ∀ f, s'.fd f = s.fd f ∨ (∃ h < k + 1, handleToFileDes p s h = some f) ∧
      (∃ r, fdToObject p s f = some r ∧ r.dev = dev) ∧ s'.fd f = (s.fd f).broken := fun f => by
    rcases h.fd f with hs | ⟨⟨j, hj, hjf⟩, hbroken⟩
    · exact Or.inl hs
    · exact Or.inr ⟨⟨j, by omega, hjf⟩, hbroken⟩
  unfold closeHandle
  split_ifs with huse
  · obtain ⟨δ, hinv⟩ := h.inv
    have hcount : Counted p (fun f => δ f + if (s'.handle k).refers f then 1 else 0) 0
        (s'.modHandle k fun _ => { fdId := some 0, useCount := 0 }) :=
      hinv.toCounted.modHandle hk fun f _ => by simp [Handle.refers]
    refine { h with fd := hfd
                    inv := ⟨_, hinv.tables hcount (fun _ => rfl) (fun _ _ => Iff.rfl) rfl rfl⟩
                    handle := fun j => ?_ }
    · rcases eq_or_ne j k with rfl | hjk
      · rw [hsame] at huse
        simp [Vfs.modHandle, huse]
      · have hlt : j < k + 1 ↔ j < k := by omega
        simp only [Vfs.modHandle, Function.update_of_ne hjk, h.handle, hlt]
  · refine { h with fd := hfd
                    handle := fun j => ?_ }
    rw [h.handle]
    rcases eq_or_ne j k with rfl | hjk
    · rw [hsame] at huse
      simp [huse]
    · have hlt : j < k + 1 ↔ j < k := by omega
      simp only [hlt]

/-- A descriptor of the device is broken. -/
theorem Broken.letGo {m k f : ℕ} {r : ObjRef} (h : Broken p dev m k s s') (hf : f < p.nHandles)
    (hhandle : ∃ h < m, handleToFileDes p s h = some f) (hr : fdToObject p s' f = some r) (hdev : r.dev = dev) :
    Broken p dev m k s (breakFd p f s') ∧ (breakFd p f s').fd f = (s.fd f).broken := by
  obtain ⟨hopen, i, hi, hid, hir⟩ := fdToObject_eq_some.mp hr
  have hsame : s'.fd f = s.fd f := by
    rcases h.fd f with hsame | ⟨-, -, hbroken⟩
    · exact hsame
    · rw [hbroken] at hopen
      exact absurd hopen (lt_irrefl 0)
  have hobj : fdToObject p s f = some r := by
    rw [hsame] at hopen hid
    exact fdToObject_eq_some.mpr ⟨hopen, i, hi, hid, h.held i r hir⟩
  obtain ⟨δ, hinv⟩ := h.inv
  have hspec := breakFd_spec hinv hf hi hopen hid hir
  have hself : (breakFd p f s').fd f = (s.fd f).broken := by
    rw [hspec.fd, Function.update_self, hsame]
  have hother : ∀ f', f' ≠ f → (breakFd p f s').fd f' = s'.fd f' := fun f' hf' => by
    rw [hspec.fd, Function.update_of_ne hf']
  refine ⟨
    { inv := hspec.inv
      device := fun j hj => (hspec.device j (hdev ▸ hj)).trans (h.device j hj)
      dscInUse := hspec.dscInUse.trans h.dscInUse
      handle := fun j => by rw [hspec.handle]; exact h.handle j
      fd := fun f' => ?_
      off := fun j hj f' q hfd hq hqdev => ?_
      held := fun j q hq => ?_
      inode := fun j hj q hq => ?_ }, hself⟩
  · rcases eq_or_ne f' f with rfl | hf'
    · exact Or.inr ⟨hhandle, ⟨r, hobj, hdev⟩, hself⟩
    · rw [hother f' hf']
      exact h.fd f'
  · rcases eq_or_ne f' f with rfl | hf'
    · exact hself
    · rw [hother f' hf']
      exact h.off j hj f' q hfd hq hqdev
  · rcases eq_or_ne j i with rfl | hj
    · rcases hspec.self with hself | hself
      · rw [hself] at hq
        exact Option.some.inj hq ▸ h.held j r hir
      · rw [hself] at hq
        exact absurd hq (by simp)
    · rw [hspec.inode j hj] at hq
      exact h.held j q hq
  · rcases eq_or_ne j i with rfl | hji
    · obtain rfl : r = q := Option.some.inj ((h.held j r hir).symm.trans hq)
      exact ⟨fun hne => absurd hdev hne, hspec.self⟩
    · rw [hspec.inode j hji]
      exact h.inode j hj q hq

/-- A round of the loop. -/
theorem Broken.round {k : ℕ} (hk : k < p.nHandles) (h : Broken p dev k k s s') :
    Broken p dev (k + 1) (k + 1) s (breakHandle p dev k s') := by
  have hclose := h.close hk
  have hfd : (closeHandle k s').fd = s'.fd := by
    unfold closeHandle
    split_ifs <;> rfl
  have hinode : (closeHandle k s').inode = s'.inode := by
    unfold closeHandle
    split_ifs <;> rfl
  have hobj : ∀ f, fdToObject p (closeHandle k s') f = fdToObject p s' f := fun f => by
    unfold fdToObject
    rw [hfd, hinode]
  have hhandle : handleToFileDes p s' k = handleToFileDes p s k := by
    unfold handleToFileDes
    rw [handleToPointer_coe hk]
    simp only [Option.bind_some, h.handle, lt_self_iff_false, false_and, if_false]
  -- What is left of `off` is the descriptor of this handle.
  have hlast : ∀ t, Broken p dev (k + 1) k s t → (∀ f r, handleToFileDes p s k = some f →
      fdToObject p s f = some r → r.dev = dev → t.fd f = (s.fd f).broken) →
      Broken p dev (k + 1) (k + 1) s t := by
    intro t ht hoff
    refine { ht with off := fun j hj f r hf hr hdev => ?_ }
    rcases Nat.lt_succ_iff_lt_or_eq.mp hj with hj | rfl
    · exact ht.off j hj f r hf hr hdev
    · exact hoff f r hf hr hdev
  unfold breakHandle
  simp only
  rw [handleToObject_eq, hhandle]
  cases hf : handleToFileDes p s k with
  | none => exact hlast _ hclose fun f r hfd => by rw [hf] at hfd; exact absurd hfd (by simp)
  | some f =>
    have hlt := (handleToFileDes_spec hf).1
    -- A descriptor of the device that is not broken still leads to its object.
    have hstill : ∀ r, fdToObject p s f = some r →
        fdToObject p s' f = some r ∨ s'.fd f = (s.fd f).broken := fun r hr => by
      rcases h.fd f with hsame | ⟨-, -, hbroken⟩
      · exact Or.inl (h.still hlt hr hsame)
      · exact Or.inr hbroken
    simp only [Option.bind_some]
    cases hr : fdToObject p s' f with
    | none =>
      refine hlast _ hclose fun f' r hf' hr' _ => ?_
      obtain rfl : f = f' := Option.some.inj (hf.symm.trans hf')
      rw [hfd]
      rcases hstill r hr' with hs | hs
      · rw [hr] at hs
        exact absurd hs (by simp)
      · exact hs
    | some r =>
      simp only
      split_ifs with hcond
      · obtain ⟨hbroken, hself⟩ := hclose.letGo hlt ⟨k, Nat.lt_succ_self k, hf⟩ ((hobj f).trans hr) hcond.2
        refine hlast _ hbroken fun f' q hf' _ _ => ?_
        obtain rfl : f = f' := Option.some.inj (hf.symm.trans hf')
        exact hself
      · refine hlast _ hclose fun f' q hf' hq hqdev => ?_
        obtain rfl : f = f' := Option.some.inj (hf.symm.trans hf')
        rw [hfd] at hcond ⊢
        rcases hstill q hq with hs | hs
        · obtain rfl : r = q := Option.some.inj (hr.symm.trans hs)
          exact absurd ⟨(fdToObject_eq_some.mp hr).1, hqdev⟩ hcond
        · exact hs

/-- The whole loop. -/
theorem breakDeviceHandles_broken (h : VfsInv p δ 0 s) (dev : ℕ) :
    Broken p dev p.nHandles p.nHandles s (breakDeviceHandles p dev s) := by
  have hloop : ∀ k ≤ p.nHandles,
      Broken p dev k k s ((List.range k).foldl (fun s i => breakHandle p dev i s) s) := by
    intro k
    induction k with
    | zero =>
      intro _
      exact
        { inv := ⟨δ, h⟩
          device := fun _ _ => rfl
          dscInUse := rfl
          handle := fun j => by simp
          fd := fun _ => Or.inl rfl
          off := fun j hj => absurd hj (Nat.not_lt_zero j)
          held := fun _ _ hr => hr
          inode := fun _ _ _ hr => ⟨fun _ => rfl, Or.inl hr⟩ }
    | succ k ih =>
      intro hk
      rw [List.range_succ, List.foldl_append]
      exact (ih (by omega)).round (by omega)
  exact hloop _ le_rfl

/-- An inode that holds an object has an open descriptor. -/
theorem VfsInv.fd_of_inode (h : VfsInv p δ 0 s) {i : ℕ} (hi : i < p.nHandles) {r : ObjRef}
    (hr : (s.inode i).iObj = some r) :
    ∃ f < p.nHandles, 0 < (s.fd f).handleCount ∧ (s.fd f).inodeId = some i ∧ fdToObject p s f = some r := by
  have hcount := h.count i hi
  have hpos := (h.iObj i hi).mp (by rw [hr]; rfl)
  simp only [Pi.zero_apply, add_zero] at hcount
  have hpos' : 0 < openFds p s i := by omega
  unfold openFds at hpos'
  obtain ⟨f, hf, hrefers⟩ := List.countP_pos_iff.mp hpos'
  simp only [FileDes.refers, Bool.and_eq_true, decide_eq_true_eq] at hrefers
  exact ⟨f, List.mem_range.mp hf, hrefers.1, hrefers.2, fdToObject_eq_some.mpr ⟨hrefers.1, i, hi, hrefers.2, hr⟩⟩

/-- With the descriptors of the device its inodes are let go of. -/
theorem Broken.inodeOff {i : ℕ} {r : ObjRef} (hb : Broken p dev p.nHandles p.nHandles s s')
    (hall : ∀ f < p.nHandles, ∀ r, fdToObject p s f = some r → r.dev = dev →
      ∃ h < p.nHandles, handleToFileDes p s h = some f)
    (hi : i < p.nHandles) (hr : (s.inode i).iObj = some r) (hdev : r.dev = dev) : s'.inode i = {} := by
  rcases (hb.inode i hi r hr).2 with hkept | hoff
  · -- A descriptor would still lead to the object.
    obtain ⟨δ, hinv⟩ := hb.inv
    obtain ⟨f, hf, hopen, hid, -⟩ := hinv.fd_of_inode hi hkept
    rcases hb.fd f with hsame | ⟨-, -, hbroken⟩
    · rw [hsame] at hopen hid
      have hobj := fdToObject_eq_some.mpr ⟨hopen, i, hi, hid, hr⟩
      obtain ⟨k, hk, hkf⟩ := hall f hf r hobj hdev
      rw [← hsame, hb.off k hk f r hkf hobj hdev] at hopen
      exact absurd hopen (lt_irrefl 0)
    · rw [hbroken] at hopen
      exact absurd hopen (lt_irrefl 0)
  · exact hoff

end Break

/-! ## Runs -/

section Runs

variable {p : VfsParam} {t : Tables} {dev : ℕ}

theorem search_breakDeviceHandles {δ : ℕ → ℤ} (dev : ℕ) (h : VfsInv p δ 0 t.vfs) (c : ℕ) :
    (t.breakDeviceHandles p dev).search p c = t.search p c := by
  have hdsc : (breakDeviceHandles p dev t.vfs).dscInUse = t.vfs.dscInUse := (breakDeviceHandles_broken h dev).dscInUse
  unfold Tables.search Tables.breakDeviceHandles Tables.follow
  simp only [hdsc, Bool.and_not_self, Bool.false_eq_true, if_false]

/-- Descriptors may count handles that are closed, never fewer than there are. -/
def TablesInv (p : VfsParam) (s : Vfs) : Prop :=
  ∃ δ : ℕ → ℤ, (∀ f, 0 ≤ δ f) ∧ VfsInv p δ 0 s

theorem TablesInv.breakDeviceHandles {s : Vfs} (h : TablesInv p s) (dev : ℕ) :
    TablesInv p (breakDeviceHandles p dev s) := by
  obtain ⟨δ, hδ, h⟩ := h
  have hspec := breakDeviceHandles_broken h dev
  obtain ⟨δ', hinv⟩ := hspec.inv
  generalize Yaffs.breakDeviceHandles p dev s = s' at *
  have hnone : ∀ f, openHandles p s' f = 0 := by
    intro f
    unfold openHandles
    refine List.countP_eq_zero.mpr fun i hi => ?_
    have hclosed : (s'.handle i).useCount < 1 := by
      rw [hspec.handle]
      split_ifs with huse
      · exact Int.zero_lt_one
      · have := List.mem_range.mp hi
        exact Int.lt_of_not_ge fun hge => huse ⟨this, hge⟩
    rw [Handle.refers_of_closed hclosed]
    exact Bool.false_ne_true
  have hcount : ∀ f < p.nHandles, (s'.fd f).handleCount = δ' f := fun f hf => by
    have := hinv.handleCount f hf
    rw [hnone f, Nat.cast_zero, zero_add] at this
    exact this
  refine ⟨fun f => if f < p.nHandles then δ' f else 0, fun f => ?_, hinv.congr (fun f hf => if_pos hf) fun _ _ => rfl⟩
  simp only
  split_ifs with hf
  · rw [← hcount f hf]
    rcases hspec.fd f with hsame | ⟨-, -, hbroken⟩
    · rw [hsame, h.handleCount f hf]
      have := hδ f
      omega
    · rw [hbroken]
      exact le_rfl
  · exact le_rfl

theorem VfsInv.mount {s : Vfs} {δ : ℕ → ℤ} (h : VfsInv p δ 0 s)
    (hfree : ∀ i < p.nHandles, ∀ r, (s.inode i).iObj = some r → r.dev ≠ dev) {d : Dev} (hd : Tied [] d) :
    VfsInv p δ 0 (s.mount dev d) := by
  have hdev : ∀ j, j ≠ dev → (s.mount dev d).dev j = s.dev j := fun j hj => Function.update_of_ne hj _ _
  have hself : (s.mount dev d).dev dev = d := Function.update_self ..
  have hdel : ∀ r, (s.mount dev d).deletions r = if r.dev = dev then 0 else s.deletions r := fun _ => rfl
  refine
    { handleCount := h.handleCount
      count := h.count
      iObj := h.iObj
      myInode := fun i hi r hr => ?_
      tied := fun j => ?_
      once := fun r => ?_
      opened := fun r hr => ?_
      linked := fun r hid hun => ?_ }
  · unfold Vfs.obj
    rw [hdev _ (hfree i hi r hr)]
    exact h.myInode i hi r hr
  · rcases eq_or_ne j dev with rfl | hj
    · rw [hself]
      exact hd
    · rw [hdev j hj]
      exact h.tied j
  · rw [hdel]
    split_ifs
    · exact Nat.zero_le 1
    · exact h.once r
  · rw [hdel]
    split_ifs
    · rfl
    · exact h.opened r hr
  · rw [hdel]
    split_ifs with hrdev
    · rfl
    · unfold Vfs.obj at hun
      rw [hdev _ hrdev] at hid hun
      exact h.linked r hid hun

theorem TableRun.inv (h : TableRun p t) : TablesInv p t.vfs := by
  induction h with
  | start dev hd => exact ⟨0, fun _ => le_rfl, initHandles_spec hd⟩
  | call c _ ih =>
    obtain ⟨δ, hδ, hinv⟩ := ih
    exact ⟨δ, hδ, (Vfs.step_spec hδ hinv c).1⟩
  | opendir r _ ih =>
    obtain ⟨δ, hδ, hinv⟩ := ih
    exact ⟨δ, hδ, (opendir_spec hinv).1⟩
  | closedir addr _ ih =>
    obtain ⟨δ, hδ, hinv⟩ := ih
    exact ⟨δ, hδ, hinv.tables ⟨hinv.handleCount, hinv.count⟩ (fun _ => rfl) (fun _ _ => Iff.rfl) rfl rfl⟩
  | «break» dev _ ih => exact ih.breakDeviceHandles dev
  | mount dev d hd hfree _ ih =>
    obtain ⟨δ, hδ, hinv⟩ := ih
    exact ⟨δ, hδ, hinv.mount hfree hd⟩

/-- What leads to an object is an open handle. -/
theorem handleToObject_open {s : Vfs} {h : ℤ} {r : ObjRef} (hr : handleToObject p s h = some r) :
    ∃ i < p.nHandles, h = i ∧ 0 < (s.handle i).useCount := by
  obtain ⟨f, hf, -⟩ := Option.bind_eq_some_iff.mp ((handleToObject_eq s h).symm.trans hr)
  unfold handleToFileDes at hf
  obtain ⟨i, hi, hif⟩ := Option.bind_eq_some_iff.mp hf
  split_ifs at hif with huse
  refine ⟨i, handleToPointer_lt hi, ?_, huse⟩
  unfold handleToPointer at hi
  split_ifs at hi
  have := Option.some.inj hi
  omega

/-- A forced unmount touches its device and nothing else just if all open handles are of the device, no
descriptor of it has lost its handles and no search is of the device. -/
theorem breakDeviceHandles_isolates_iff (h : TableRun p t) (dev : ℕ) :
    Isolates p dev t (t.breakDeviceHandles p dev) ↔ OnlyHandles p dev t := by
  obtain ⟨δ, -, hinv⟩ := h.inv
  have hspec := breakDeviceHandles_broken hinv dev
  have hsearch := search_breakDeviceHandles dev hinv
  constructor
  · intro hiso
    refine ⟨fun i hi huse => ?_, fun f hf r hr hdev => ?_, fun c r hr hdev => ?_⟩
    · by_contra hno
      push Not at hno
      have hsame : (breakDeviceHandles p dev t.vfs).handle i = t.vfs.handle i := hiso.handle i hi huse hno
      rw [hspec.handle, if_pos ⟨hi, huse⟩] at hsame
      rw [← hsame] at huse
      exact absurd huse (lt_irrefl 0)
    · rcases hspec.fd f with hsame | ⟨hhandle, -⟩
      · have hoff : ((breakDeviceHandles p dev t.vfs).fd f).handleCount < 1 := (hiso.fdOff f hf r hr hdev).1
        have hopen := (fdToObject_eq_some.mp hr).1
        rw [hsame] at hoff
        omega
      · exact hhandle
    · have hoff := hiso.searchOff c r hr hdev
      rw [hsearch, hr] at hoff
      exact absurd hoff (by simp)
  · intro hb
    exact
      { device := hspec.device
        handle := fun i hi huse hno => by
          obtain ⟨r, hr, hdev⟩ := hb.handle i hi huse
          exact absurd hdev (hno r hr)
        fd := fun f hf _ hno => by
          rcases hspec.fd f with hsame | ⟨-, ⟨r, hr, hdev⟩, -⟩
          · exact hsame
          · exact absurd hdev (hno r hr)
        inode := fun i hi r hr hne => (hspec.inode i hi r hr).1 hne
        search := fun c r hr _ => by rw [hsearch, hr]
        usable := fun i r hr hne => by
          obtain ⟨k, hk, rfl, huse⟩ := handleToObject_open hr
          obtain ⟨q, hq, hdev⟩ := hb.handle k hk huse
          exact absurd (Option.some.inj (hq.symm.trans hr) ▸ hdev) hne
        handleOff := fun i hi r hr _ => by
          obtain ⟨k, -, hik, huse⟩ := handleToObject_open hr
          obtain rfl : i = k := by omega
          change ((breakDeviceHandles p dev t.vfs).handle i).useCount < 1
          rw [hspec.handle, if_pos ⟨hi, huse⟩]
          exact Int.zero_lt_one
        fdOff := fun f hf r hr hdev => by
          obtain ⟨k, hk, hkf⟩ := hb.fd f hf r hr hdev
          change ((breakDeviceHandles p dev t.vfs).fd f).handleCount < 1 ∧
            ((breakDeviceHandles p dev t.vfs).fd f).inodeId = none
          rw [hspec.off k hk f r hkf hr hdev]
          exact ⟨Int.zero_lt_one, rfl⟩
        inodeOff := fun i hi r hr hdev => hspec.inodeOff hb.fd hi hr hdev
        searchOff := fun c r hr hdev => absurd hdev (hb.search c r hr) }

/-- A call of `yaffs_open` on sample devices. -/
def sampleOpen (obj dir : Option ObjRef) (name : Name) (oCreat : Bool) : Call :=
  .openSharing
    { pathOk := true, obj := obj, dir := dir, name := name, loop := false
      access := .rdWr, oCreat := oCreat, oExcl := false, oTrunc := false, oAppend := false
      shareRead := true, shareWrite := true, mayRead := true, mayWrite := true }

/-- Blank sample devices are mounted. -/
def sampleTables : Tables :=
  ⟨initHandles fun _ => freshDev sampleGeometry fun _ => false, fun _ => none⟩

theorem sampleTables_run : TableRun sampleVfs sampleTables :=
  .start _ fun _ => freshDev_tied sampleGeometry fun _ => false

/-- A file is created on device 0 and its handle duplicated. -/
def sampleFile : Tables :=
  (sampleTables.call sampleVfs (sampleOpen none (some ⟨0, objectIdRoot⟩) "a".toList true)).call sampleVfs (.dup 0)

/-- Only device 0 has handles, and they are released. -/
theorem sampleFile_isolated : Isolates sampleVfs 0 sampleFile (sampleFile.breakDeviceHandles sampleVfs 0) := by
  have hrun : TableRun sampleVfs sampleFile := (sampleTables_run.call _).call _
  have hhandles : ∀ h < 100, 0 < (sampleFile.vfs.handle h).useCount →
      ((handleToObject sampleVfs sampleFile.vfs h).map ObjRef.dev) = some 0 := by decide +kernel
  have hsearch : ∀ c < 10, sampleFile.vfs.dscInUse c = false := by decide +kernel
  have hfds : ∀ f < 100, (fdToObject sampleVfs sampleFile.vfs f).isSome = true →
      handleToFileDes sampleVfs sampleFile.vfs 0 = some f := by decide +kernel
  refine (breakDeviceHandles_isolates_iff hrun 0).mpr
    ⟨fun h hh huse => ?_, fun f hf r hr _ => ⟨0, by decide, hfds f hf (by rw [hr]; rfl)⟩, fun c r hr => ?_⟩
  · obtain ⟨r, hr, hdev⟩ := Option.map_eq_some_iff.mp (hhandles h hh huse)
    exact ⟨r, hr, hdev⟩
  · unfold Tables.search at hr
    split_ifs at hr with hc
    rw [hsearch c hc.1] at hc
    exact absurd hc.2 Bool.false_ne_true

/-- The root directories of devices 0 and 1 are open. -/
def sampleTwo : Tables :=
  (sampleTables.call sampleVfs (sampleOpen (some ⟨0, objectIdRoot⟩) none [] false)).call sampleVfs
    (sampleOpen (some ⟨1, objectIdRoot⟩) none [] false)

/-- The handle of device 1 is closed with those of device 0. -/
theorem sampleTwo_not_isolated : ∃ t, TableRun sampleVfs t ∧
    ¬Isolates sampleVfs 0 t (t.breakDeviceHandles sampleVfs 0) := by
  refine ⟨sampleTwo, (sampleTables_run.call _).call _, fun hiso => ?_⟩
  have hobj : handleToObject sampleVfs sampleTwo.vfs 1 = some ⟨1, objectIdRoot⟩ := by decide +kernel
  have hoff : handleToObject sampleVfs (sampleTwo.breakDeviceHandles sampleVfs 0).vfs 1 = none := by decide +kernel
  have hkept := hiso.usable 1 _ hobj Nat.one_ne_zero
  rw [hoff] at hkept
  exact absurd hkept (by simp)

end Runs

end Yaffs
