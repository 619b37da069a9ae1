import Yaffs.Sharing

/-!
# Directory handles

A descriptor's file position and its directory search context share one union, `v`. A directory
handle keeps its context until its last close unless `yaffs_lseek`, which does not look at
`isDir`, stores a position over it; and reading a directory handle below the length of the
directory takes the directory object to the file data routines.

Between two states `Closes` says that directory descriptors only close, each releasing the context it
held and no other; an open that succeeds takes a free one.
-/

namespace Yaffs

variable (p : VfsParam)

/-! ## The calls on handles -/

/-- `whence` of `yaffs_lseek`. -/
inductive Whence
  | seekSet
  | seekCur
  | seekEnd
  | other
  deriving DecidableEq, Repr

/-- The position `yaffs_lseek` computes; `-1` where it finds none. -/
def Whence.pos (whence : Whence) (position length offset : ℤ) : ℤ :=
  match whence with
  | .seekSet => if 0 ≤ offset then offset else -1
  | .seekCur => if 0 ≤ position + offset then position + offset else -1
  | .seekEnd => if 0 ≤ length + offset then length + offset else -1
  | .other => -1

/-- `yaffs_lseek`. -/
def lseek (h offset : ℤ) (whence : Whence) (s : Vfs) : Vfs × ℤ :=
  match handleToFileDes p s h, handleToObject p s h with
  | some f, some r =>
    if maxFileOffset < offset then (s, -1)
    else
      let pos := whence.pos (s.fd f).v (getObjLength p s r) offset
      if 0 ≤ pos ∧ pos ≤ maxFileOffset then (s.modFd f fun fd => { fd with v := pos }, pos) else (s, -1)
  | _, _ => (s, -1)

/-- `yaffs_ftruncate` gets as far as resizing the object. -/
def ftruncates (s : Vfs) (f : ℕ) (r : ObjRef) (newSize : ℤ) : Bool :=
  (s.fd f).writing && !p.readOnly r.dev && decide (0 ≤ newSize) && decide (newSize ≤ maxFileOffset)

/-- `yaffs_ftruncate`. -/
def ftruncate (h newSize : ℤ) (s : Vfs) : Vfs × ℤ :=
  match handleToFileDes p s h, handleToObject p s h with
  | some f, some r =>
    if ftruncates p s f r newSize then
      let q := resizeFile (p.geometry r.dev) (p.env r.dev) r.obj newSize.toNat (s.dev r.dev)
      (s.onDev r.dev fun _ => q.1, if q.2 then 0 else -1)
    else (s, -1)
  | _, _ => (s, -1)

/-- `yaffs_Dofsync`. -/
def doFsync (h : ℤ) (datasync : Bool) (s : Vfs) : Vfs × ℤ :=
  match handleToObject p s h with
  | none => (s, -1)
  | some r =>
    if p.readOnly r.dev then (s, -1)
    else (s.onDev r.dev fun d => (flushFile (p.geometry r.dev) (p.env r.dev) r.obj datasync false d).1, 0)

/-- A call on handles. What `yaffs_readdir_fd` and `yaffs_rewinddir_fd` change lies in the search
context, outside the tables. -/
inductive HandleCall
  | call (c : Call)
  | lseek (h offset : ℤ) (whence : Whence)
  | ftruncate (h newSize : ℤ)
  | fsync (h : ℤ) (datasync : Bool)
  | readdirFd (h : ℤ)
  | rewinddirFd (h : ℤ)
  deriving DecidableEq, Repr

/-- One call. -/
def Vfs.handleStep (s : Vfs) : HandleCall → Vfs
  | .call c => s.step p c
  | .lseek h offset whence => (Yaffs.lseek p h offset whence s).1
  | .ftruncate h newSize => (Yaffs.ftruncate p h newSize s).1
  | .fsync h datasync => (doFsync p h datasync s).1
  | .readdirFd _ => s
  | .rewinddirFd _ => s

/-- A sequence of calls. -/
def Vfs.handleRun (s : Vfs) (cs : List HandleCall) : Vfs :=
  cs.foldl (Vfs.handleStep p) s

/-! ## The objects that reach the file data routines -/

/-- The objects the loop of `yaffsfs_do_read` passes to `yaffs_file_rd`. -/
def readLoopObjs (h : ℤ) : ℕ → ℕ → ℕ → Vfs → List ObjRef
  | 0, _, _, _ => []
  | fuel + 1, n, pos, s =>
    if n = 0 then []
    else
      let nToRead := min n (rwSize - pos % rwSize)
      match handleToObject p s h with
      | none => []
      | some r =>
        let s := s.onDev r.dev fun d => (fileRd (p.geometry r.dev) (p.env r.dev) r.obj pos nToRead d).1
        r :: readLoopObjs h fuel (n - nToRead) (pos + nToRead) s

/-- The objects `yaffsfs_do_read` passes to `yaffs_file_rd`. -/
def readObjs (h : ℤ) (nbyte : ℕ) (isPread : Bool) (offset : ℤ) (s : Vfs) : List ObjRef :=
  match handleToFileDes p s h, handleToObject p s h with
  | some f, some r =>
    if !(s.fd f).reading || decide (maxRwSize < nbyte) then []
    else
      let startPos := if isPread then offset else (s.fd f).v
      let nbyte := min nbyte ((getObjLength p s r : ℤ) - startPos).toNat
      if outOfRange startPos nbyte then [] else readLoopObjs p h nbyte nbyte startPos.toNat (getHandle p h s)
  | _, _ => []

/-- The objects the loop of `yaffsfs_do_write` passes to `yaffs_wr_file`. -/
def writeLoopObjs (h : ℤ) : ℕ → List UInt8 → ℕ → Vfs → List ObjRef
  | 0, _, _, _ => []
  | fuel + 1, buf, pos, s =>
    if buf.length = 0 then []
    else
      let nToWrite := min buf.length (rwSize - pos % rwSize)
      match handleToObject p s h with
      | none => []
      | some r =>
        if p.readOnly r.dev then []
        else
          let w := wrFile (p.geometry r.dev) (p.env r.dev) r.obj (buf.take nToWrite) pos false (s.dev r.dev)
          let s := s.onDev r.dev fun _ => w.1
          r :: if w.2 = nToWrite then writeLoopObjs h fuel (buf.drop nToWrite) (pos + nToWrite) s else []

/-- The objects `yaffsfs_do_write` passes to `yaffs_wr_file`. -/
def writeObjs (h : ℤ) (buf : List UInt8) (isPwrite : Bool) (offset : ℤ) (s : Vfs) : List ObjRef :=
  match handleToFileDes p s h, handleToObject p s h with
  | some f, some r =>
    if !(s.fd f).writing || p.readOnly r.dev then []
    else
      let startPos := if (s.fd f).append then (getObjLength p s r : ℤ) else if isPwrite then offset
        else (s.fd f).v
      if outOfRange startPos buf.length then []
      else writeLoopObjs p h buf.length buf startPos.toNat (getHandle p h s)
  | _, _ => []

/-- The handle of a call that reads, writes, seeks or truncates. -/
def HandleCall.dataHandle : HandleCall → Option ℤ
  | .call (.read h _ _ _) => some h
  | .call (.write h _ _ _) => some h
  | .lseek h _ _ => some h
  | .ftruncate h _ => some h
  | _ => none

/-- The objects such a call passes to the file data routines. -/
def HandleCall.dataObjs (s : Vfs) : HandleCall → List ObjRef
  | .call (.read h nbyte isPread offset) => readObjs p h nbyte isPread offset s
  | .call (.write h buf isPwrite offset) => writeObjs p h buf isPwrite offset s
  | .ftruncate h newSize =>
    match handleToFileDes p s h, handleToObject p s h with
    | some f, some r => if ftruncates p s f r newSize then [r] else []
    | _, _ => []
  | _ => []

/-! ## Directory descriptors -/

/-- The descriptor is open on a directory. -/
def DirOpen (s : Vfs) (f : ℕ) : Prop :=
  0 < (s.fd f).handleCount ∧ (s.fd f).isDir = true

/-- Every open directory descriptor has a search context of its own, and every context in use one. -/
structure DirsHeld (s : Vfs) : Prop where
  held : ∀ f < p.nHandles, DirOpen s f → ∃ k < p.nDsc, p.dscAddr k = (s.fd f).v ∧ s.dscInUse k = true
  own : ∀ f < p.nHandles, ∀ g < p.nHandles, DirOpen s f → DirOpen s g → (s.fd f).v = (s.fd g).v → f = g
  used : ∀ k < p.nDsc, s.dscInUse k = true → ∃ f < p.nHandles, DirOpen s f ∧ (s.fd f).v = p.dscAddr k
  notWriting : ∀ f < p.nHandles, DirOpen s f → (s.fd f).writing = false

/-- A call keeps the contexts of the directory descriptors : one that stays open has the context it
had, one that is closed has released it, one that is opened has taken a free one, no other
context is taken or released, and no directory reaches the file data routines. -/
structure KeepsDirs (s : Vfs) (c : HandleCall) : Prop where
  stays : ∀ f < p.nHandles, DirOpen s f → DirOpen (s.handleStep p c) f →
    ((s.handleStep p c).fd f).v = (s.fd f).v
  released : ∀ k < p.nDsc, s.dscInUse k = true → ((s.handleStep p c).dscInUse k = false ↔
    ∃ f < p.nHandles, DirOpen s f ∧ (s.fd f).v = p.dscAddr k ∧ ¬DirOpen (s.handleStep p c) f)
  taken : ∀ k < p.nDsc, s.dscInUse k = false → ((s.handleStep p c).dscInUse k = true ↔
    ∃ f < p.nHandles, ¬DirOpen s f ∧ DirOpen (s.handleStep p c) f ∧ ((s.handleStep p c).fd f).v = p.dscAddr k)
  opened : ∀ f < p.nHandles, ¬DirOpen s f → DirOpen (s.handleStep p c) f →
    ∃ k < p.nDsc, s.dscInUse k = false ∧ ((s.handleStep p c).fd f).v = p.dscAddr k
  noData : ∀ h, c.dataHandle = some h → ∀ f, handleToFileDes p s h = some f → DirOpen s f →
    c.dataObjs p s = []

/-- The call does no harm to a directory handle : it stores no position over the search context and reads
nothing below the length of the directory. -/
def Harmless (s : Vfs) : HandleCall → Prop
  | .lseek h offset whence => ∀ f r, handleToFileDes p s h = some f → handleToObject p s h = some r →
    (s.fd f).isDir = true → maxFileOffset < offset ∨
      whence.pos (s.fd f).v (getObjLength p s r) offset < 0 ∨
      maxFileOffset < whence.pos (s.fd f).v (getObjLength p s r) offset ∨
      whence.pos (s.fd f).v (getObjLength p s r) offset = (s.fd f).v
  | .call (.read h nbyte isPread offset) => ∀ f r, handleToFileDes p s h = some f →
    handleToObject p s h = some r → (s.fd f).isDir = true → nbyte = 0 ∨ maxRwSize < nbyte ∨
      (getObjLength p s r : ℤ) ≤ (if isPread then offset else (s.fd f).v) ∨
      outOfRange (if isPread then offset else (s.fd f).v)
        (min nbyte ((getObjLength p s r : ℤ) - if isPread then offset else (s.fd f).v).toNat) = true
  | _ => True

variable {p} {s s' s'' : Vfs}

/-! ## Directory descriptors close -/

/-- No directory descriptor is opened, and those that are closed release their contexts. -/
structure Closes (p : VfsParam) (s s' : Vfs) : Prop where
  stays : ∀ f < p.nHandles, DirOpen s' f →
    DirOpen s f ∧ (s'.fd f).v = (s.fd f).v ∧ (s'.fd f).writing = (s.fd f).writing
  inUse : ∀ k < p.nDsc, s'.dscInUse k = true ↔ s.dscInUse k = true ∧
    ∀ f < p.nHandles, DirOpen s f → (s.fd f).v = p.dscAddr k → DirOpen s' f

/-- The directory descriptors are as before. -/
theorem Closes.same (hopen : ∀ f < p.nHandles, DirOpen s' f ↔ DirOpen s f)
    (hfd : ∀ f < p.nHandles, DirOpen s f → (s'.fd f).v = (s.fd f).v ∧ (s'.fd f).writing = (s.fd f).writing)
    (hdsc : ∀ k < p.nDsc, s'.dscInUse k = s.dscInUse k) : Closes p s s' where
  stays f hf ho := ⟨(hopen f hf).mp ho, hfd f hf ((hopen f hf).mp ho)⟩
  inUse k hk := by
    rw [hdsc k hk]
    exact ⟨fun h => ⟨h, fun f hf ho _ => (hopen f hf).mpr ho⟩, fun h => h.1⟩

theorem Closes.tables (hfd : s'.fd = s.fd) (hdsc : s'.dscInUse = s.dscInUse) : Closes p s s' :=
  Closes.same (fun f _ => by unfold DirOpen; rw [hfd]) (fun f _ _ => by rw [hfd]; exact ⟨rfl, rfl⟩)
    fun k _ => by rw [hdsc]

theorem Closes.refl (s : Vfs) : Closes p s s :=
  Closes.tables rfl rfl

theorem Closes.trans (h : Closes p s s') (h' : Closes p s' s'') : Closes p s s'' where
  stays f hf ho := by
    obtain ⟨ho', hv', hw'⟩ := h'.stays f hf ho
    obtain ⟨hs, hv, hw⟩ := h.stays f hf ho'
    exact ⟨hs, hv'.trans hv, hw'.trans hw⟩
  inUse k hk := by
    rw [h'.inUse k hk, h.inUse k hk]
    constructor
    · rintro ⟨⟨hin, hkeep⟩, hkeep'⟩
      refine ⟨hin, fun f hf ho hv => ?_⟩
      have ho' := hkeep f hf ho hv
      exact hkeep' f hf ho' ((h.stays f hf ho').2.1.trans hv)
    · rintro ⟨hin, hkeep⟩
      refine ⟨⟨hin, fun f hf ho hv => (h'.stays f hf (hkeep f hf ho hv)).1⟩, fun f hf ho' hv => ?_⟩
      obtain ⟨ho, hv', -⟩ := h.stays f hf ho'
      exact hkeep f hf ho (hv'.symm.trans hv)

/-- A descriptor changes, and is on a directory neither before nor after, or keeps what a directory
descriptor needs. -/
theorem Closes.modFd {f : ℕ} {u : FileDes → FileDes}
    (h : (¬DirOpen s f ∧ ¬DirOpen (s.modFd f u) f) ∨ (DirOpen (s.modFd f u) f ↔ DirOpen s f) ∧
      (u (s.fd f)).v = (s.fd f).v ∧ (u (s.fd f)).writing = (s.fd f).writing) : Closes p s (s.modFd f u) := by
  have hother : ∀ g, g ≠ f → (s.modFd f u).fd g = s.fd g := fun g hg => by
    simp [Vfs.modFd, hg]
  have hself : (s.modFd f u).fd f = u (s.fd f) := by simp [Vfs.modFd]
  refine Closes.same (fun g _ => ?_) (fun g _ ho => ?_) fun _ _ => rfl
  · by_cases hg : g = f
    · subst hg
      rcases h with ⟨h1, h2⟩ | ⟨h1, -⟩
      · exact ⟨fun ho => absurd ho h2, fun ho => absurd ho h1⟩
      · exact h1
    · unfold DirOpen
      rw [hother g hg]
  · by_cases hg : g = f
    · subst hg
      rcases h with ⟨h1, -⟩ | ⟨-, h1⟩
      · exact absurd ho h1
      · rw [hself]
        exact h1
    · rw [hother g hg]
      exact ⟨rfl, rfl⟩

/-- The position of a descriptor moves, if it is not on a directory. -/
theorem Closes.position (f : ℕ) (v : ℤ) (h : f < p.nHandles → DirOpen s f → v = (s.fd f).v) :
    Closes p s (s.modFd f fun fd => { fd with v := v }) := by
  by_cases hf : f < p.nHandles
  · by_cases ho : DirOpen s f
    · refine Closes.modFd (Or.inr ⟨?_, h hf ho, rfl⟩)
      simp [DirOpen, Vfs.modFd]
    · refine Closes.modFd (Or.inl ⟨ho, ?_⟩)
      simpa [DirOpen, Vfs.modFd] using ho
  · refine Closes.same (fun g hg => ?_) (fun g hg _ => ?_) fun _ _ => rfl
    · have hne : g ≠ f := by omega
      simp [DirOpen, Vfs.modFd, hne]
    · have hne : g ≠ f := by omega
      simp [Vfs.modFd, hne]

theorem putFdInode_tables (f : ℕ) (s : Vfs) :
    (∀ g, g ≠ f → (putFdInode p f s).fd g = s.fd g) ∧
      ((putFdInode p f s).fd f).handleCount = (s.fd f).handleCount ∧
      (putFdInode p f s).dscInUse = s.dscInUse := by
  unfold putFdInode
  split
  · rename_i i _
    obtain ⟨hdsc, hfd, -⟩ := putInode_tables (p := p) (s := s) i
    simp only [Vfs.modFd, hfd, hdsc, Function.update_self]
    exact ⟨fun g hg => Function.update_of_ne hg _ _, trivial, trivial⟩
  · exact ⟨fun _ _ => rfl, rfl, rfl⟩

theorem putDir_tables (f : ℕ) (s : Vfs) :
    (∀ g, g ≠ f → (putDir p f s).fd g = s.fd g) ∧
      ((putDir p f s).fd f).handleCount = (s.fd f).handleCount ∧
      ∀ k, (putDir p f s).dscInUse k = (s.dscInUse k && !((s.fd f).isDir && decide (p.dscAddr k = (s.fd f).v))) := by
  unfold putDir
  split_ifs with hdir
  · refine ⟨fun g hg => ?_, ?_, fun k => ?_⟩
    · simp [Vfs.modFd, closedir, hg]
    · simp [Vfs.modFd, closedir]
    · simp only [Vfs.modFd, closedir, hdir, Bool.true_and]
      rfl
  · simp [hdir]

/-- An open descriptor is let go of once more, and closed when that was the last time. -/
theorem putFileDes_closes {f : ℕ} (hopen : f < p.nHandles → 0 < (s.fd f).handleCount) :
    Closes p s (putFileDes p f s) := by
  unfold putFileDes
  split_ifs with hf
  · have hpos := hopen hf
    have hself : (s.modFd f fun fd => { fd with handleCount := fd.handleCount - 1 }).fd f =
        { s.fd f with handleCount := (s.fd f).handleCount - 1 } := by simp [Vfs.modFd]
    have hother : ∀ g, g ≠ f → (s.modFd f fun fd => { fd with handleCount := fd.handleCount - 1 }).fd g = s.fd g :=
      fun g hg => by simp [Vfs.modFd, hg]
    simp only
    split_ifs with hlast
    · generalize hs₁ : (s.modFd f fun fd => { fd with handleCount := fd.handleCount - 1 }) = s₁ at *
      have hdsc₁ : s₁.dscInUse = s.dscInUse := by rw [← hs₁]; rfl
      obtain ⟨hfd, hcount, hdsc⟩ := putDir_tables (p := p) f s₁
      obtain ⟨hfd', hcount', hdsc'⟩ := putFdInode_tables (p := p) f (putDir p f s₁)
      have hends : ∀ g, g ≠ f → (putFdInode p f (putDir p f s₁)).fd g = s.fd g := fun g hg => by
        rw [hfd' g hg, hfd g hg, hother g hg]
      have hclosed : ¬DirOpen (putFdInode p f (putDir p f s₁)) f := by
        rintro ⟨ho, -⟩
        rw [hcount', hcount] at ho
        omega
      refine ⟨fun g _ ho => ?_, fun k _ => ?_⟩
      · have hg : g ≠ f := fun hg => hclosed (hg ▸ ho)
        unfold DirOpen at ho ⊢
        rw [hends g hg] at ho ⊢
        exact ⟨ho, rfl, rfl⟩
      · rw [hdsc', hdsc, hdsc₁, hself]
        simp only [Bool.and_eq_true, Bool.not_eq_true', Bool.and_eq_false_iff, decide_eq_false_iff_not]
        refine and_congr_right fun _ => ⟨fun hne g hg ho hv => ?_, fun hkeep => ?_⟩
        · by_cases hgf : g = f
          · subst hgf
            rcases hne with hne | hne
            · rw [ho.2] at hne
              exact Bool.noConfusion hne
            · exact absurd hv.symm hne
          · unfold DirOpen
            rw [hends g hgf]
            exact ho
        · by_contra hno
          push Not at hno
          have hdir : (s.fd f).isDir = true := by simpa using hno.1
          exact hclosed (hkeep f hf ⟨hpos, hdir⟩ hno.2.symm)
    · refine Closes.modFd (Or.inr ⟨?_, rfl, rfl⟩)
      unfold DirOpen
      rw [hself] at hlast ⊢
      simp only at hlast ⊢
      exact ⟨fun h => ⟨hpos, h.2⟩, fun h => ⟨by omega, h.2⟩⟩
  · exact Closes.refl s

/-- A handle is put back. -/
theorem putHandleAt_closes (h : VfsInv p 0 0 s) {i : ℕ} (hi : i < p.nHandles) : Closes p s (putHandleAt p i s) := by
  unfold putHandleAt
  split_ifs with huse
  · simp only
    split_ifs
    · have hself : (s.modHandle i fun hd => { hd with useCount := hd.useCount - 1 }).handle i =
          { s.handle i with useCount := (s.handle i).useCount - 1 } := by simp [Vfs.modHandle]
      rw [hself]
      simp only
      cases hf : (s.handle i).fdId with
      | none => exact Closes.tables rfl rfl
      | some f =>
        simp only
        have hput : Closes p (s.modHandle i fun hd => { hd with useCount := hd.useCount - 1 })
            (putFileDes p f (s.modHandle i fun hd => { hd with useCount := hd.useCount - 1 })) :=
          putFileDes_closes fun hlt => h.fd_open (fun _ => le_rfl) hi huse hf hlt
        have htake : Closes p s (s.modHandle i fun hd => { hd with useCount := hd.useCount - 1 }) :=
          Closes.tables rfl rfl
        exact (htake.trans hput).trans (Closes.tables rfl rfl)
    · exact Closes.tables rfl rfl
  · exact Closes.refl s

theorem putHandle_closes (h : VfsInv p 0 0 s) (hd : ℤ) : Closes p s (putHandle p hd s) := by
  unfold putHandle
  cases hi : handleToPointer p hd with
  | none => exact Closes.refl s
  | some i => exact putHandleAt_closes h (handleToPointer_lt hi)

theorem getHandle_tables (hd : ℤ) (s : Vfs) :
    (getHandle p hd s).fd = s.fd ∧ (getHandle p hd s).dscInUse = s.dscInUse := by
  unfold getHandle
  split
  · split_ifs <;> exact ⟨rfl, rfl⟩
  · exact ⟨rfl, rfl⟩

theorem close_closes (h : VfsInv p 0 0 s) (hd : ℤ) : Closes p s (close p hd s).1 := by
  unfold close
  split
  · rename_i r f _ _
    have hflush : VfsInv p 0 0 (if (s.fd f).isDir then s
        else s.onDev r.dev fun d => (flushFile (p.geometry r.dev) (p.env r.dev) r.obj false true d).1) := by
      split_ifs
      · exact h
      · exact (h.evolving r.dev (flushFile_evolving r.obj false true)).1
    refine Closes.trans ?_ (putHandle_closes hflush hd)
    split_ifs
    · exact Closes.refl s
    · exact Closes.tables rfl rfl
  · exact Closes.refl s

theorem dup_closes (h : VfsInv p 0 0 s) (hd : ℤ) : Closes p s (dup p hd s).1 := by
  unfold dup
  cases hf : handleToFileDes p s hd with
  | none => exact Closes.refl s
  | some f =>
    simp only
    obtain ⟨-, -, hsame, -⟩ := newHandle_spec h
    have hdsc : (newHandle p s).1.dscInUse = s.dscInUse := by
      unfold newHandle
      split <;> rfl
    have hnew : Closes p s (newHandle p s).1 := Closes.tables hsame.fd hdsc
    split
    · exact hnew
    · rename_i i _
      have hopen := h.handle_open (fun _ => le_rfl) hf
      have hto : Closes p s ((newHandle p s).1.modHandle i fun hd => { hd with fdId := some f }) :=
        hnew.trans (Closes.tables rfl rfl)
      have hup : Closes p ((newHandle p s).1.modHandle i fun hd => { hd with fdId := some f })
          (((newHandle p s).1.modHandle i fun hd => { hd with fdId := some f }).modFd f
            fun fd => { fd with handleCount := fd.handleCount + 1 }) := by
        refine Closes.modFd (Or.inr ⟨?_, rfl, rfl⟩)
        unfold DirOpen
        simp only [Vfs.modFd, Vfs.modHandle, Function.update_self, hsame.fd]
        exact ⟨fun ho => ⟨hopen, ho.2⟩, fun ho => ⟨by omega, ho.2⟩⟩
      exact hto.trans hup

/-! ## Reading and writing -/

theorem doReadLoop_tables (h : ℤ) (fuel : ℕ) : ∀ (n pos : ℕ) (s : Vfs),
    (doReadLoop p h fuel n pos s).1.fd = s.fd ∧ (doReadLoop p h fuel n pos s).1.dscInUse = s.dscInUse := by
  induction fuel with
  | zero => exact fun _ _ _ => ⟨rfl, rfl⟩
  | succ fuel ih =>
    intro n pos s
    unfold doReadLoop
    split_ifs
    · exact ⟨rfl, rfl⟩
    · simp only
      split
      · exact ⟨rfl, rfl⟩
      · exact ih _ _ _

theorem doWriteLoop_tables (h : ℤ) (fuel : ℕ) : ∀ (buf : List UInt8) (pos : ℕ) (s : Vfs),
    (doWriteLoop p h fuel buf pos s).1.fd = s.fd ∧ (doWriteLoop p h fuel buf pos s).1.dscInUse = s.dscInUse := by
  induction fuel with
  | zero => exact fun _ _ _ => ⟨rfl, rfl⟩
  | succ fuel ih =>
    intro buf pos s
    unfold doWriteLoop
    split_ifs
    · exact ⟨rfl, rfl⟩
    · simp only
      split
      · exact ⟨rfl, rfl⟩
      · split_ifs
        · exact ⟨rfl, rfl⟩
        · exact ih _ _ _
        · exact ⟨rfl, rfl⟩

theorem Closes.ite {α : Type*} {c : Prop} [Decidable c] {t t' : Vfs × α} (h : c → Closes p s t.1)
    (h' : ¬c → Closes p s t'.1) : Closes p s (if c then t else t').1 := by
  split_ifs with hc
  · exact h hc
  · exact h' hc

/-- The transfer is over : the handle is put back, and the position moves unless the descriptor is on a
directory. -/
theorem Closes.ends {t : Vfs} (hinv : VfsInv p 0 0 t) (ht : Closes p s t) (hd : ℤ) (f : ℕ) (v : ℤ) {c : Prop}
    [Decidable c] (hv : ¬c → f < p.nHandles → DirOpen s f → v = (s.fd f).v) :
    Closes p s (if c then putHandle p hd t else (putHandle p hd t).modFd f fun fd => { fd with v := v }) := by
  have hput := ht.trans (putHandle_closes hinv hd)
  split_ifs with hc
  · exact hput
  · refine hput.trans (Closes.position f v fun hf ho => ?_)
    obtain ⟨hs, hvs, -⟩ := hput.stays f hf ho
    exact (hv hc hf hs).trans hvs.symm

/-- A read that does no harm to a directory descriptor transfers nothing. -/
theorem Harmless.nbyte_eq_zero {hd offset : ℤ} {nbyte f : ℕ} {isPread : Bool} {r : ObjRef}
    (h : Harmless p s (.call (.read hd nbyte isPread offset))) (hf : handleToFileDes p s hd = some f)
    (hr : handleToObject p s hd = some r) (hdir : (s.fd f).isDir = true) (hsmall : ¬maxRwSize < nbyte)
    (hrange : ¬outOfRange (if isPread then offset else (s.fd f).v)
      (min nbyte ((getObjLength p s r : ℤ) - if isPread then offset else (s.fd f).v).toNat) = true) :
    min nbyte ((getObjLength p s r : ℤ) - if isPread then offset else (s.fd f).v).toNat = 0 := by
  rcases h f r hf hr hdir with hz | hbig | hlen | hout
  · omega
  · exact absurd hbig hsmall
  · omega
  · exact absurd hout hrange

theorem doRead_closes (h : VfsInv p 0 0 s) {hd offset : ℤ} {nbyte : ℕ} {isPread : Bool}
    (hharm : Harmless p s (.call (.read hd nbyte isPread offset))) :
    Closes p s (doRead p hd nbyte isPread offset s).1 := by
  unfold doRead
  cases hf : handleToFileDes p s hd with
  | none => exact Closes.refl s
  | some f =>
    cases hr : handleToObject p s hd with
    | none => exact Closes.refl s
    | some r =>
      refine Closes.ite (fun _ => Closes.refl s) fun hsmall => ?_
      have hget : Closes p s (getHandle p hd s) := Closes.tables (getHandle_tables hd s).1 (getHandle_tables hd s).2
      have hinv := (getHandle_spec h hd).1
      refine Closes.ite (fun _ => hget.trans (putHandle_closes hinv hd)) fun hrange => ?_
      obtain ⟨hfd, hdsc⟩ := doReadLoop_tables (p := p) hd
        (min nbyte ((getObjLength p s r : ℤ) - if isPread then offset else (s.fd f).v).toNat)
        (min nbyte ((getObjLength p s r : ℤ) - if isPread then offset else (s.fd f).v).toNat)
        (if isPread then offset else (s.fd f).v).toNat (getHandle p hd s)
      refine Closes.ends (doReadLoop_spec hd _ _ _ hinv).1 (hget.trans (Closes.tables hfd hdsc)) hd f _
        fun hpread _ ho => ?_
      -- Nothing is read from a directory, so that the position stored is the one there was.
      simp only [Bool.or_eq_true, Bool.not_eq_true', decide_eq_true_eq, not_or] at hsmall
      have hnone := hharm.nbyte_eq_zero hf hr ho.2 hsmall.2 hrange
      simp only [hnone, doReadLoop, Nat.cast_zero, add_zero]
      rw [if_neg hpread]

theorem doWrite_closes (h : VfsInv p 0 0 s) (hheld : DirsHeld p s) (hd offset : ℤ) (buf : List UInt8)
    (isPwrite : Bool) : Closes p s (doWrite p hd buf isPwrite offset s).1 := by
  unfold doWrite
  cases hf : handleToFileDes p s hd with
  | none => exact Closes.refl s
  | some f =>
    cases hr : handleToObject p s hd with
    | none => exact Closes.refl s
    | some r =>
      refine Closes.ite (fun _ => Closes.refl s) fun hwriting => ?_
      have hget : Closes p s (getHandle p hd s) := Closes.tables (getHandle_tables hd s).1 (getHandle_tables hd s).2
      have hinv := (getHandle_spec h hd).1
      refine Closes.ite (fun _ => hget.trans (putHandle_closes hinv hd)) fun _ => ?_
      obtain ⟨hfd, hdsc⟩ := doWriteLoop_tables (p := p) hd buf.length buf (if (s.fd f).append then
        (getObjLength p s r : ℤ) else if isPwrite then offset else (s.fd f).v).toNat (getHandle p hd s)
      refine Closes.ends (doWriteLoop_spec hd _ _ _ hinv).1 (hget.trans (Closes.tables hfd hdsc)) hd f _
        fun _ hlt ho => ?_
      -- A directory descriptor is not writing.
      rw [hheld.notWriting f hlt ho] at hwriting
      simp at hwriting

theorem lseek_closes {h offset : ℤ} {whence : Whence} (hharm : Harmless p s (.lseek h offset whence)) :
    Closes p s (lseek p h offset whence s).1 := by
  unfold lseek
  cases hf : handleToFileDes p s h with
  | none => exact Closes.refl s
  | some f =>
    cases hr : handleToObject p s h with
    | none => exact Closes.refl s
    | some r =>
      refine Closes.ite (fun _ => Closes.refl s) fun hoffset => ?_
      refine Closes.ite (fun hpos => Closes.position f _ fun _ ho => ?_) fun _ => Closes.refl s
      rcases hharm f r hf hr ho.2 with hbig | hneg | hbig | hsame
      · exact absurd hbig hoffset
      · omega
      · omega
      · exact hsame

/-! ## Opening -/

/-- The descriptor `f` is opened on a directory and takes the search context `k`. -/
structure TakesDsc (p : VfsParam) (f k : ℕ) (s s' : Vfs) : Prop where
  lt : f < p.nHandles ∧ k < p.nDsc
  fresh : ¬DirOpen s f ∧ s.dscInUse k = false
  opened : DirOpen s' f ∧ (s'.fd f).v = p.dscAddr k ∧ (s'.fd f).writing = false
  others : ∀ g, g ≠ f → s'.fd g = s.fd g
  inUse : s'.dscInUse = Function.update s.dscInUse k true

theorem newHandleAndFileDes_closes (s : Vfs) : Closes p s (newHandleAndFileDes p s).1 ∧
    (newHandleAndFileDes p s).1.dscInUse = s.dscInUse ∧
    ∀ i f, (newHandleAndFileDes p s).2 = some (i, f) → ¬DirOpen s f ∧ ¬DirOpen (newHandleAndFileDes p s).1 f ∧
      ∀ g, g ≠ f → (newHandleAndFileDes p s).1.fd g = s.fd g := by
  have hnew : (newHandle p s).1.fd = s.fd ∧ (newHandle p s).1.dscInUse = s.dscInUse := by
    unfold newHandle
    split <;> exact ⟨rfl, rfl⟩
  have hto : Closes p s (newHandle p s).1 := Closes.tables hnew.1 hnew.2
  unfold newHandleAndFileDes
  simp only
  split
  · exact ⟨hto, hnew.2, by simp⟩
  · split
    · rename_i h _ _ f hfind
      have hclosed : (s.fd f).handleCount < 1 := by
        rw [← hnew.1]
        simpa using List.find?_some hfind
      have hfresh : ¬DirOpen ((newHandle p s).1.modFd f fun _ => { inodeId := none, handleCount := 1 }) f := by
        simp [DirOpen, Vfs.modFd]
      have hmod : Closes p (newHandle p s).1
          ((newHandle p s).1.modFd f fun _ => { inodeId := none, handleCount := 1 }) := by
        refine Closes.modFd (Or.inl ⟨fun ho => ?_, hfresh⟩)
        have := ho.1
        rw [hnew.1] at this
        omega
      refine ⟨(hto.trans hmod).trans (Closes.tables rfl rfl), hnew.2, fun j g hg => ?_⟩
      obtain ⟨-, rfl⟩ := Prod.mk.inj (Option.some.inj hg)
      refine ⟨fun ho => ?_, hfresh, fun g hg => ?_⟩
      · have := ho.1
        omega
      · simp [Vfs.modFd, Vfs.modHandle, hg, hnew.1]
    · exact ⟨hto.trans (Closes.tables rfl rfl), hnew.2, by simp⟩

theorem openCreate_tables (a : OpenArgs) (s : Vfs) :
    (openCreate p a s).1.fd = s.fd ∧ (openCreate p a s).1.dscInUse = s.dscInUse := by
  unfold openCreate
  split
  · exact ⟨rfl, rfl⟩
  · split_ifs
    · exact ⟨rfl, rfl⟩
    · simp only
      split <;> exact ⟨rfl, rfl⟩

theorem getInodeIdForObject_tables (r : ObjRef) (s : Vfs) :
    (getInodeIdForObject p r s).1.fd = s.fd ∧ (getInodeIdForObject p r s).1.dscInUse = s.dscInUse := by
  unfold getInodeIdForObject
  simp only
  split <;> exact ⟨rfl, rfl⟩

theorem openObj_dscInUse (a : OpenArgs) (f : ℕ) (r : ObjRef) (isDir : Bool) (dsc : Option ℤ) (s : Vfs) :
    (openObj p a f r isDir dsc s).dscInUse = s.dscInUse := by
  have hget := (getInodeIdForObject_tables (p := p) r s).2
  unfold openObj
  simp only
  split_ifs <;> split <;> exact hget

theorem openObj_fd (a : OpenArgs) (f : ℕ) (r : ObjRef) (isDir : Bool) (dsc : Option ℤ) (s : Vfs) :
    ∃ inodeId, (openObj p a f r isDir dsc s).fd = Function.update s.fd f (a.opensFd isDir dsc inodeId (s.fd f)) := by
  have h := (openObj_tables (p := p) a f r isDir dsc s).2
  rw [(getInodeIdForObject_tables r s).1] at h
  exact ⟨_, h⟩

/-- A file is opened. -/
theorem openObj_closes (a : OpenArgs) {f : ℕ} (r : ObjRef) (dsc : Option ℤ) (hf : ¬DirOpen s f) :
    Closes p s (openObj p a f r false dsc s) := by
  obtain ⟨inodeId, hfd⟩ := openObj_fd (p := p) a f r false dsc s
  have hmod : Closes p s (s.modFd f (a.opensFd false dsc inodeId)) :=
    Closes.modFd (Or.inl ⟨hf, by simp [DirOpen, Vfs.modFd, OpenArgs.opensFd]⟩)
  exact hmod.trans (Closes.tables hfd (openObj_dscInUse a f r false dsc s))

/-- A directory is opened with the search context `k`. -/
theorem openObj_takes (a : OpenArgs) {f k : ℕ} (r : ObjRef) (hlt : f < p.nHandles) (hcount : 0 < (s.fd f).handleCount)
    (hf : ¬DirOpen s f) (hk : k < p.nDsc) (hfree : s.dscInUse k = false) :
    TakesDsc p f k s (openObj p a f r true (some (p.dscAddr k))
      { s with dscInUse := Function.update s.dscInUse k true }) := by
  obtain ⟨inodeId, hfd⟩ := openObj_fd (p := p) a f r true (some (p.dscAddr k))
    { s with dscInUse := Function.update s.dscInUse k true }
  refine ⟨⟨hlt, hk⟩, ⟨hf, hfree⟩, ?_, fun g hg => ?_, openObj_dscInUse _ _ _ _ _ _⟩
  · unfold DirOpen
    rw [hfd]
    simp [OpenArgs.opensFd, OpenArgs.writeRequested, hcount]
  · rw [hfd, Function.update_of_ne hg]

/-- The descriptor was unused before its handle was taken. -/
theorem TakesDsc.before {f k : ℕ} (h : TakesDsc p f k s' s'') (hf : ¬DirOpen s f)
    (hfd : ∀ g, g ≠ f → s'.fd g = s.fd g) (hdsc : s'.dscInUse = s.dscInUse) : TakesDsc p f k s s'' where
  lt := h.lt
  fresh := ⟨hf, hdsc ▸ h.fresh.2⟩
  opened := h.opened
  others g hg := (h.others g hg).trans (hfd g hg)
  inUse := by rw [h.inUse, hdsc]

theorem opendir_cases (s : Vfs) : opendir p s = (s, none) ∨ ∃ k < p.nDsc, s.dscInUse k = false ∧
    opendir p s = ({ s with dscInUse := Function.update s.dscInUse k true }, some (p.dscAddr k)) := by
  unfold opendir
  split
  · rename_i k hk
    refine Or.inr ⟨k, List.mem_range.mp (List.mem_of_find?_eq_some hk), ?_, rfl⟩
    simpa using List.find?_some hk
  · exact Or.inl rfl

/-- An open that fails gives back the search context it took. -/
theorem openFails_closes (h : VfsInv p 0 0 s) {i k : ℕ} (hi : i < p.nHandles) (hk : k < p.nDsc)
    (hinj : ∀ j < p.nDsc, p.dscAddr j = p.dscAddr k → j = k) (hfree : s.dscInUse k = false) :
    Closes p s (openFails p i (some (p.dscAddr k)) { s with dscInUse := Function.update s.dscInUse k true }) := by
  have hinv : VfsInv p 0 0 (closedir p (p.dscAddr k) { s with dscInUse := Function.update s.dscInUse k true }) :=
    h.tables ⟨h.handleCount, h.count⟩ (fun _ => rfl) (fun _ _ => Iff.rfl) rfl rfl
  have hback : Closes p s (closedir p (p.dscAddr k) { s with dscInUse := Function.update s.dscInUse k true }) := by
    refine Closes.same (fun _ _ => Iff.rfl) (fun _ _ _ => ⟨rfl, rfl⟩) fun j hj => ?_
    by_cases hjk : j = k
    · subst hjk
      simp [closedir, hfree]
    · have hne : p.dscAddr j ≠ p.dscAddr k := fun heq => hjk (hinj j hj heq)
      simp [closedir, hjk, hne]
  exact hback.trans (putHandleAt_closes hinv hi)

/-- An open takes a search context for the descriptor it opens on a directory, and closes nothing else. -/
theorem openSharing_closes {a : OpenArgs} (h : VfsInv p 0 0 s)
    (hinj : ∀ i < p.nDsc, ∀ j < p.nDsc, p.dscAddr i = p.dscAddr j → i = j)
    (hdir : ∀ r, a.dir = some r → namedDir (s.dev r.dev) r.obj = true) :
    Closes p s (openSharing p a s).1 ∨ ∃ f k, TakesDsc p f k s (openSharing p a s).1 := by
  unfold openSharing
  split_ifs
  · exact Or.inl (Closes.refl s)
  obtain ⟨hinv, -, hdev, hnew⟩ := newHandleAndFileDes_spec (fun _ => le_rfl) h
  obtain ⟨hcloses, hdsc, hfresh⟩ := newHandleAndFileDes_closes (p := p) s
  simp only
  cases hr : (newHandleAndFileDes p s).2 with
  | none => exact Or.inl hcloses
  | some hf =>
    obtain ⟨i, f⟩ := hf
    obtain ⟨hi, hlt, hcount, -⟩ := hnew i f hr
    obtain ⟨hfs, hft, hothers⟩ := hfresh i f hr
    simp only
    generalize (newHandleAndFileDes p s).1 = t at *
    cases hfound : a.found t with
    | some r =>
      simp only
      by_cases hdirectory : (t.obj r).variantType = .directory
      · simp only [hdirectory, decide_true, if_true]
        rcases opendir_cases (p := p) t with hnone | ⟨k, hk, hfree, hsome⟩
        · rw [hnone]
          have hdenied : openDenied p t a r true false = true := by simp [openDenied]
          simp only [Option.isSome_none, hdenied, if_true]
          exact Or.inl (hcloses.trans (putHandleAt_closes hinv hi))
        · rw [hsome]
          simp only
          split_ifs
          · exact Or.inl (hcloses.trans (openFails_closes hinv hi hk (fun j hj => hinj j hj k hk) hfree))
          · have htakes := openObj_takes a r hlt (by omega) hft hk hfree
            exact Or.inr ⟨f, k, htakes.before hfs hothers hdsc⟩
      · simp only [hdirectory, decide_false, Bool.false_eq_true, if_false]
        split_ifs
        · exact Or.inl (hcloses.trans (putHandleAt_closes hinv hi))
        · exact Or.inl (hcloses.trans (openObj_closes a r none hft))
    | none =>
      simp only
      obtain ⟨hfd, hdsc'⟩ := openCreate_tables (p := p) a t
      have hcreate : Closes p s (openCreate p a t).1 := hcloses.trans (Closes.tables hfd hdsc')
      rcases openCreate_spec (a := a) hinv (fun r hr => by rw [hdev]; exact hdir r hr) with
        ⟨dev, n, d', hsome, -, -, -, -, -⟩ | ⟨hnone, hinv', -⟩
      · rw [hsome]
        refine Or.inl (hcreate.trans (openObj_closes a _ none ?_))
        unfold DirOpen
        rw [hfd]
        exact hft
      · rw [hnone]
        exact Or.inl (hcreate.trans (putHandleAt_closes hinv' hi))

/-! ## Runs -/

theorem DirsHeld.closes (h : DirsHeld p s) (hc : Closes p s s') : DirsHeld p s' where
  held f hf ho := by
    obtain ⟨hs, hv, -⟩ := hc.stays f hf ho
    obtain ⟨k, hk, haddr, hin⟩ := h.held f hf hs
    refine ⟨k, hk, haddr.trans hv.symm, (hc.inUse k hk).mpr ⟨hin, fun g hg hog hvg => ?_⟩⟩
    rwa [h.own g hg f hf hog hs (hvg.trans haddr)]
  own f hf g hg ho hog hv := by
    obtain ⟨hs, hvf, -⟩ := hc.stays f hf ho
    obtain ⟨hsg, hvg, -⟩ := hc.stays g hg hog
    exact h.own f hf g hg hs hsg (hvf.symm.trans (hv.trans hvg))
  used k hk hin := by
    obtain ⟨hin', hkeep⟩ := (hc.inUse k hk).mp hin
    obtain ⟨f, hf, ho, hv⟩ := h.used k hk hin'
    have ho' := hkeep f hf ho hv
    exact ⟨f, hf, ho', (hc.stays f hf ho').2.1.trans hv⟩
  notWriting f hf ho := by
    obtain ⟨hs, -, hw⟩ := hc.stays f hf ho
    exact hw.trans (h.notWriting f hf hs)

theorem TakesDsc.dirOpen {f k : ℕ} (h : TakesDsc p f k s s') {g : ℕ} (hg : g ≠ f) : DirOpen s' g ↔ DirOpen s g := by
  unfold DirOpen
  rw [h.others g hg]

theorem DirsHeld.takes {f k : ℕ} (h : DirsHeld p s) (ht : TakesDsc p f k s s')
    (hinj : ∀ i < p.nDsc, ∀ j < p.nDsc, p.dscAddr i = p.dscAddr j → i = j) : DirsHeld p s' := by
  obtain ⟨⟨hf, hk⟩, ⟨hclosed, hfree⟩, ⟨hopen, hv, hw⟩, hothers, hin⟩ := ht
  have hold : ∀ g, g ≠ f → DirOpen s' g → DirOpen s g := fun g hg ho => by
    unfold DirOpen at ho ⊢
    rwa [hothers g hg] at ho
  -- The context was free, so that no descriptor has it.
  have hother : ∀ g < p.nHandles, g ≠ f → DirOpen s' g → (s'.fd g).v ≠ p.dscAddr k := by
    intro g hg hgf ho heq
    obtain ⟨j, hj, haddr, hinj'⟩ := h.held g hg (hold g hgf ho)
    rw [hothers g hgf] at heq
    rw [hinj j hj k hk (haddr.trans heq), hfree] at hinj'
    exact Bool.noConfusion hinj'
  refine ⟨fun g hg ho => ?_, fun g hg g' hg' ho ho' heq => ?_, fun j hj hused => ?_, fun g hg ho => ?_⟩
  · by_cases hgf : g = f
    · subst hgf
      exact ⟨k, hk, hv.symm, by rw [hin, Function.update_self]⟩
    · obtain ⟨j, hj, haddr, hused⟩ := h.held g hg (hold g hgf ho)
      refine ⟨j, hj, by rw [hothers g hgf]; exact haddr, ?_⟩
      rw [hin]
      by_cases hjk : j = k
      · rw [hjk, Function.update_self]
      · rwa [Function.update_of_ne hjk]
  · by_cases hgf : g = f <;> by_cases hgf' : g' = f
    · rw [hgf, hgf']
    · rw [hgf] at heq
      exact absurd (heq.symm.trans hv) (hother g' hg' hgf' ho')
    · rw [hgf'] at heq
      exact absurd (heq.trans hv) (hother g hg hgf ho)
    · rw [hothers g hgf, hothers g' hgf'] at heq
      exact h.own g hg g' hg' (hold g hgf ho) (hold g' hgf' ho') heq
  · by_cases hjk : j = k
    · exact ⟨f, hf, hopen, by rw [hv, hjk]⟩
    · rw [hin, Function.update_of_ne hjk] at hused
      obtain ⟨g, hg, ho, haddr⟩ := h.used j hj hused
      have hgf : g ≠ f := fun hgf => hclosed (hgf ▸ ho)
      refine ⟨g, hg, ?_, by rw [hothers g hgf]; exact haddr⟩
      unfold DirOpen
      rw [hothers g hgf]
      exact ho
  · by_cases hgf : g = f
    · rw [hgf]
      exact hw
    · rw [hothers g hgf]
      exact h.notWriting g hg (hold g hgf ho)

/-- A call that does no harm closes directory descriptors, or takes a search context for one. -/
theorem Vfs.handleStep_closes (h : VfsInv p 0 0 s) (hheld : DirsHeld p s)
    (hinj : ∀ i < p.nDsc, ∀ j < p.nDsc, p.dscAddr i = p.dscAddr j → i = j) {c : HandleCall}
    (hharm : Harmless p s c) :
    Closes p s (s.handleStep p c) ∨ ∃ f k, TakesDsc p f k s (s.handleStep p c) := by
  cases c with
  | call c =>
    change Closes p s (s.step p c) ∨ ∃ f k, TakesDsc p f k s (s.step p c)
    unfold Vfs.step
    split_ifs with hc
    · cases c with
      | openSharing a =>
        simp only [Call.found, Bool.and_eq_true, Option.all_eq_true] at hc
        exact openSharing_closes h hinj hc.2
      | dup hd => exact Or.inl (dup_closes h hd)
      | close hd => exact Or.inl (close_closes h hd)
      | read hd nbyte isPread offset => exact Or.inl (doRead_closes h hharm)
      | write hd buf isPwrite offset => exact Or.inl (doWrite_closes h hheld hd offset buf isPwrite)
      | unlink a =>
        refine Or.inl (Closes.tables ?_ ?_) <;>
        · simp only [execCall, doUnlink]
          split
          · split_ifs
            · rfl
            · split <;> rfl
          · rfl
      | funlink hd =>
        refine Or.inl (Closes.tables ?_ ?_) <;>
        · simp only [execCall, funlink]
          split
          · rfl
          · split_ifs <;> rfl
    · exact Or.inl (Closes.refl s)
  | lseek hd offset whence => exact Or.inl (lseek_closes hharm)
  | ftruncate hd newSize =>
    refine Or.inl (Closes.tables ?_ ?_) <;>
    · simp only [Vfs.handleStep, ftruncate]
      split
      · split_ifs <;> rfl
      · rfl
  | fsync hd datasync =>
    refine Or.inl (Closes.tables ?_ ?_) <;>
    · simp only [Vfs.handleStep, doFsync]
      split
      · rfl
      · split_ifs <;> rfl
  | readdirFd hd => exact Or.inl (Closes.refl s)
  | rewinddirFd hd => exact Or.inl (Closes.refl s)

/-- Every call keeps the counts. -/
theorem Vfs.handleStep_inv (h : VfsInv p 0 0 s) (c : HandleCall) : VfsInv p 0 0 (s.handleStep p c) := by
  cases c with
  | call c => exact (Vfs.step_spec (fun _ => le_rfl) h c).1
  | lseek hd offset whence =>
    simp only [Vfs.handleStep, lseek]
    cases hf : handleToFileDes p s hd with
    | none => exact h
    | some f =>
      cases handleToObject p s hd with
      | none => exact h
      | some r =>
        simp only
        split_ifs
        · exact h
        · exact (h.modFd (u := fun fd => { fd with v := whence.pos (s.fd f).v (getObjLength p s r) offset })
            (handleToFileDes_spec hf).1 rfl fun _ => rfl).1
        · exact h
  | ftruncate hd newSize =>
    simp only [Vfs.handleStep, ftruncate]
    split
    · rename_i f r _ _
      have hresize := (h.evolving r.dev (resizeFile_evolving (g := p.geometry r.dev) (e := p.env r.dev) r.obj
        newSize.toNat)).1
      by_cases htruncates : ftruncates p s f r newSize = true
      · rw [if_pos htruncates]
        exact hresize
      · rw [if_neg htruncates]
        exact h
    · exact h
  | fsync hd datasync =>
    simp only [Vfs.handleStep, doFsync]
    split
    · exact h
    · rename_i r _
      split_ifs
      · exact h
      · exact (h.evolving r.dev (flushFile_evolving r.obj datasync false)).1
  | readdirFd hd => exact h
  | rewinddirFd hd => exact h

/-- Nothing is read, written or truncated through the descriptor of a directory. -/
theorem DirsHeld.dataObjs_eq_nil (h : DirsHeld p s) {c : HandleCall} (hharm : Harmless p s c) {hd : ℤ}
    (hc : c.dataHandle = some hd) {f : ℕ} (hf : handleToFileDes p s hd = some f) (ho : DirOpen s f) :
    c.dataObjs p s = [] := by
  have hnw := h.notWriting f (handleToFileDes_spec hf).1 ho
  cases c with
  | call c =>
    cases c with
    | read h' nbyte isPread offset =>
      obtain rfl := Option.some.inj hc
      simp only [HandleCall.dataObjs, readObjs, hf]
      cases hr : handleToObject p s h' with
      | none => rfl
      | some r =>
        refine ite_eq_left_iff.mpr fun hsmall => ite_eq_left_iff.mpr fun hrange => ?_
        simp only [Bool.or_eq_true, Bool.not_eq_true', decide_eq_true_eq, not_or] at hsmall
        rw [hharm.nbyte_eq_zero hf hr ho.2 hsmall.2 hrange]
        rfl
    | write h' buf isPwrite offset =>
      obtain rfl := Option.some.inj hc
      simp only [HandleCall.dataObjs, writeObjs, hf]
      cases hr : handleToObject p s h' with
      | none => rfl
      | some r => simp [hnw]
    | openSharing a => exact absurd hc (by simp [HandleCall.dataHandle])
    | dup h' => exact absurd hc (by simp [HandleCall.dataHandle])
    | close h' => exact absurd hc (by simp [HandleCall.dataHandle])
    | unlink a => exact absurd hc (by simp [HandleCall.dataHandle])
    | funlink h' => exact absurd hc (by simp [HandleCall.dataHandle])
  | ftruncate h' newSize =>
    obtain rfl := Option.some.inj hc
    simp only [HandleCall.dataObjs, hf]
    cases hr : handleToObject p s h' with
    | none => rfl
    | some r => simp [ftruncates, hnw]
  | lseek h' offset whence => rfl
  | fsync h' datasync => rfl
  | readdirFd h' => rfl
  | rewinddirFd h' => rfl

theorem Closes.keepsDirs (h : DirsHeld p s) {c : HandleCall} (hharm : Harmless p s c)
    (hc : Closes p s (s.handleStep p c)) : KeepsDirs p s c where
  stays f hf _ ho := (hc.stays f hf ho).2.1
  released k hk hin := by
    have hiff := hc.inUse k hk
    constructor
    · intro hfree
      by_contra hno
      push Not at hno
      rw [hiff.mpr ⟨hin, hno⟩] at hfree
      exact Bool.noConfusion hfree
    · rintro ⟨f, hf, ho, hv, hclosed⟩
      by_contra hne
      exact hclosed ((hiff.mp (by simpa using hne)).2 f hf ho hv)
  taken k hk hfree := by
    constructor
    · intro hin
      rw [((hc.inUse k hk).mp hin).1] at hfree
      exact Bool.noConfusion hfree
    · rintro ⟨f, hf, hclosed, ho, -⟩
      exact absurd (hc.stays f hf ho).1 hclosed
  opened f hf hclosed ho := absurd (hc.stays f hf ho).1 hclosed
  noData _ hd _ hf ho := h.dataObjs_eq_nil hharm hd hf ho

theorem TakesDsc.keepsDirs {f k : ℕ} (h : DirsHeld p s) {c : HandleCall} (hharm : Harmless p s c)
    (ht : TakesDsc p f k s (s.handleStep p c))
    (hinj : ∀ i < p.nDsc, ∀ j < p.nDsc, p.dscAddr i = p.dscAddr j → i = j) : KeepsDirs p s c where
  stays g _ ho _ := by
    have hgf : g ≠ f := fun hgf => ht.fresh.1 (hgf ▸ ho)
    rw [ht.others g hgf]
  released j _ hin := by
    have hjk : j ≠ k := fun hjk => by
      rw [hjk, ht.fresh.2] at hin
      exact Bool.noConfusion hin
    rw [ht.inUse, Function.update_of_ne hjk, hin]
    refine ⟨fun h => Bool.noConfusion h, ?_⟩
    rintro ⟨g, -, ho, -, hclosed⟩
    have hgf : g ≠ f := fun hgf => ht.fresh.1 (hgf ▸ ho)
    exact absurd ((ht.dirOpen hgf).mpr ho) hclosed
  taken j hj hfree := by
    rw [ht.inUse]
    constructor
    · intro hin
      have hjk : j = k := by
        by_contra hjk
        rw [Function.update_of_ne hjk, hfree] at hin
        exact Bool.noConfusion hin
      exact ⟨f, ht.lt.1, ht.fresh.1, ht.opened.1, by rw [ht.opened.2.1, hjk]⟩
    · rintro ⟨g, -, hclosed, ho, hv⟩
      have hgf : g = f := by
        by_contra hgf
        exact hclosed ((ht.dirOpen hgf).mp ho)
      rw [hgf, ht.opened.2.1] at hv
      rw [← hinj k ht.lt.2 j hj hv, Function.update_self]
  opened g _ hclosed ho := by
    have hgf : g = f := by
      by_contra hgf
      exact hclosed ((ht.dirOpen hgf).mp ho)
    exact ⟨k, ht.lt.2, ht.fresh.2, by rw [hgf]; exact ht.opened.2.1⟩
  noData _ hd _ hf ho := h.dataObjs_eq_nil hharm hd hf ho

/-- Every call of the run does no harm in the state it finds. -/
def Vfs.HarmlessRun (p : VfsParam) : Vfs → List HandleCall → Prop
  | _, [] => True
  | s, c :: cs => Harmless p s c ∧ HarmlessRun p (s.handleStep p c) cs

/-- One call keeps the invariant and the directory descriptors. -/
theorem Vfs.handleStep_spec (h : VfsInv p 0 0 s) (hheld : DirsHeld p s)
    (hinj : ∀ i < p.nDsc, ∀ j < p.nDsc, p.dscAddr i = p.dscAddr j → i = j) {c : HandleCall}
    (hharm : Harmless p s c) : DirsHeld p (s.handleStep p c) ∧ KeepsDirs p s c := by
  rcases Vfs.handleStep_closes h hheld hinj hharm with hc | ⟨f, k, ht⟩
  · exact ⟨hheld.closes hc, hc.keepsDirs hheld hharm⟩
  · exact ⟨hheld.takes ht hinj, ht.keepsDirs hheld hharm hinj⟩

theorem initHandles_dirsHeld (dev : ℕ → Dev) : DirsHeld p (initHandles dev) where
  held f _ ho := absurd ho.1 (by simp [initHandles])
  own f _ g _ ho _ _ := absurd ho.1 (by simp [initHandles])
  used k _ hin := absurd hin (by simp [initHandles])
  notWriting f _ ho := absurd ho.1 (by simp [initHandles])

theorem Vfs.handleRun_append (h : VfsInv p 0 0 s) (hheld : DirsHeld p s)
    (hinj : ∀ i < p.nDsc, ∀ j < p.nDsc, p.dscAddr i = p.dscAddr j → i = j) (cs : List HandleCall) (c : HandleCall)
    (hharm : s.HarmlessRun p (cs ++ [c])) :
    DirsHeld p (s.handleRun p cs) ∧ KeepsDirs p (s.handleRun p cs) c := by
  induction cs generalizing s with
  | nil => exact ⟨hheld, (Vfs.handleStep_spec h hheld hinj hharm.1).2⟩
  | cons c' cs ih =>
    exact ih (Vfs.handleStep_inv h c') (Vfs.handleStep_spec h hheld hinj hharm.1).1 hharm.2

/-- In a run whose calls do no harm, every descriptor open on a directory has a search context of its own,
keeps it until its last close and releases it then, and no directory reaches the file data routines. -/
theorem handleRun_keepsDirs {dev : ℕ → Dev} (hd : ∀ i, Tied [] (dev i))
    (hinj : ∀ i < p.nDsc, ∀ j < p.nDsc, p.dscAddr i = p.dscAddr j → i = j) (cs : List HandleCall) (c : HandleCall)
    (hharm : (initHandles dev).HarmlessRun p (cs ++ [c])) :
    DirsHeld p ((initHandles dev).handleRun p cs) ∧ KeepsDirs p ((initHandles dev).handleRun p cs) c :=
  Vfs.handleRun_append (initHandles_spec hd) (initHandles_dirsHeld dev) hinj cs c hharm

/-- The root directory of a blank sample device is opened. -/
def sampleDirCalls : List HandleCall :=
  [.call (.openSharing
    { pathOk := true, obj := some ⟨0, objectIdRoot⟩, dir := none, name := [], loop := false
      access := .rdOnly, oCreat := false, oExcl := false, oTrunc := false, oAppend := false
      shareRead := true, shareWrite := true, mayRead := true, mayWrite := true })]

def sampleDirOpened : Vfs :=
  (initHandles fun _ => freshDev sampleGeometry fun _ => false).handleRun sampleVfs sampleDirCalls

/-- The last close of the directory handle releases its search context. -/
theorem sampleDirOpened_close : sampleDirOpened.dscInUse 0 = true ∧
    DirsHeld sampleVfs sampleDirOpened ∧ KeepsDirs sampleVfs sampleDirOpened (.call (.close 0)) :=
  ⟨by decide +kernel, handleRun_keepsDirs (fun _ => freshDev_tied sampleGeometry fun _ => false)
    (fun i _ j _ hij => by simpa [sampleVfs] using hij) sampleDirCalls (.call (.close 0)) ⟨trivial, trivial, trivial⟩⟩

/-- A seek to the start of the directory handle overwrites its search context, and a `pread` at offset 0
reads the directory as a file. -/
theorem sampleDirOpened_not_keepsDirs : ¬KeepsDirs sampleVfs sampleDirOpened (.lseek 0 0 .seekSet) ∧
    ¬KeepsDirs sampleVfs sampleDirOpened (.call (.read 0 1 true 0)) := by
  constructor
  · intro h
    exact absurd (h.stays 0 (by decide) (by unfold DirOpen; decide +kernel) (by unfold DirOpen; decide +kernel))
      (by decide +kernel)
  · intro h
    exact absurd (h.noData 0 rfl 0 (by decide +kernel) (by unfold DirOpen; decide +kernel)) (by decide +kernel)

end Yaffs
