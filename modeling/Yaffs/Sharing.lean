import Yaffs.Refcount

/-!
# Sharing of open objects

In every state a sequence of calls reaches, what one descriptor of an object does every other
descriptor of it shares. Only an open that succeeds can pair two descriptors : every other call,
and every open that fails, leaves the open descriptors of an object as they were or takes some
away (`Narrows`).
-/

namespace Yaffs

variable (p : VfsParam)

/-! ## Descriptors of an object -/

/-- The descriptor `f` is open on the object `r`. -/
def OpenOn (s : Vfs) (f : ℕ) (r : ObjRef) : Prop :=
  0 < (s.fd f).handleCount ∧ ∃ i < p.nHandles, (s.fd f).inodeId = some i ∧ (s.inode i).iObj = some r

/-- What the descriptor does the other one shares. -/
def FileDes.SharedBy (fd other : FileDes) : Prop :=
  (fd.reading = true → other.shareRead = true) ∧ (fd.writing = true → other.shareWrite = true)

/-- Two descriptors of one object share what the other does. -/
structure Shared (s : Vfs) : Prop where
  inodeId : ∀ f < p.nHandles, ∀ i, (s.fd f).inodeId = some i → i < p.nHandles
  sharedBy : ∀ f < p.nHandles, ∀ g < p.nHandles, f ≠ g → ∀ r, OpenOn p s f r → OpenOn p s g r →
    (s.fd f).SharedBy (s.fd g)

/-- The descriptors grant and use the same accesses. -/
structure SameAccess (fd fd' : FileDes) : Prop where
  reading : fd'.reading = fd.reading
  writing : fd'.writing = fd.writing
  shareRead : fd'.shareRead = fd.shareRead
  shareWrite : fd'.shareWrite = fd.shareWrite

theorem SameAccess.refl (fd : FileDes) : SameAccess fd fd :=
  ⟨rfl, rfl, rfl, rfl⟩

theorem SameAccess.trans {fd fd' fd'' : FileDes} (h : SameAccess fd fd') (h' : SameAccess fd' fd'') :
    SameAccess fd fd'' :=
  ⟨h'.reading.trans h.reading, h'.writing.trans h.writing, h'.shareRead.trans h.shareRead,
    h'.shareWrite.trans h.shareWrite⟩

theorem FileDes.SharedBy.congr {fd fd' other other' : FileDes} (h : fd.SharedBy other) (hfd : SameAccess fd fd')
    (hother : SameAccess other other') : fd'.SharedBy other' := by
  unfold FileDes.SharedBy
  rw [hfd.reading, hfd.writing, hother.shareRead, hother.shareWrite]
  exact h

/-- No descriptor is opened on an object, and no inode is given an object. -/
structure Narrows (s s' : Vfs) : Prop where
  iObj : ∀ i, (s'.inode i).iObj = (s.inode i).iObj ∨ (s'.inode i).iObj = none
  fd : ∀ f, (s'.fd f).inodeId = none ∨ (s'.fd f).inodeId = (s.fd f).inodeId ∧
    SameAccess (s.fd f) (s'.fd f) ∧ (0 < (s'.fd f).handleCount → 0 < (s.fd f).handleCount)

variable {p} {s s' s'' : Vfs}

theorem Narrows.refl (s : Vfs) : Narrows s s :=
  ⟨fun _ => Or.inl rfl, fun _ => Or.inr ⟨rfl, SameAccess.refl _, id⟩⟩

theorem Narrows.trans (h : Narrows s s') (h' : Narrows s' s'') : Narrows s s'' where
  iObj i := by
    rcases h'.iObj i with hi | hi
    · rw [hi]
      exact h.iObj i
    · exact Or.inr hi
  fd f := by
    rcases h'.fd f with hf | ⟨hf, hsame, hopen⟩
    · exact Or.inl hf
    · rcases h.fd f with hg | ⟨hg, hsame', hopen'⟩
      · exact Or.inl (hf.trans hg)
      · exact Or.inr ⟨hf.trans hg, hsame'.trans hsame, fun ho => hopen' (hopen ho)⟩

/-- Only devices, handles and search contexts change. -/
theorem Narrows.tables (hinode : s'.inode = s.inode) (hfd : s'.fd = s.fd) : Narrows s s' where
  iObj i := Or.inl (by rw [hinode])
  fd f := Or.inr (by rw [hfd]; exact ⟨rfl, SameAccess.refl _, id⟩)

theorem Narrows.openOn (h : Narrows s s') {f : ℕ} {r : ObjRef} (ho : OpenOn p s' f r) :
    OpenOn p s f r ∧ SameAccess (s.fd f) (s'.fd f) := by
  obtain ⟨hopen, i, hi, hinode, hobj⟩ := ho
  rcases h.fd f with hf | ⟨hf, hsame, hopen'⟩
  · exact absurd (hf.symm.trans hinode) (by simp)
  rcases h.iObj i with ho | ho
  · exact ⟨⟨hopen' hopen, i, hi, hf ▸ hinode, ho ▸ hobj⟩, hsame⟩
  · exact absurd (ho.symm.trans hobj) (by simp)

theorem Shared.narrows (h : Shared p s) (hn : Narrows s s') : Shared p s' where
  inodeId f hf i hi := by
    rcases hn.fd f with hf' | ⟨hf', -, -⟩
    · exact absurd (hf'.symm.trans hi) (by simp)
    · exact h.inodeId f hf i (hf' ▸ hi)
  sharedBy f hf g hg hne r hfr hgr := by
    obtain ⟨hf', hfsame⟩ := hn.openOn hfr
    obtain ⟨hg', hgsame⟩ := hn.openOn hgr
    exact (h.sharedBy f hf g hg hne r hf' hg').congr hfsame hgsame

/-! ## Changes of the tables -/

theorem Narrows.onDev (s : Vfs) (i : ℕ) (u : Dev → Dev) : Narrows s (s.onDev i u) :=
  Narrows.tables rfl rfl

theorem Narrows.modHandle (s : Vfs) (i : ℕ) (u : Handle → Handle) : Narrows s (s.modHandle i u) :=
  Narrows.tables rfl rfl

theorem Narrows.modFd {f : ℕ} {u : FileDes → FileDes} (h : (u (s.fd f)).inodeId = none ∨
    (u (s.fd f)).inodeId = (s.fd f).inodeId ∧ SameAccess (s.fd f) (u (s.fd f)) ∧
      (0 < (u (s.fd f)).handleCount → 0 < (s.fd f).handleCount)) : Narrows s (s.modFd f u) where
  iObj _ := Or.inl rfl
  fd g := by
    by_cases hg : g = f
    · subst hg
      simpa only [Vfs.modFd, Function.update_self] using h
    · simp only [Vfs.modFd, Function.update_of_ne hg]
      exact Or.inr ⟨trivial, SameAccess.refl _, id⟩

theorem Narrows.modInode {i : ℕ} {u : Inode → Inode}
    (h : (u (s.inode i)).iObj = (s.inode i).iObj ∨ (u (s.inode i)).iObj = none) : Narrows s (s.modInode i u) where
  iObj j := by
    by_cases hj : j = i
    · subst hj
      simpa only [Vfs.modInode, Function.update_self] using h
    · simp only [Vfs.modInode, Function.update_of_ne hj]
      exact Or.inl trivial
  fd _ := Or.inr ⟨rfl, SameAccess.refl _, id⟩

/-! ## The calls that open nothing -/

theorem releaseInodeAt_narrows (i : ℕ) (s : Vfs) : Narrows s (releaseInodeAt p i s) := by
  unfold releaseInodeAt
  split
  · exact Narrows.refl s
  · have hmod : Narrows s (s.modInode i fun inode => { inode with iObj := none }) := Narrows.modInode (Or.inr rfl)
    exact hmod.trans (Narrows.tables rfl rfl)

theorem putInode_narrows (i : ℕ) (s : Vfs) : Narrows s (putInode p i s) := by
  unfold putInode
  split_ifs
  · have hmod : Narrows s (s.modInode i fun inode => { inode with count := inode.count - 1 }) :=
      Narrows.modInode (Or.inl rfl)
    simp only
    split_ifs
    · exact (hmod.trans (releaseInodeAt_narrows i _)).trans (Narrows.modInode (Or.inl rfl))
    · exact hmod
  · exact Narrows.refl s

theorem closedir_narrows (addr : ℤ) (s : Vfs) : Narrows s (closedir p addr s) :=
  Narrows.tables rfl rfl

theorem opendir_narrows (s : Vfs) : Narrows s (opendir p s).1 := by
  unfold opendir
  split <;> exact Narrows.tables rfl rfl

theorem putDir_narrows (f : ℕ) (s : Vfs) : Narrows s (putDir p f s) := by
  unfold putDir
  split_ifs
  · exact (closedir_narrows _ s).trans (Narrows.modFd (Or.inr ⟨rfl, ⟨rfl, rfl, rfl, rfl⟩, id⟩))
  · exact Narrows.refl s

theorem putFdInode_narrows (f : ℕ) (s : Vfs) : Narrows s (putFdInode p f s) := by
  unfold putFdInode
  split
  · exact (putInode_narrows _ s).trans (Narrows.modFd (Or.inl rfl))
  · exact Narrows.refl s

theorem putFileDes_narrows (f : ℕ) (s : Vfs) : Narrows s (putFileDes p f s) := by
  unfold putFileDes
  split_ifs
  · have hmod : Narrows s (s.modFd f fun fd => { fd with handleCount := fd.handleCount - 1 }) :=
      Narrows.modFd (Or.inr ⟨rfl, ⟨rfl, rfl, rfl, rfl⟩, fun h => by simp only at h; omega⟩)
    simp only
    split_ifs
    · exact (hmod.trans (putDir_narrows f _)).trans (putFdInode_narrows f _)
    · exact hmod
  · exact Narrows.refl s

theorem putHandleAt_narrows (i : ℕ) (s : Vfs) : Narrows s (putHandleAt p i s) := by
  unfold putHandleAt
  split_ifs
  · have hmod := Narrows.modHandle s i fun hd => { hd with useCount := hd.useCount - 1 }
    simp only
    split_ifs
    · refine (hmod.trans ?_).trans (Narrows.modHandle _ i _)
      split
      · exact putFileDes_narrows _ _
      · exact Narrows.refl _
    · exact hmod
  · exact Narrows.refl s

theorem putHandle_narrows (h : ℤ) (s : Vfs) : Narrows s (putHandle p h s) := by
  unfold putHandle
  split
  · exact putHandleAt_narrows _ s
  · exact Narrows.refl s

theorem getHandle_narrows (h : ℤ) (s : Vfs) : Narrows s (getHandle p h s) := by
  unfold getHandle
  split
  · split_ifs
    · exact Narrows.modHandle s _ _
    · exact Narrows.refl s
  · exact Narrows.refl s

theorem openFails_narrows (h : ℕ) (dsc : Option ℤ) (s : Vfs) : Narrows s (openFails p h dsc s) := by
  unfold openFails
  cases dsc with
  | none => exact putHandleAt_narrows h s
  | some addr => exact (closedir_narrows addr s).trans (putHandleAt_narrows h _)

theorem newHandle_narrows (s : Vfs) : Narrows s (newHandle p s).1 := by
  unfold newHandle
  split <;> exact Narrows.tables rfl rfl

theorem newHandleAndFileDes_narrows (s : Vfs) : Narrows s (newHandleAndFileDes p s).1 := by
  unfold newHandleAndFileDes
  simp only
  split
  · exact newHandle_narrows s
  · split
    · rename_i f _
      have hfd : Narrows s ((newHandle p s).1.modFd f fun _ => { inodeId := none, handleCount := 1 }) :=
        (newHandle_narrows s).trans (Narrows.modFd (Or.inl rfl))
      exact hfd.trans (Narrows.tables rfl rfl)
    · exact (newHandle_narrows s).trans (Narrows.tables rfl rfl)

theorem openCreate_narrows (a : OpenArgs) (s : Vfs) : Narrows s (openCreate p a s).1 := by
  unfold openCreate
  split
  · exact Narrows.refl s
  · split_ifs
    · exact Narrows.refl s
    · simp only
      split <;> exact Narrows.tables rfl rfl

theorem close_narrows (h : ℤ) (s : Vfs) : Narrows s (close p h s).1 := by
  unfold close
  split
  · rename_i r f _ _
    have hflush : Narrows s (if (s.fd f).isDir then s
        else s.onDev r.dev fun d => (flushFile (p.geometry r.dev) (p.env r.dev) r.obj false true d).1) := by
      split_ifs
      · exact Narrows.refl s
      · exact Narrows.onDev s _ _
    exact hflush.trans (putHandle_narrows h _)
  · exact Narrows.refl s

/-- A duplicated descriptor was open : its handle is. -/
theorem dup_narrows (hinv : VfsInv p 0 0 s) (h : ℤ) : Narrows s (dup p h s).1 := by
  unfold dup
  cases hf : handleToFileDes p s h with
  | none => exact Narrows.refl s
  | some f =>
    simp only
    have hopen : 0 < (s.fd f).handleCount := hinv.handle_open (fun _ => le_rfl) hf
    have hnew := newHandle_narrows (p := p) s
    have hfd := (newHandle_spec hinv).2.2.1.fd
    split
    · exact hnew
    · generalize (newHandle p s).1 = t at *
      rename_i i _
      have hto := hnew.trans (Narrows.modHandle t i fun hd => { hd with fdId := some f })
      refine hto.trans ?_
      dsimp only
      refine Narrows.modFd (Or.inr ⟨rfl, ⟨rfl, rfl, rfl, rfl⟩, fun _ => ?_⟩)
      change 0 < (t.fd f).handleCount
      rw [hfd]
      exact hopen

theorem doReadLoop_narrows (h : ℤ) (fuel : ℕ) :
    ∀ (n pos : ℕ) (s : Vfs), Narrows s (doReadLoop p h fuel n pos s).1 := by
  induction fuel with
  | zero => exact fun _ _ s => Narrows.refl s
  | succ fuel ih =>
    intro n pos s
    unfold doReadLoop
    split_ifs
    · exact Narrows.refl s
    · simp only
      split
      · exact Narrows.refl s
      · exact (Narrows.onDev s _ _).trans (ih _ _ _)

theorem doWriteLoop_narrows (h : ℤ) (fuel : ℕ) :
    ∀ (buf : List UInt8) (pos : ℕ) (s : Vfs), Narrows s (doWriteLoop p h fuel buf pos s).1 := by
  induction fuel with
  | zero => exact fun _ _ s => Narrows.refl s
  | succ fuel ih =>
    intro buf pos s
    unfold doWriteLoop
    split_ifs
    · exact Narrows.refl s
    · simp only
      split
      · exact Narrows.refl s
      · split_ifs
        · exact Narrows.refl s
        · exact (Narrows.onDev s _ _).trans (ih _ _ _)
        · exact Narrows.tables rfl rfl

/-- The position of the descriptor may have moved. -/
theorem Narrows.position (h : Narrows s s') {c : Prop} [Decidable c] (f : ℕ) (v : ℤ) :
    Narrows s (if c then s' else s'.modFd f fun fd => { fd with v := v }) := by
  split_ifs
  · exact h
  · exact h.trans (Narrows.modFd (Or.inr ⟨rfl, ⟨rfl, rfl, rfl, rfl⟩, id⟩))

theorem Narrows.ite {α : Type*} {c : Prop} [Decidable c] {t t' : Vfs × α} (h : Narrows s t.1) (h' : Narrows s t'.1) :
    Narrows s (if c then t else t').1 := by
  split_ifs
  · exact h
  · exact h'

theorem doRead_narrows (h : ℤ) (nbyte : ℕ) (isPread : Bool) (offset : ℤ) (s : Vfs) :
    Narrows s (doRead p h nbyte isPread offset s).1 := by
  unfold doRead
  split
  · refine Narrows.ite (Narrows.refl s) ?_
    have hget := getHandle_narrows (p := p) h s
    refine Narrows.ite (hget.trans (putHandle_narrows h _)) (Narrows.position ?_ _ _)
    exact (hget.trans (doReadLoop_narrows h _ _ _ _)).trans (putHandle_narrows h _)
  · exact Narrows.refl s

theorem doWrite_narrows (h : ℤ) (buf : List UInt8) (isPwrite : Bool) (offset : ℤ) (s : Vfs) :
    Narrows s (doWrite p h buf isPwrite offset s).1 := by
  unfold doWrite
  split
  · refine Narrows.ite (Narrows.refl s) ?_
    have hget := getHandle_narrows (p := p) h s
    refine Narrows.ite (hget.trans (putHandle_narrows h _)) (Narrows.position ?_ _ _)
    exact (hget.trans (doWriteLoop_narrows h _ _ _ _)).trans (putHandle_narrows h _)
  · exact Narrows.refl s

theorem doUnlink_narrows (a : UnlinkArgs) (s : Vfs) : Narrows s (doUnlink p a s).1 := by
  unfold doUnlink
  split
  · split_ifs
    · exact Narrows.refl s
    · split
      · exact Narrows.refl s
      · exact Narrows.tables rfl rfl
  · exact Narrows.refl s

theorem funlink_narrows (h : ℤ) (s : Vfs) : Narrows s (funlink p h s).1 := by
  unfold funlink
  split
  · exact Narrows.refl s
  · split_ifs
    · exact Narrows.refl s
    · exact Narrows.tables rfl rfl

/-! ## An open that succeeds -/

/-- The sharing of the descriptors that are open on the object permits the request. -/
theorem sharingDenied_false {a : OpenArgs} {r : ObjRef} {isDir : Bool} (h : sharingDenied p s a r isDir = false)
    {g : ℕ} (hg : g < p.nHandles) (ho : OpenOn p s g r) :
    (a.readRequested isDir = true → (s.fd g).shareRead = true) ∧
      (a.writeRequested isDir = true → (s.fd g).shareWrite = true) ∧
      ((s.fd g).reading = true → a.shareRead = true) ∧ ((s.fd g).writing = true → a.shareWrite = true) := by
  obtain ⟨hopen, i, -, hi, hobj⟩ := ho
  unfold sharingDenied at h
  have hmem : g ∈ (List.range p.nHandles).filter fun f =>
      decide (0 < (s.fd f).handleCount) && (s.fd f).inodeId.any fun i => (s.inode i).iObj = some r := by
    refine List.mem_filter.mpr ⟨List.mem_range.mpr hg, ?_⟩
    simp [hopen, hi, hobj]
  simp only [Bool.or_eq_false_iff, Bool.and_eq_false_iff, Bool.not_eq_false', List.all_eq_true,
    List.any_eq_false] at h
  obtain ⟨⟨⟨hr, hsr⟩, hw⟩, hsw⟩ := h
  refine ⟨fun hq => ?_, fun hq => ?_, fun hq => ?_, fun hq => ?_⟩
  · exact (hr.resolve_left (by simp [hq])) g hmem
  · exact (hw.resolve_left (by simp [hq])) g hmem
  · by_contra hne
    exact hsr.resolve_left (by simpa using hne) g hmem hq
  · by_contra hne
    exact hsw.resolve_left (by simpa using hne) g hmem hq

/-- An open descriptor refers to an inode that has an object. -/
theorem VfsInv.iObj_isSome (h : VfsInv p 0 0 s) {g i : ℕ} (hg : g < p.nHandles) (hi : i < p.nHandles)
    (hopen : 0 < (s.fd g).handleCount) (hinode : (s.fd g).inodeId = some i) : (s.inode i).iObj.isSome := by
  refine (h.iObj i hi).mpr ?_
  have hcount := h.count i hi
  have hpos : 0 < openFds p s i :=
    List.countP_pos_iff.mpr ⟨g, List.mem_range.mpr hg, by simp [FileDes.refers, hopen, hinode]⟩
  simp only [Pi.zero_apply, add_zero] at hcount
  omega

/-- The descriptor as `openObj` leaves it. -/
def OpenArgs.opensFd (a : OpenArgs) (isDir : Bool) (dsc : Option ℤ) (inodeId : Option ℕ) (fd : FileDes) : FileDes :=
  { fd with
    inodeId := inodeId
    reading := a.readRequested isDir
    writing := a.writeRequested isDir
    append := a.oAppend
    shareRead := a.shareRead
    shareWrite := a.shareWrite
    isDir := isDir
    v := dsc.getD 0 }

theorem openObj_tables (a : OpenArgs) (f : ℕ) (r : ObjRef) (isDir : Bool) (dsc : Option ℤ) (s : Vfs) :
    (openObj p a f r isDir dsc s).inode = (getInodeIdForObject p r s).1.inode ∧
      (openObj p a f r isDir dsc s).fd = Function.update (getInodeIdForObject p r s).1.fd f
        (a.opensFd isDir dsc (getInodeIdForObject p r s).2 ((getInodeIdForObject p r s).1.fd f)) := by
  unfold openObj
  simp only
  split_ifs <;> split <;> exact ⟨rfl, rfl⟩

/-- The descriptor is opened on the object, and no other descriptor changes. -/
theorem openObj_openOn (h : VfsInv p 0 0 s) (hsh : Shared p s) {a : OpenArgs} {f : ℕ} {r : ObjRef} {isDir : Bool}
    {dsc : Option ℤ} (hr : equivRef s r = some r) (hnone : (s.fd f).inodeId = none) {g : ℕ}
    (hg : g < p.nHandles) :
    (∀ i, ((openObj p a f r isDir dsc s).fd g).inodeId = some i → i < p.nHandles) ∧
    ∀ q, OpenOn p (openObj p a f r isDir dsc s) g q →
      (g = f ∧ q = r ∧ ∃ fd i, (openObj p a f r isDir dsc s).fd g = a.opensFd isDir dsc i fd) ∨
      g ≠ f ∧ OpenOn p s g q ∧ (openObj p a f r isDir dsc s).fd g = s.fd g := by
  obtain ⟨hinode, hfd⟩ := openObj_tables (p := p) a f r isDir dsc s
  unfold OpenOn
  rw [hinode, hfd]
  rcases getInodeIdForObject_spec (p := p) hr with hnew | ⟨i, hi, hnew, hown⟩
  · rw [hnew]
    by_cases hgf : g = f
    · subst hgf
      simp [OpenArgs.opensFd]
    · simp only [Function.update_of_ne hgf]
      exact ⟨hsh.inodeId g hg, fun q ho => Or.inr ⟨hgf, ho, trivial⟩⟩
  · rw [hnew]
    by_cases hgf : g = f
    · subst hgf
      simp only [Vfs.modInode, Function.update_self, OpenArgs.opensFd, Option.some.injEq]
      refine ⟨fun j hj => hj ▸ hi, fun q ho => Or.inl ⟨trivial, ?_, _, _, rfl⟩⟩
      obtain ⟨-, j, -, rfl, hobj⟩ := ho
      simpa using hobj.symm
    · simp only [Vfs.modInode, Function.update_of_ne hgf]
      refine ⟨hsh.inodeId g hg, fun q ho => Or.inr ⟨hgf, ?_, trivial⟩⟩
      obtain ⟨hopen, j, hj, hgj, hobj⟩ := ho
      refine ⟨hopen, j, hj, hgj, ?_⟩
      by_cases hji : j = i
      · subst hji
        rw [Function.update_self] at hobj
        -- A free inode has no descriptors.
        have hsome := h.iObj_isSome hg hj hopen hgj
        rcases hown with hown | ⟨hown, -⟩
        · exact hown.trans hobj
        · rw [hown] at hsome
          exact Bool.noConfusion hsome
      · rwa [Function.update_of_ne hji] at hobj

/-- An object is opened as the sharing of its descriptors permits. -/
theorem Shared.openObj (h : VfsInv p 0 0 s) (hsh : Shared p s) {a : OpenArgs} {f : ℕ} {r : ObjRef} {isDir : Bool}
    {dsc : Option ℤ} (hr : equivRef s r = some r) (hnone : (s.fd f).inodeId = none)
    (hshare : sharingDenied p s a r isDir = false) : Shared p (openObj p a f r isDir dsc s) where
  inodeId g hg := (openObj_openOn h hsh hr hnone hg).1
  sharedBy g hg g' hg' hne q ho ho' := by
    rcases (openObj_openOn h hsh hr hnone hg).2 q ho with ⟨rfl, rfl, fd, i, hfd⟩ | ⟨hgf, hold, hfd⟩ <;>
      rcases (openObj_openOn h hsh hr hnone hg').2 q ho' with ⟨rfl, hq, fd', i', hfd'⟩ | ⟨hgf', hold', hfd'⟩
    · exact absurd rfl hne
    · obtain ⟨hread, hwrite, -, -⟩ := sharingDenied_false hshare hg' hold'
      rw [hfd, hfd']
      exact ⟨hread, hwrite⟩
    · obtain ⟨-, -, hread, hwrite⟩ := sharingDenied_false hshare hg (hq ▸ hold)
      rw [hfd, hfd']
      exact ⟨hread, hwrite⟩
    · rw [hfd, hfd']
      exact hsh.sharedBy g hg g' hg' hne q hold hold'

theorem sharingDenied_of_not_openOn {a : OpenArgs} {r : ObjRef} {isDir : Bool}
    (h : ∀ g < p.nHandles, 0 < (s.fd g).handleCount → ∀ i, (s.fd g).inodeId = some i → (s.inode i).iObj ≠ some r) :
    sharingDenied p s a r isDir = false := by
  have hnil : ((List.range p.nHandles).filter fun f =>
      decide (0 < (s.fd f).handleCount) && (s.fd f).inodeId.any fun i => (s.inode i).iObj = some r) = [] := by
    refine List.filter_eq_nil_iff.mpr fun g hg => ?_
    simp only [Bool.and_eq_true, decide_eq_true_eq, not_and, Option.any_eq_true, not_exists]
    exact fun hopen i hi hobj => h g (List.mem_range.mp hg) hopen i hi hobj
  unfold sharingDenied
  simp [hnil]

/-- The new object is open nowhere. -/
theorem MakesObj.sharingDenied {i n : ℕ} {d' : Dev} (hm : MakesObj i n d' s s') (h : VfsInv p 0 0 s)
    (hsh : Shared p s) (a : OpenArgs) (isDir : Bool) : Yaffs.sharingDenied p s' a ⟨i, n⟩ isDir = false := by
  refine sharingDenied_of_not_openOn fun g hg _ j hj hobj => hm.new ?_
  rw [hm.fd] at hj
  rw [hm.inode] at hobj
  exact (h.opened_live ⟨j, hsh.inodeId g hg j hj, hobj⟩).1

theorem openSharing_shared {a : OpenArgs} (h : VfsInv p 0 0 s) (hsh : Shared p s)
    (hdir : ∀ r, a.dir = some r → namedDir (s.dev r.dev) r.obj = true) : Shared p (openSharing p a s).1 := by
  unfold openSharing
  split_ifs
  · exact hsh
  obtain ⟨hinv, -, hdev, hnew⟩ := newHandleAndFileDes_spec (fun _ => le_rfl) h
  have hsh' := hsh.narrows (newHandleAndFileDes_narrows (p := p) s)
  simp only
  cases hr : (newHandleAndFileDes p s).2 with
  | none => exact hsh'
  | some hf =>
    obtain ⟨i, f⟩ := hf
    obtain ⟨-, -, -, hnone⟩ := hnew i f hr
    simp only
    generalize (newHandleAndFileDes p s).1 = t at *
    cases hfound : a.found t with
    | some r =>
      simp only
      have htype : (t.obj r).variantType = .file ∨ (t.obj r).variantType = .directory := by
        simpa using (Option.filter_eq_some_iff.mp hfound).2
      have hdsc : ∀ isDir : Bool, ∃ dsc u, (if isDir then opendir p t else (t, none)) = (u, dsc) ∧ VfsInv p 0 0 u ∧
          Narrows t u ∧ u.dev = t.dev ∧ u.fd = t.fd := by
        intro isDir
        cases isDir
        · exact ⟨none, t, rfl, hinv, Narrows.refl t, rfl, rfl⟩
        · obtain ⟨hinv', hd, -, hfd, -⟩ := opendir_spec hinv
          exact ⟨(opendir p t).2, (opendir p t).1, rfl, hinv', opendir_narrows t, hd, hfd⟩
      obtain ⟨dsc, u, hu, hinvu, hnu, hdevu, hfdu⟩ := hdsc (decide ((t.obj r).variantType = .directory))
      rw [hu]
      simp only
      have hshu := hsh'.narrows hnu
      split_ifs with hdenied
      · exact hshu.narrows (openFails_narrows i dsc u)
      · have hobju : u.obj r = t.obj r := by
          unfold Vfs.obj
          rw [hdevu]
        have hshare : sharingDenied p u a r (decide ((t.obj r).variantType = .directory)) = false := by
          unfold openDenied at hdenied
          simp only [Bool.or_eq_true, not_or] at hdenied
          simpa using hdenied.2
        exact hshu.openObj hinvu (equivRef_eq (by rw [hobju]; exact htype)) (by rw [hfdu]; exact hnone) hshare
    | none =>
      simp only
      have hshc := hsh'.narrows (openCreate_narrows (p := p) a t)
      rcases openCreate_spec (a := a) hinv (fun r hr => by rw [hdev]; exact hdir r hr) with
        ⟨dev, n, d', hsome, hmakes, -, hfile, -, -⟩ | ⟨hnone', -, -⟩
      · rw [hsome]
        simp only
        have hself : (openCreate p a t).1.obj ⟨dev, n⟩ = d'.obj n := by
          rw [hmakes.obj, if_pos rfl]
        exact hshc.openObj (hinv.makesObj hmakes) (equivRef_eq (by rw [hself]; exact Or.inl hfile))
          (by rw [hmakes.fd]; exact hnone) (hmakes.sharingDenied hinv hsh' a false)
      · rw [hnone']
        exact hshc.narrows (openFails_narrows i none _)

/-! ## Runs -/

/-- Every call keeps the sharing. -/
theorem Vfs.step_shared (h : VfsInv p 0 0 s) (hsh : Shared p s) (c : Call) : Shared p (s.step p c) := by
  unfold Vfs.step
  split_ifs with hc
  · cases c with
    | openSharing a =>
      simp only [Call.found, Bool.and_eq_true, Option.all_eq_true] at hc
      exact openSharing_shared h hsh hc.2
    | dup hd => exact hsh.narrows (dup_narrows h hd)
    | close hd => exact hsh.narrows (close_narrows hd s)
    | read hd nbyte isPread offset => exact hsh.narrows (doRead_narrows hd nbyte isPread offset s)
    | write hd buf isPwrite offset => exact hsh.narrows (doWrite_narrows hd buf isPwrite offset s)
    | unlink a => exact hsh.narrows (doUnlink_narrows a s)
    | funlink hd => exact hsh.narrows (funlink_narrows hd s)
  · exact hsh

/-- Every sequence of calls does. -/
theorem Vfs.run_shared (h : VfsInv p 0 0 s) (hsh : Shared p s) (cs : List Call) : Shared p (s.run p cs) := by
  induction cs generalizing s with
  | nil => exact hsh
  | cons c cs ih => exact ih (Vfs.step_spec (fun _ => le_rfl) h c).1 (Vfs.step_shared h hsh c)

theorem initHandles_shared (dev : ℕ → Dev) : Shared p (initHandles dev) where
  inodeId f _ i hi := by simp [initHandles] at hi
  sharedBy f _ g _ _ r ho := by
    obtain ⟨-, i, -, hi, -⟩ := ho
    simp [initHandles] at hi

/-- Of two descriptors of one object, whatever the calls that opened them and the names they were opened
by, each shares what the other does. -/
theorem reachable_shared {dev : ℕ → Dev} (hd : ∀ i, Tied [] (dev i)) (hs : Vfs.Reachable p dev s) {f g i j : ℕ}
    (hf : f < p.nHandles) (hg : g < p.nHandles) (hne : f ≠ g) (hfopen : 0 < (s.fd f).handleCount)
    (hgopen : 0 < (s.fd g).handleCount) (hi : (s.fd f).inodeId = some i) (hj : (s.fd g).inodeId = some j)
    (hsame : (s.inode i).iObj = (s.inode j).iObj) :
    ((s.fd f).reading = true → (s.fd g).shareRead = true) ∧
      ((s.fd f).writing = true → (s.fd g).shareWrite = true) := by
  obtain ⟨cs, rfl⟩ := hs
  have hinv := Vfs.run_spec (fun _ => le_rfl) (initHandles_spec (p := p) hd) cs
  have hsh := Vfs.run_shared (initHandles_spec (p := p) hd) (initHandles_shared dev) cs
  have hin := hsh.inodeId f hf i hi
  obtain ⟨r, hr⟩ := Option.isSome_iff_exists.mp (hinv.iObj_isSome hf hin hfopen hi)
  exact hsh.sharedBy f hf g hg hne r ⟨hfopen, i, hin, hi, hr⟩
    ⟨hgopen, j, hsh.inodeId g hg j hj, hj, hsame ▸ hr⟩

/-- The root directory of a blank sample device is opened twice, for reading that others share. -/
def sampleShared : Vfs :=
  let a : OpenArgs :=
    { pathOk := true, obj := some ⟨0, objectIdRoot⟩, dir := none, name := [], loop := false
      access := .rdOnly, oCreat := false, oExcl := false, oTrunc := false, oAppend := false
      shareRead := true, shareWrite := false, mayRead := true, mayWrite := true }
  (initHandles fun _ => freshDev sampleGeometry fun _ => false).run sampleVfs [.openSharing a, .openSharing a]

/-- The two descriptors of the root directory read and share reading. -/
theorem sampleShared_shared : (sampleShared.fd 0).reading = true ∧
    ((sampleShared.fd 0).reading = true → (sampleShared.fd 1).shareRead = true) :=
  ⟨by decide +kernel, (reachable_shared (p := sampleVfs) (s := sampleShared) (i := 0) (j := 0)
    (fun _ => freshDev_tied sampleGeometry fun _ => false) ⟨_, rfl⟩ (f := 0) (g := 1) (by decide) (by decide)
    (by decide) (by decide +kernel) (by decide +kernel) (by decide +kernel) (by decide +kernel) rfl).1⟩

end Yaffs
