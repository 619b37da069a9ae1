import Yaffs.Collect
import Yaffs.Ties

/-!
# Headers and deletion keep the invariant

Writing a header, renaming an object and deleting it, with the gc that runs before a header
is written as a parameter; then gc itself, which deletes the files whose last chunk it has
dropped. `Moved` is the frame of the functions that only move an object between directories.
-/

namespace Yaffs

variable {g : Geometry} {e : Env} {T : ℕ → BlockState → Prop} {d d' d'' : Dev} {o : ℕ}

/-! ## Objects move -/

/-- The object `o` may have changed its name, its directory and its marks; what objects own
is as before. -/
structure Moved (o : ℕ) (d d' : Dev) : Prop where
  eq : d' = { d with obj := d'.obj, nUnlinkedFiles := d'.nUnlinkedFiles }
  same : ∀ o', (d.obj o').SameOwner (d'.obj o')
  file : ∀ o', (d'.obj o').file = (d.obj o').file
  attrs : ∀ o', o' ≠ o → (d'.obj o').attrs = (d.obj o').attrs
  children : ∀ dir, (d'.obj dir).children.filter (· ∉ [o]) = (d.obj dir).children.filter (· ∉ [o])

namespace Moved

theorem refl (o : ℕ) (d : Dev) : Moved o d d :=
  ⟨rfl, fun _ => Obj.SameOwner.refl _, fun _ => rfl, fun _ _ => rfl, fun _ => rfl⟩

theorem sameOwner_trans {ob ob' ob'' : Obj} (h : ob.SameOwner ob') (h' : ob'.SameOwner ob'') :
    ob.SameOwner ob'' where
  variantType := h'.variantType.trans h.variantType
  hdrChunk := h'.hdrChunk.trans h.hdrChunk
  nDataChunks := h'.nDataChunks.trans h.nDataChunks
  deferredFree := h'.deferredFree.trans h.deferredFree
  softDel := h'.softDel.trans h.softDel
  deleted hd := h'.deleted (h.deleted hd)
  entry k := (h'.entry k).trans (h.entry k)
  level hl := h'.level (h.level hl)

theorem trans (h : Moved o d d') (h' : Moved o d' d'') : Moved o d d'' where
  eq := by rw [h'.eq, h.eq]
  same o' := sameOwner_trans (h.same o') (h'.same o')
  file o' := (h'.file o').trans (h.file o')
  attrs o' ho' := (h'.attrs o' ho').trans (h.attrs o' ho')
  children dir := (h'.children dir).trans (h.children dir)

/-- The marks of the object itself change. -/
theorem modObj {f : Obj → Obj} (hf : (d.obj o).SameOwner (f (d.obj o)))
    (hfile : (f (d.obj o)).file = (d.obj o).file)
    (hch : (f (d.obj o)).children = (d.obj o).children) : Moved o d (d.modObj o f) := by
  refine ⟨rfl, fun o' => ?_, fun o' => ?_, fun o' ho' => ?_, fun dir => ?_⟩
  · by_cases hoo : o' = o
    · subst hoo
      simpa [Dev.modObj] using hf
    · simpa [Dev.modObj, hoo] using Obj.SameOwner.refl _
  · by_cases hoo : o' = o
    · subst hoo
      simpa [Dev.modObj] using hfile
    · simp [Dev.modObj, hoo]
  · simp [Dev.modObj, ho']
  · by_cases hoo : dir = o
    · subst hoo
      simp [Dev.modObj, hch]
    · simp [Dev.modObj, hoo]

/-- The object enters or leaves a list of children. -/
theorem modChildren {dir : ℕ} {l : List ℕ} (hl : l.filter (· ∉ [o]) = (d.obj dir).children.filter (· ∉ [o])) :
    Moved o d (d.modObj dir fun ob => { ob with children := l }) := by
  refine ⟨rfl, fun o' => ?_, fun o' => ?_, fun o' ho' => ?_, fun dir' => ?_⟩
  · by_cases hoo : o' = dir
    · subst hoo
      simp only [Dev.modObj, Function.update_self]
      exact ⟨rfl, rfl, rfl, rfl, rfl, id, fun _ => rfl, id⟩
    · simpa [Dev.modObj, hoo] using Obj.SameOwner.refl _
  · by_cases hoo : o' = dir
    · subst hoo
      simp [Dev.modObj]
    · simp [Dev.modObj, hoo]
  · by_cases hoo : o' = dir
    · subst hoo
      simp [Dev.modObj, Obj.attrs]
    · simp [Dev.modObj, hoo]
  · by_cases hoo : dir' = dir
    · subst hoo
      simpa [Dev.modObj] using hl
    · simp [Dev.modObj, hoo]

theorem count (h : Moved o d d') (n : ℤ) : Moved o d { d' with nUnlinkedFiles := n } :=
  ⟨by rw [h.eq], h.same, h.file, h.attrs, h.children⟩

theorem softDel (h : Moved o d d') (o' : ℕ) : (d'.obj o').softDel = (d.obj o').softDel :=
  (h.same o').softDel

theorem inv (h : Moved o d d') (hd : Inv g T d) : Inv g T d' := by
  have := hd.setObj h.same
  rw [h.eq]
  exact ⟨this.acc, this.own⟩

theorem toBlockDev (h : Moved o d d') : d'.toBlockDev = d.toBlockDev := by rw [h.eq]

theorem ids (h : Moved o d d') : d'.ids = d.ids := by rw [h.eq]

theorem frame (h : Moved o d d') : GcFrame [o] [] d d' := by
  have hkept : d'.kept = d.kept := by rw [h.toBlockDev]
  refine ⟨⟨fun o' _ => h.softDel o', fun o' _ ho' => h.ids ▸ ho', fun o' ho' _ => ?_, fun dir => ?_⟩, ?_, ?_, ?_⟩
  · refine ⟨h.attrs o' (by simpa using ho'), by rw [h.file]; exact FileVar.SameFile.refl _, by rw [h.ids], ?_⟩
    intro k x _
    rw [hkept]
  · have hfilter : ∀ x : Dev, (∀ o', (x.obj o').softDel = (d.obj o').softDel) → liveChildren [o] x dir =
        ((x.obj dir).children.filter (· ∉ [o])).filter fun o' => !(d.obj o').softDel := by
      intro x hx
      unfold liveChildren
      rw [List.filter_filter]
      simp only [hx]
    rw [hfilter d' h.softDel, hfilter d fun _ => rfl, h.children]
  · rw [h.eq]
    exact cacheKept_refl _ d _
  · rw [h.eq]
  · rw [h.eq]

theorem clean (h : Moved o d d') (hcl : CleanList d) : CleanList d' :=
  hcl.mono (by rw [h.eq]) fun o' ho' hs =>
    ⟨h.ids ▸ ho', (h.softDel o').trans hs, (h.same o').nDataChunks.le⟩

theorem collected (h : Moved o d d') (hd : Inv g T d) : Collected g T [o] [] d d' :=
  ⟨h.inv hd, h.frame, h.clean⟩

end Moved

theorem filter_erase_self (l : List ℕ) (o : ℕ) : (l.erase o).filter (· ∉ [o]) = l.filter (· ∉ [o]) := by
  induction l with
  | nil => rfl
  | cons x l ih =>
    by_cases hx : x = o
    · subst hx
      simp
    · rw [List.erase_cons_tail (by simpa using hx), List.filter_cons, List.filter_cons, ih]

theorem removeObjFromDir_moved (o : ℕ) (d : Dev) : Moved o d (removeObjFromDir o d) := by
  have hparent : ∀ x : Dev, Moved o x (x.modObj o fun ob => { ob with parent := none }) := fun x =>
    Moved.modObj ⟨rfl, rfl, rfl, rfl, rfl, id, fun _ => rfl, id⟩ rfl rfl
  unfold removeObjFromDir
  cases (d.obj o).parent with
  | none => exact hparent d
  | some p => exact (Moved.modChildren (filter_erase_self _ _)).trans (hparent _)

theorem addObjToDir_moved (dir o : ℕ) (d : Dev) : Moved o d (addObjToDir dir o d) := by
  have hadd : ∀ x : Dev, Moved o x ((x.modObj dir fun ob => { ob with children := o :: ob.children }).modObj o
      fun ob => { ob with parent := some dir }) := by
    intro x
    have hcons : Moved o x (x.modObj dir fun ob => { ob with children := o :: ob.children }) :=
      Moved.modChildren (by simp)
    refine hcons.trans ?_
    exact Moved.modObj ⟨rfl, rfl, rfl, rfl, rfl, id, fun _ => rfl, id⟩ rfl rfl
  have hmoved := (removeObjFromDir_moved o d).trans (hadd _)
  unfold addObjToDir
  simp only
  split_ifs
  · refine (hmoved.trans ?_).count _
    exact Moved.modObj ⟨rfl, rfl, rfl, rfl, rfl, id, fun _ => rfl, id⟩ rfl rfl
  · exact hmoved

theorem setObjName_moved (o : ℕ) (name : Name) (d : Dev) :
    Moved o d (d.modObj o fun ob => { setObjName o name ob with dirty := true }) := by
  have hset : ∀ ob : Obj, ob.SameOwner { setObjName o name ob with dirty := true } ∧
      { setObjName o name ob with dirty := true }.file = ob.file ∧
      { setObjName o name ob with dirty := true }.children = ob.children := by
    intro ob
    unfold setObjName
    split_ifs <;> exact ⟨⟨rfl, rfl, rfl, rfl, rfl, id, fun _ => rfl, id⟩, rfl, rfl⟩
  exact Moved.modObj (hset _).1 (hset _).2.1 (hset _).2.2

/-! ## Headers -/

/-- The object is in the hash table, and its freeing is not deferred. -/
structure Held (d : Dev) (o : ℕ) : Prop where
  id : o ∈ d.ids
  notFreed : (d.obj o).deferredFree = false

theorem GcFrame.held {S : List ℕ} {X : List (ℕ × ℕ)} (h : GcFrame S X d d') (ho : Held d o) (hS : o ∉ S)
    (hs : (d.obj o).softDel = false) : Held d' o :=
  let h := h.same o hS hs
  ⟨h.ids.mpr ho.id, (Obj.deferredFree_eq h.attrs).trans ho.notFreed⟩

theorem Moved.held {o' : ℕ} (h : Moved o d d') (ho : Held d o') : Held d' o' :=
  ⟨h.ids ▸ ho.id, (h.same o').deferredFree.trans ho.notFreed⟩

/-- What a gc that runs before a header is written does. -/
def Collects (g : Geometry) (T : ℕ → BlockState → Prop) (gc : Dev → Dev) : Prop :=
  ∀ d, Inv g T d → CleanList d → Collected g T [] [] d (gc d)

/-- The gc does nothing, or it can clean up and leaves the object `o`. -/
def Leaves (gc : Dev → Dev) (o : ℕ) (d : Dev) : Prop :=
  gc = (fun d => d) ∨ CleanList d ∧ (d.obj o).softDel = false

section Header

variable {gc : Dev → Dev}

theorem Collects.collected (hgc : Collects g T gc) (h : Inv g T d) (hl : Leaves gc o d) :
    Collected g T [] [] d (gc d) := by
  rcases hl with rfl | ⟨hcl, -⟩
  · exact Collected.refl h
  · exact hgc d h hcl

theorem Collects.held (hgc : Collects g T gc) (h : Inv g T d) (hl : Leaves gc o d) (ho : Held d o) :
    Held (gc d) o := by
  rcases hl with rfl | ⟨hcl, hs⟩
  · exact ho
  · exact (hgc d h hcl).frame.held ho (by simp) hs

theorem Leaves.of_moved (h : Moved o d d') (hl : Leaves gc o d) : Leaves gc o d' :=
  hl.imp id fun ⟨hcl, hs⟩ => ⟨h.clean hcl, (h.softDel o).trans hs⟩

/-- A header has been written in the chunk `c`, and takes the place of the old one. -/
theorem replaceHdr_collected {bd : BlockDev} {c : ℕ} {q : Page} (h : Inv g T d) (ho : Held d o)
    (hq : q.key = (o, 0)) (hu : q.tags.isDeleted = false) (hdata : ∃ oh, q.data = .hdr oh)
    (hc : d.kept c = none) (hw : Wrote g T anyBlock d.toBlockDev bd (Function.update d.kept c (some q))) :
    Collected g T [] [(o, 0)] d
      (replaceHdr g e o (d.obj o).hdrChunk c { d with toBlockDev := bd }) := by
  have hmem := hw.mem_chunks (c := c) (p := q) (by simp)
  have hpage : Ownable d o 0 q := ⟨hq, ho.id, ho.notFreed, hu⟩
  have hframe : ∀ bd' : BlockDev, bd'.kept = replacePage d.kept (d.obj o).hdrChunk c q →
      GcFrame [] [(o, 0)] d { d with
        toBlockDev := bd', obj := Function.update d.obj o { d.obj o with hdrChunk := c } } := by
    intro bd' hkept
    refine GcFrame.update (fun o' k x hk => ?_) rfl (FileVar.SameFile.refl _) rfl
    rw [hkept]
    refine content_replace_of_ne hc (fun q' hq' => ?_) fun hkey => hk ?_
    · by_cases h0 : (d.obj o).hdrChunk = 0
      · rw [h0, h.own.zero_none] at hq'
        simp at hq'
      · obtain ⟨p, hp, hkey⟩ := h.own.hdr o h0
        rw [hp] at hq'
        rw [← Option.some.inj hq', hkey, hq]
    · rw [← hkey, hq]
      simp
  have hclean : ∀ bd' : BlockDev, CleanList d → CleanList { d with
      toBlockDev := bd', obj := Function.update d.obj o { d.obj o with hdrChunk := c } } := by
    refine fun bd' hcl => hcl.mono rfl fun o' ho' hs => ⟨ho', ?_⟩
    by_cases hoo : o' = o
    · subst hoo
      simpa using hs
    · simpa [hoo] using hs
  unfold replaceHdr
  split_ifs with hprev
  · obtain ⟨p, hp, -⟩ := h.own.hdr o (by omega)
    obtain ⟨hacc, hkept⟩ := h.acc.swap (e := e) hw hc hp (h.own.softOf_hdr o) true
    exact ⟨h.swapHdr hpage hdata hc hmem hacc hkept, hframe _ hkept, hclean _⟩
  · have h0 : (d.obj o).hdrChunk = 0 := by omega
    have hkept : bd.kept = replacePage d.kept (d.obj o).hdrChunk c q := by
      rw [hw.kept, h0, replacePage_zero h.own.zero_none]
    exact ⟨h.swapHdr hpage hdata hc hmem (h.acc.wrote hw) hkept, hframe _ hkept, hclean _⟩

/-- The marks `dirty` and `has_shrink_hdr` belong to nobody. -/
theorem Collected.flags {S : List ℕ} {X : List (ℕ × ℕ)} (h : Collected g T S X d d') (x : Bool) :
    Collected g T S X d (d'.modObj o fun ob => { ob with dirty := x }) := by
  refine ⟨h.inv.modObj ⟨rfl, rfl, rfl, rfl, rfl, id, fun _ => rfl, id⟩, ?_, fun hcl => ?_⟩
  · have hdirty : GcFrame [] [] d' (d'.modObj o fun ob => { ob with dirty := x }) :=
      GcFrame.update (fun _ _ _ _ => Iff.rfl) rfl (FileVar.SameFile.refl _) rfl
    exact h.frame.trans (hdirty.mono (by simp) (by simp))
  · refine (h.clean hcl).mono rfl fun o' ho' hs => ⟨ho', ?_⟩
    by_cases hoo : o' = o
    · subst hoo
      simpa [Dev.modObj] using hs
    · simpa [Dev.modObj, hoo] using hs

/-- The end of a header write : the object is clean unless its cached chunks are dirty. -/
theorem Collected.written {S : List ℕ} {X : List (ℕ × ℕ)} (h : Collected g T S X d d') (o : ℕ) :
    Collected g T S X d
      (if objCacheDirty d' o then d' else d'.modObj o fun ob => { ob with dirty := false }) := by
  split_ifs
  · exact h
  · exact h.flags false

theorem Collected.shrinkHdr {S : List ℕ} {X : List (ℕ × ℕ)} {b : ℕ} (h : Collected g T S X d d')
    (hb : b ∈ g.blocks) : Collected g T S X d
      (d'.mapBlocks fun bd => bd.modBlock b fun bi => { bi with hasShrinkHdr := true }) := by
  have hacc := h.inv.acc.modBlock (f := fun bi => { bi with hasShrinkHdr := true })
    (h.inv.acc.blk.flags (b := b) (fun _ => rfl) (fun _ => rfl) (fun _ => rfl) (fun _ => rfl)) hb rfl rfl rfl
    Iff.rfl
  exact h.trans ((Collected.setBlocks h.inv hacc rfl).mono (by simp) (by simp))

/-- Writing the header of an object. -/
theorem updateOhWith_collected (hgc : Collects g T gc) (h : Inv g T d) (hl : Leaves gc o d)
    (ho : Held d o) (name : Option Name) (force isShrink : Bool) (shadows : ℕ) :
    Collected g T [] [(o, 0)] d (updateOhWith g e gc o name force isShrink shadows d).1 := by
  unfold updateOhWith
  by_cases hfake : (d.obj o).fake = true ∧ o ≠ objectIdRoot ∧ force = false
  · rw [if_pos hfake]
    exact Collected.refl h
  · rw [if_neg hfake]
    have hcol := (hgc.collected h hl).mono (R := []) (Y := [(o, 0)]) (by simp) (by simp)
    have ho := hgc.held h hl ho
    have h := hcol.inv
    generalize gc d = x at *
    simp only [Dev.onBlocks]
    generalize objHdr x o name isShrink shadows = oh
    have hspec := writeNewChunk_spec (e := e) h.acc.ready (.hdr oh) (t := hdrTags o oh) rfl
      (h.own.ids_ne o ho.id) (decide (0 < (x.obj o).hdrChunk))
    generalize decide (0 < (x.obj o).hdrChunk) = reserve at hspec ⊢
    split
    · next hnone =>
      rw [hnone] at hspec
      exact hcol.trans ((Collected.setBlocks h (h.acc.wrote hspec) hspec.kept).mono (by simp) (by simp))
    · next c hsome =>
      rw [hsome] at hspec
      obtain ⟨hc, -, q, hq, hw⟩ := hspec
      have hmem := mem_chunks.mp (hw.mem_chunks (c := c) (p := q) (by simp))
      have hput := replaceHdr_collected (e := e) h ho (Prod.ext hq.objId hq.chunkId) hq.unmarked
        ⟨_, hq.data⟩ hc hw
      have hcol := (hcol.trans hput).written o
      cases isShrink
      · exact hcol
      · exact hcol.shrinkHdr hmem

end Header

theorem HdrStep.held (h : HdrStep d d') (ho : Held d o) : Held d' o :=
  ⟨h.ids ▸ ho.id, (h.deferredFree o).trans ho.notFreed⟩

/-! ## Renaming -/

section Rename

variable {gc : Dev → Dev}

/-- A renaming is refused, or moves the object and writes its header. -/
theorem changeObjNameWith_cases (gc : Dev → Dev) (o : ℕ) (newDir : Option ℕ) (newName : Name)
    (force : Bool) (shadows : ℕ) (d : Dev) :
    changeObjNameWith g e gc o newDir newName force shadows d = (d, false) ∨
    ∃ (x : Dev) (del : Bool), Moved o d x ∧
      (changeObjNameWith g e gc o newDir newName force shadows d).1 =
        (updateOhWith g e gc o (some newName) false del shadows x).1 := by
  unfold changeObjNameWith
  cases newDir.or (d.obj o).parent with
  | none => exact Or.inl rfl
  | some dir =>
    simp only
    split_ifs
    · exact Or.inl rfl
    all_goals
      refine Or.inr ⟨_, decide (dir = objectIdDeleted), ?_, rfl⟩
      have hmoved := (setObjName_moved o newName d).trans (addObjToDir_moved dir o _)
    · exact hmoved.trans (Moved.modObj ⟨rfl, rfl, rfl, rfl, rfl, id, fun _ => rfl, id⟩ rfl rfl)
    · exact hmoved

theorem changeObjNameWith_collected (hgc : Collects g T gc) (h : Inv g T d) (hl : Leaves gc o d)
    (ho : Held d o) (newDir : Option ℕ) (newName : Name) (force : Bool) (shadows : ℕ) :
    Collected g T [o] [(o, 0)] d (changeObjNameWith g e gc o newDir newName force shadows d).1 := by
  rcases changeObjNameWith_cases (g := g) (e := e) gc o newDir newName force shadows d with
    heq | ⟨x, del, hx, heq⟩
  · rw [heq]
    exact Collected.refl h
  · rw [heq]
    have hmoved := (hx.collected h).mono (R := [o]) (Y := [(o, 0)]) (by simp) (by simp)
    refine hmoved.trans ?_
    exact (updateOhWith_collected hgc hmoved.inv (hl.of_moved hx) (hx.held ho) _ _ _ _).mono (by simp) (by simp)

end Rename

/-! ## Deletion -/

theorem Own.noData_iff {K : Pages} {ids : List ℕ} {obj : ℕ → Obj} (h : Own g K ids obj) :
    (obj o).nDataChunks ≤ 0 ↔ ∀ k x, k ≠ 0 → ¬Content K o k x := by
  rw [h.count o]
  constructor
  · rintro hle k x hk ⟨c, p, hp, hkey, -⟩
    have hzero : countData g K o = 0 :=
      le_antisymm hle (Tally.tally_nonneg fun c _ => dataWeight_nonneg o _)
    have := Tally.tally_eq_zero (fun c _ => dataWeight_nonneg o _) hzero c (h.chunk_mem hp)
    rw [hp, dataWeight_of_key hkey] at this
    simp [hk] at this
  · intro hno
    refine le_of_eq (Tally.tally_zero fun c _ => ?_)
    cases hp : K c with
    | none => rfl
    | some p =>
      by_cases hk : p.tags.objId = o ∧ p.tags.chunkId ≠ 0
      · exact absurd ⟨c, p, hp, Prod.ext hk.1 rfl, rfl⟩ (hno p.tags.chunkId p.data.core hk.2)
      · rw [dataWeight_of_key (o := p.tags.objId) (k := p.tags.chunkId) rfl]
        exact if_neg fun hk' => hk ⟨hk'.1.symm, hk'.2⟩

/-- The object is in the hash table and has no data. -/
structure Doomed (d : Dev) (o : ℕ) : Prop extends Held d o where
  noData : (d.obj o).nDataChunks ≤ 0

section Delete

variable {gc : Dev → Dev}

theorem HdrStep.doomed (h : HdrStep d d') (ho : Doomed d o) : Doomed d' o :=
  ⟨h.held ho.toHeld, (h.nDataChunks o).trans_le ho.noData⟩

theorem Moved.doomed {o' : ℕ} (h : Moved o d d') (ho : Doomed d o') : Doomed d' o' :=
  ⟨h.held ho.toHeld, (h.same o').nDataChunks.trans_le ho.noData⟩

theorem Collects.doomed (hgc : Collects g T gc) (h : Inv g T d) (hl : Leaves gc o d) (ho : Doomed d o) :
    Doomed (gc d) o := by
  refine ⟨hgc.held h hl ho.toHeld, ?_⟩
  rcases hl with rfl | ⟨hcl, hs⟩
  · exact ho.noData
  · have hcol := hgc d h hcl
    rw [hcol.inv.own.noData_iff]
    intro k x hk hx
    exact h.own.noData_iff.mp ho.noData k x hk
      (((hcol.frame.same o (by simp) hs).content k x (by simp)).mp hx)

theorem updateOhWith_doomed (hgc : Collects g T gc) (h : Inv g T d) (hl : Leaves gc o d)
    (ho : Doomed d o) (name : Option Name) (force isShrink : Bool) (shadows : ℕ) :
    Doomed (updateOhWith g e gc o name force isShrink shadows d).1 o := by
  rcases updateOhWith_step (g := g) (e := e) gc o name force isShrink shadows d with heq | hstep
  · rw [heq]
    exact ho
  · exact hstep.doomed (hgc.doomed h hl ho)

theorem changeObjNameWith_doomed (hgc : Collects g T gc) (h : Inv g T d) (hl : Leaves gc o d)
    (ho : Doomed d o) (newDir : Option ℕ) (newName : Name) (force : Bool) (shadows : ℕ) :
    Doomed (changeObjNameWith g e gc o newDir newName force shadows d).1 o := by
  rcases changeObjNameWith_cases (g := g) (e := e) gc o newDir newName force shadows d with
    heq | ⟨x, del, hx, heq⟩
  · rw [heq]
    exact ho
  · rw [heq]
    exact updateOhWith_doomed hgc (hx.inv h) (hl.of_moved hx) (hx.doomed ho) _ _ _ _

/-- The header of an object goes. -/
theorem dropHdr_collected (h : Inv g T d) : Collected g T [] [(o, 0)] d
    ((d.mapBlocks (chunkDel g e (d.obj o).hdrChunk true)).modObj o fun ob => { ob with hdrChunk := 0 }) := by
  have hbd : ∃ bd : BlockDev, chunkDel g e (d.obj o).hdrChunk true d.toBlockDev = bd ∧
      Accounts g T (softOf d.kept d.obj) bd ∧
      bd.kept = Function.update d.kept (d.obj o).hdrChunk none ∧
      ∀ o' k x, (o', k) ∉ [(o, 0)] → (Content bd.kept o' k x ↔ Content d.kept o' k x) := by
    by_cases h0 : (d.obj o).hdrChunk = 0
    · refine ⟨_, by rw [h0, chunkDel_zero], h.acc, ?_, fun _ _ _ _ => Iff.rfl⟩
      rw [h0, ← h.own.zero_none, Function.update_eq_self]
    · obtain ⟨p, hp, hkey⟩ := h.own.hdr o h0
      have hbit := Accounts.bit_of_kept hp
      have hkept := (chunkDel_spec (e := e) h.acc.blk hbit true).kept
      refine ⟨_, rfl, h.acc.delete hbit (h.own.softOf_hdr o) true, hkept, fun o' k x hk => ?_⟩
      rw [hkept]
      refine content_drop_of_ne hp fun hkey' => hk ?_
      rw [← hkey', hkey]
      simp
  obtain ⟨bd, heq, hacc, hkept, hcontent⟩ := hbd
  have hsame : ∀ o', (Function.update d.obj o { d.obj o with hdrChunk := 0 } o').softDel =
      (d.obj o').softDel := by
    intro o'
    by_cases hoo : o' = o
    · subst hoo
      simp
    · simp [hoo]
  have hdev : (d.mapBlocks (chunkDel g e (d.obj o).hdrChunk true)).modObj o
      (fun ob => { ob with hdrChunk := 0 }) =
      { d with toBlockDev := bd, obj := Function.update d.obj o { d.obj o with hdrChunk := 0 } } := by
    rw [← heq]
    rfl
  rw [hdev]
  refine ⟨⟨?_, ?_⟩, GcFrame.update hcontent rfl (FileVar.SameFile.refl _) rfl, fun hcl => ?_⟩
  · change Accounts g T (softOf bd.kept _) bd
    rw [softOf_congr hsame, hkept, softOf_drop]
    have hsoft := h.own.softOf_hdr o
    rwa [← hsoft, Function.update_eq_self]
  · change Own g bd.kept d.ids _
    rw [hkept]
    exact h.own.dropHdr o
  · refine hcl.mono rfl fun o' ho' hs => ⟨ho', ?_⟩
    by_cases hoo : o' = o
    · subst hoo
      simpa using hs
    · simpa [hoo] using hs

/-- An object without pages is freed, or its freeing is deferred. -/
theorem freeObj_spec (h : Inv g T d) (hno : ∀ c p, d.kept c = some p → p.tags.objId ≠ o) :
    Inv g T (freeObj o d) ∧ GcFrame [o] [] d (freeObj o d) ∧
      ((d.obj o).softDel = false → CleanList d → CleanList (freeObj o d)) := by
  unfold freeObj
  split_ifs with hinode
  · have hsame : ∀ o', (Function.update d.obj o { d.obj o with deferredFree := true } o').softDel =
        (d.obj o').softDel := by
      intro o'
      by_cases hoo : o' = o
      · subst hoo
        simp
      · simp [hoo]
    refine ⟨⟨?_, h.own.defer hno⟩, ⟨⟨fun o' _ => hsame o', fun _ _ ho => ho, fun o' ho' _ => ?_, fun dir => ?_⟩,
      cacheKept_refl _ d _, rfl, rfl⟩, fun _ hcl => hcl.mono rfl fun o' ho' hs => ?_⟩
    · change Accounts g T (softOf d.kept (Function.update d.obj o { d.obj o with deferredFree := true }))
        d.toBlockDev
      rw [softOf_congr hsame]
      exact h.acc
    · have hoo : o' ≠ o := by simpa using ho'
      exact ⟨by simp [Dev.modObj, hoo], by simpa [Dev.modObj, hoo] using FileVar.SameFile.refl _, Iff.rfl,
        fun _ _ _ => Iff.rfl⟩
    · unfold liveChildren
      simp only [Dev.modObj, hsame]
      by_cases hoo : dir = o
      · subst hoo
        simp
      · simp [hoo]
    · refine ⟨ho', ?_⟩
      by_cases hoo : o' = o
      · subst hoo
        simpa [Dev.modObj] using hs
      · simpa [Dev.modObj, hoo] using hs
  · refine ⟨⟨?_, h.own.unhash hno⟩, ⟨⟨fun _ _ => rfl, fun _ _ ho => List.mem_of_mem_erase ho,
      fun o' ho' _ => ?_, fun _ => rfl⟩, cacheKept_refl _ d _, rfl, rfl⟩, fun hs hcl o' ho' => ?_⟩
    · have hacc := h.acc
      exact ⟨{ hacc.blk with }, { hacc.opn with }, { hacc.free with }, hacc.checkptInv, hacc.programmed⟩
    · have hoo : o' ≠ o := by simpa using ho'
      exact ⟨rfl, FileVar.SameFile.refl _, List.mem_erase_of_ne hoo, fun _ _ _ => Iff.rfl⟩
    · obtain ⟨h1, h2, h3⟩ := hcl o' ho'
      have hoo : o' ≠ o := by
        rintro rfl
        rw [hs] at h2
        exact Bool.noConfusion h2
      exact ⟨(List.mem_erase_of_ne hoo).mpr h1, h2, h3⟩

theorem invalidateFileCache_collected (h : Inv g T d) :
    Collected g T [o] [] d (invalidateFileCache o d) := by
  refine ⟨⟨h.acc, h.own⟩, ⟨⟨fun _ _ => rfl, fun _ _ h => h,
    fun _ _ _ => ⟨rfl, FileVar.SameFile.refl _, Iff.rfl, fun _ _ _ => Iff.rfl⟩, fun _ => rfl⟩, ?_, rfl, rfl⟩,
    fun hcl => hcl⟩
  change List.Forall₂ _ d.cache (d.cache.map _)
  rw [List.forall₂_map_right_iff]
  refine List.forall₂_same.mpr fun c _ => ?_
  split_ifs with hc
  · exact Or.inr ⟨o, hc, Or.inr (by simp), rfl⟩
  · exact Or.inl rfl

/-- `yaffs_generic_obj_del` on an object without data. -/
structure Deleted (g : Geometry) (T : ℕ → BlockState → Prop) (o : ℕ) (d d' : Dev) : Prop where
  inv : Inv g T d'
  frame : GcFrame [o] [(o, 0)] d d'
  clean : (d.obj o).softDel = false → CleanList d → CleanList d'

/-- The marks gc goes by are those of before. -/
def SameMarks (d d' : Dev) : Prop :=
  ∀ o, (d'.obj o).softDel = (d.obj o).softDel ∧ (d'.obj o).nDataChunks = (d.obj o).nDataChunks

theorem SameMarks.trans (h : SameMarks d d') (h' : SameMarks d' d'') : SameMarks d d'' :=
  fun o => ⟨(h' o).1.trans (h o).1, (h' o).2.trans (h o).2⟩

theorem SameMarks.modObj {f : Obj → Obj} (hf : (f (d.obj o)).softDel = (d.obj o).softDel ∧
    (f (d.obj o)).nDataChunks = (d.obj o).nDataChunks) : SameMarks d (d.modObj o f) := by
  intro o'
  by_cases hoo : o' = o
  · subst hoo
    simpa [Dev.modObj] using hf
  · simp [Dev.modObj, hoo]

theorem Moved.sameMarks (h : Moved o d d') : SameMarks d d' :=
  fun o' => ⟨h.softDel o', (h.same o').nDataChunks⟩

theorem HdrStep.sameMarks (h : HdrStep d d') : SameMarks d d' :=
  fun o => ⟨h.softDel o, h.nDataChunks o⟩

theorem freeObj_sameMarks (o : ℕ) (d : Dev) : SameMarks d (freeObj o d) := by
  unfold freeObj
  split_ifs
  · exact SameMarks.modObj ⟨rfl, rfl⟩
  · exact fun _ => ⟨rfl, rfl⟩

/-- Soft deletion is not undone. -/
theorem changeObjNameWith_softDel (hgc : Collects g T gc) (h : Inv g T d) (hl : Leaves gc o d)
    (newDir : Option ℕ) (newName : Name) (force : Bool) (shadows : ℕ) (o' : ℕ) :
    ((changeObjNameWith g e gc o newDir newName force shadows d).1.obj o').softDel =
      (d.obj o').softDel := by
  rcases changeObjNameWith_cases (g := g) (e := e) gc o newDir newName force shadows d with
    heq | ⟨x, del, hx, heq⟩
  · rw [heq]
  · rw [heq]
    rcases updateOhWith_step (g := g) (e := e) gc o (some newName) false del shadows x with heq' | hstep
    · rw [heq']
      exact hx.softDel o'
    · rw [hstep.softDel, (hgc.collected (hx.inv h) (hl.of_moved hx)).frame.soft o' (by simp)]
      exact hx.softDel o'

/-- With no gc before the headers, deletion keeps all marks. -/
theorem genericObjDelWith_sameMarks (o : ℕ) (d : Dev) :
    SameMarks d (genericObjDelWith g e (fun d => d) o d) := by
  have hname : ∀ x : Dev, SameMarks x
      (changeObjNameWith g e (fun d => d) o (some objectIdDeleted) deletedName false 0 x).1 := by
    intro x
    rcases changeObjNameWith_cases (g := g) (e := e) (fun d => d) o (some objectIdDeleted) deletedName false 0 x
      with heq | ⟨y, del, hy, heq⟩
    · rw [heq]
      exact fun _ => ⟨rfl, rfl⟩
    · rw [heq]
      refine hy.sameMarks.trans ?_
      rcases updateOhWith_step (g := g) (e := e) (fun d => d) o (some deletedName) false del 0 y with
        heq' | hstep
      · rw [heq']
        exact fun _ => ⟨rfl, rfl⟩
      · exact hstep.sameMarks
  have hend : ∀ x : Dev, SameMarks x (freeObj o (((removeObjFromDir o x).mapBlocks
      (chunkDel g e ((removeObjFromDir o x).obj o).hdrChunk true)).modObj o
        fun ob => { ob with hdrChunk := 0 })) := by
    intro x
    refine (removeObjFromDir_moved o x).sameMarks.trans (SameMarks.trans ?_ (freeObj_sameMarks o _))
    exact SameMarks.modObj ⟨rfl, rfl⟩
  unfold genericObjDelWith
  simp only
  split_ifs
  · exact SameMarks.trans (hname (invalidateFileCache o d)) (hend _)
  · exact hend (invalidateFileCache o d)

theorem genericObjDelWith_deleted (hgc : Collects g T gc) (h : Inv g T d) (hl : Leaves gc o d)
    (ho : Doomed d o) : Deleted g T o d (genericObjDelWith g e gc o d) := by
  have hend : ∀ x : Dev, Collected g T [o] [(o, 0)] d x → Doomed x o →
      (x.obj o).softDel = (d.obj o).softDel →
      Deleted g T o d (freeObj o (((removeObjFromDir o x).mapBlocks
        (chunkDel g e ((removeObjFromDir o x).obj o).hdrChunk true)).modObj o
          fun ob => { ob with hdrChunk := 0 })) := by
    intro x hx hdoom hs
    have hmoved := removeObjFromDir_moved o x
    have hremove := hx.trans ((hmoved.collected hx.inv).mono (R := [o]) (Y := [(o, 0)]) (by simp) (by simp))
    have hdoom := hmoved.doomed hdoom
    have hs' := (hmoved.softDel o).trans hs
    generalize removeObjFromDir o x = y at *
    have hdrop := dropHdr_collected (e := e) (o := o) hremove.inv
    have hmarks : SameMarks y ((y.mapBlocks (chunkDel g e (y.obj o).hdrChunk true)).modObj o
        fun ob => { ob with hdrChunk := 0 }) := SameMarks.modObj ⟨rfl, rfl⟩
    have hhdr : (((y.mapBlocks (chunkDel g e (y.obj o).hdrChunk true)).modObj o
        fun ob => { ob with hdrChunk := 0 }).obj o).hdrChunk = 0 := by simp [Dev.modObj]
    have hcol := hremove.trans (hdrop.mono (R := [o]) (Y := [(o, 0)]) (by simp) (by simp))
    generalize (y.mapBlocks (chunkDel g e (y.obj o).hdrChunk true)).modObj o
      (fun ob => { ob with hdrChunk := 0 }) = z at *
    have hno : ∀ c p, z.kept c = some p → p.tags.objId ≠ o := fun c p hp =>
      hcol.inv.own.no_page hhdr ((hmarks o).2.trans_le hdoom.noData) hp
    obtain ⟨hinv, hframe, hclean⟩ := freeObj_spec hcol.inv hno
    refine ⟨hinv, hcol.frame.trans (hframe.mono (by simp) (by simp)), fun hsoft hcl => ?_⟩
    exact hclean (((hmarks o).1.trans hs').trans hsoft) (hcol.clean hcl)
  have hinval := (invalidateFileCache_collected (o := o) h).mono (R := [o]) (Y := [(o, 0)]) (by simp) (by simp)
  have hl' : Leaves gc o (invalidateFileCache o d) := hl
  have ho' : Doomed (invalidateFileCache o d) o := ⟨⟨ho.id, ho.notFreed⟩, ho.noData⟩
  unfold genericObjDelWith
  simp only
  split_ifs
  · refine hend _ (hinval.trans (changeObjNameWith_collected hgc hinval.inv hl' ho'.toHeld _ _ _ _)) ?_ ?_
    · exact changeObjNameWith_doomed hgc hinval.inv hl' ho' _ _ _ _
    · exact changeObjNameWith_softDel hgc hinval.inv hl' _ _ _ _ o
  · exact hend _ hinval ho' rfl

end Delete

end Yaffs
