import Yaffs.Caching

/-!
# Flushing and deleting keep the cache in order

The functions that only take entries out of the cache : writing headers, flushing, shrinking a file
and deleting an object. A file is deleted with its entries, so that it must have no dirty ones; on a
device that deletes files by resizing them, it has none left by then.
-/

namespace Yaffs

variable {g : Geometry} {e : Env} {d d' d'' x : Dev} {o : ℕ} {S : List ℕ}

/-! ## Headers -/

theorem updateOh_tidying (o : ℕ) (name : Option Name) (force isShrink : Bool) (shadows : ℕ) :
    Tidying g fun d => (updateOh g e o name force isShrink shadows d).1 := by
  intro d h
  simp only [updateOh]
  rcases updateOhWith_step (g := g) (e := e) (checkGc g e false) o name force isShrink shadows d with heq | hstep
  · rw [heq]
    exact Tidy.refl h
  · exact (checkGc_tidying false d h).same hstep.sameTies hstep.cache

theorem updateParent_tidying (dir : Option ℕ) : Tidying g (updateParent g e dir) := by
  intro d h
  unfold updateParent updateParentWith
  cases dir with
  | none => exact Tidy.refl h
  | some o =>
    have hmod : Tidy [] d (d.modObj o fun ob => { ob with dirty := true }) :=
      (Tidy.refl h).same (SameTies.modObj rfl) rfl
    simp only
    split_ifs
    · exact hmod
    · exact hmod.same ⟨fun _ => rfl, rfl, rfl⟩ rfl
    · exact hmod.next h (updateOh_tidying (e := e) o none false false 0)

/-- Only gc could touch a ring of hard links, and it does not. -/
theorem updateParent_ring (h : Tied [] d) (dir : Option ℕ) (q : ℕ) :
    ((updateParent g e dir d).obj q).hardLinks = (d.obj q).hardLinks := by
  unfold updateParent updateParentWith
  cases dir with
  | none => rfl
  | some o =>
    have hmod : SameTies d (d.modObj o fun ob => { ob with dirty := true }) := SameTies.modObj rfl
    simp only
    split_ifs
    · exact hmod.get Obj.hardLinks q
    · exact hmod.get Obj.hardLinks q
    · rcases updateOhWith_step (g := g) (e := e) (checkGc g e false) o none false false 0
        (d.modObj o fun ob => { ob with dirty := true }) with heq | hstep
      · rw [heq]
        exact hmod.get Obj.hardLinks q
      · have hgc := checkGc_drops (g := g) (e := e) false (hmod.evolves h).ties
        exact ((congrArg Obj.hardLinks (hstep.body q) : _).trans (hgc.ring q)).trans (hmod.get Obj.hardLinks q)

theorem changeObjName_tidy (h : CacheSound g d) {newDir : Option ℕ}
    (hdir : ∀ dir, newDir.or (d.obj o).parent = some dir → Takes d dir o) (newName : Name) (force : Bool)
    (shadows : ℕ) : Tidy [] d (changeObjName g e o newDir newName force shadows d).1 := by
  unfold changeObjName
  rcases changeObjNameWith_placed (g := g) (e := e) (checkGc g e false) o newDir newName force shadows d with
    ⟨heq, -⟩ | ⟨dir, hnew, htype, heq⟩
  · rw [heq]
    exact Tidy.refl h
  · rw [heq]
    have hname : SameTies d (d.modObj o fun ob => { setObjName o newName ob with dirty := true }) :=
      SameTies.modObj (setObjName_ties o newName _)
    have htidy : Tidy [] d (d.modObj o fun ob => { setObjName o newName ob with dirty := true }) :=
      (Tidy.refl h).same hname rfl
    have htake := (hdir dir hnew).same hname
    generalize d.modObj o (fun ob => { setObjName o newName ob with dirty := true }) = y at *
    have hmove := addObjToDir_evolves (o := o) htidy.evolves.ties htake.mem ((htidy.evolves.type dir).trans htype)
      htake.linked htake.leaf
    have hplaced : Tidy [] d (addObjToDir dir o y) :=
      htidy.evolve hmove (addObjToDir_cache dir o y ▸ tidied_refl _)
        (fun _ _ _ _ ho => addObjToDir_ids dir o y ▸ ho) fun q => hmove.soft q (by simp)
    exact hplaced.next h (updateOh_tidying (e := e) o (some newName) false _ shadows)

/-! ## Flushing -/

theorem wrDataObj_tidying (o k : ℕ) (data : List UInt8) (nBytes : ℕ) (useReserve : Bool) :
    Tidying g fun d => (wrDataObj g e o k data nBytes useReserve d).1 :=
  fun d h => (checkGc_tidying false d h).same (wrDataChunk_sameTies _ _ _ _ _ _) (wrDataChunk_cache _ _ _ _ _ _)

theorem modCache_tidied {i : ℕ} {f : Cache → Cache} (hf : ∀ c, d.cache[i]? = some c → c.Tidied (f c)) :
    List.Forall₂ Cache.Tidied d.cache (d.modCache i f).cache :=
  tidied_modify hf

theorem modCache_getElem? (d : Dev) (i : ℕ) (f : Cache → Cache) : (d.modCache i f).cache[i]? = d.cache[i]?.map f := by
  simp [Dev.modCache]

/-- An entry that has been flushed is clean; one that has been discarded is not in use. -/
theorem flushSingleCache_tidy (h : CacheSound g d) (i : ℕ) (discard : Bool) :
    Tidy [] d (flushSingleCache g e i discard d) ∧
      ∀ c, (flushSingleCache g e i discard d).cache[i]? = some c → c.dirty = false ∧
        (discard = true → c.object = none) := by
  have hdiscard : ∀ y : Dev, (Tidy [] d y ∧ ∀ c, y.cache[i]? = some c → c.dirty = false) →
      Tidy [] d (if discard then y.modCache i fun c => { c with object := none } else y) ∧
        ∀ c, (if discard then y.modCache i fun c => { c with object := none } else y).cache[i]? = some c →
          c.dirty = false ∧ (discard = true → c.object = none) := by
    rintro y ⟨htidy, hclean⟩
    cases discard with
    | false => exact ⟨htidy, fun c hc => ⟨hclean c hc, by simp⟩⟩
    | true =>
      refine ⟨htidy.entries (modCache_sameTies _ _ _) (modCache_tidied fun c hc => Or.inr ⟨rfl, hclean c hc⟩), ?_⟩
      intro c hc
      simp only [if_true] at hc
      rw [modCache_getElem?] at hc
      obtain ⟨b, hb, rfl⟩ := Option.map_eq_some_iff.mp hc
      exact ⟨hclean b hb, fun _ => rfl⟩
  unfold flushSingleCache
  simp only
  refine hdiscard _ ?_
  split
  · next o k _ nBytes data hc =>
    have hw := wrDataObj_tidying (g := g) (e := e) o k data nBytes true d h
    refine ⟨hw.entries (modCache_sameTies _ _ _) (modCache_tidied fun c _ => Or.inl ⟨rfl, rfl, by simp⟩), ?_⟩
    intro c hc'
    rw [modCache_getElem?] at hc'
    obtain ⟨b, -, rfl⟩ := Option.map_eq_some_iff.mp hc'
    rfl
  · next hno =>
    refine ⟨Tidy.refl h, fun c hc => ?_⟩
    obtain ⟨ob, k, use, dirty, nBytes, data⟩ := c
    cases ob with
    | none => exact h.stale _ (List.mem_of_getElem? hc) rfl
    | some o =>
      cases dirty with
      | false => rfl
      | true => exact absurd hc (hno o k use nBytes data)

theorem flushFileCacheStep_tidying (o : ℕ) (discard : Bool) (i : ℕ) :
    Tidying g fun d => flushFileCacheStep g e o discard d i := by
  intro d h
  simp only [flushFileCacheStep]
  split_ifs
  · exact (flushSingleCache_tidy h i discard).1
  · exact Tidy.refl h

theorem Tidying.foldl {α : Type} {f : Dev → α → Dev} (hf : ∀ a, Tidying g fun d => f d a) (l : List α) :
    Tidying g fun d => l.foldl f d := by
  induction l with
  | nil => exact fun d h => Tidy.refl h
  | cons a l ih => exact fun d h => (hf a d h).next h ih

theorem flushFileCache_tidying (o : ℕ) (discard : Bool) : Tidying g (flushFileCache g e o discard) :=
  Tidying.foldl (flushFileCacheStep_tidying o discard) _

/-- An entry in use for another file, or in none, is so after tidying. -/
theorem Tidy.getElem? {i : ℕ} {c : Cache} (h : Tidy S d d') (hno : ∀ c, d.cache[i]? = some c → c.object ≠ some o)
    (hc : d'.cache[i]? = some c) : c.object ≠ some o := by
  obtain ⟨b, hb, ⟨h1, -, -⟩ | ⟨h1, -⟩⟩ := forall₂_getElem? h.cache hc
  · rw [h1]
    exact hno b hb
  · simp [h1]

/-- When the entries of a file have been discarded, it has none. -/
theorem flushFileCache_uncached (h : CacheSound g d) (o : ℕ) : Uncached (flushFileCache g e o true d) o := by
  have hfold : ∀ n, ∀ i < n, ∀ c, ((List.range n).foldl (flushFileCacheStep g e o true) d).cache[i]? = some c →
      c.object ≠ some o := by
    intro n
    induction n with
    | zero => simp
    | succ n ih =>
      intro i hi c hc
      rw [List.range_succ, List.foldl_append, List.foldl_cons, List.foldl_nil] at hc
      have hs : CacheSound g ((List.range n).foldl (flushFileCacheStep g e o true) d) :=
        (Tidying.foldl (flushFileCacheStep_tidying o true) (List.range n) d h).sound h
      generalize (List.range n).foldl (flushFileCacheStep g e o true) d = y at *
      rcases Nat.lt_succ_iff_lt_or_eq.mp hi with hi | rfl
      · exact (flushFileCacheStep_tidying o true n y hs).getElem? (ih i hi) hc
      · unfold flushFileCacheStep at hc
        split_ifs at hc with hany
        · simp [(flushSingleCache_tidy hs i true).2 c hc]
        · simpa [hc] using hany
  intro c hc
  obtain ⟨i, hi⟩ := List.getElem?_of_mem hc
  have hlen := ((flushFileCache_tidying (e := e) o true d h).sound h).length
  refine hfold g.nCaches i ?_ c hi
  rw [← hlen]
  exact (List.getElem?_eq_some_iff.mp hi).1

theorem flushWholeCache_tidying (discard : Bool) : Tidying g (flushWholeCache g e discard) := by
  have hloop : ∀ n, Tidying g (flushWholeCacheLoop g e discard n) := by
    intro n
    induction n with
    | zero => exact fun d h => Tidy.refl h
    | succ n ih =>
      intro d h
      unfold flushWholeCacheLoop
      cases firstDirtyObj d with
      | none => exact Tidy.refl h
      | some o => exact (flushFileCache_tidying o discard d h).next h ih
  exact hloop _

theorem flushFile_tidying (o : ℕ) (dataSync discardCache : Bool) :
    Tidying g fun d => (flushFile g e o dataSync discardCache d).1 := by
  intro d h
  have hflush := flushFileCache_tidying (g := g) (e := e) o discardCache d h
  simp only
  unfold flushFile
  split_ifs
  · exact Tidy.refl h
  · exact hflush
  · exact hflush.next h (updateOh_tidying (e := e) o none false false 0)

/-- Clean entries are dropped. -/
theorem invalidateFileCache_tidy (h : CacheSound g d) (ho : CleanFile d o) :
    Tidy [] d (invalidateFileCache o d) := by
  refine (Tidy.refl h).entries ⟨fun _ => rfl, rfl, rfl⟩ (tidied_map fun c hc => ?_)
  split_ifs with hco
  · exact Or.inr ⟨rfl, ho c hc hco⟩
  · exact Cache.Tidied.refl c

/-! ## Shrinking -/

theorem pruneChunk_cache (o i : ℕ) (d : Dev) : (pruneChunk g e o d i).cache = d.cache := by
  have hfind : (findDelFileChunk g o i d).1.cache = d.cache := by
    unfold findDelFileChunk
    split <;> rfl
  unfold pruneChunk
  simp only
  split
  · exact hfind
  · split_ifs <;> exact hfind

theorem resizeFileDown_tidying (o newSize : ℕ) : Tidying g (resizeFileDown g e o newSize) := by
  intro d h
  have hprune : Tidy [] d (pruneChunks g e o newSize d) :=
    Tidying.foldl (g := g) (fun i x hx => (Tidy.refl hx).same (pruneChunk_sameTies o i x) (pruneChunk_cache o i x)) _ d h
  have hend : ∀ x, Tidy [] d x → Tidy [] d
      (pruneTree o (x.modFile o fun f => { f with fileSize := newSize, storedSize := newSize })) := by
    intro x hx
    have htree : ∀ y : Dev, SameTies y (pruneTree o y) := by
      intro y
      unfold pruneTree
      exact (SameTies.setBlocks y _).trans (SameTies.modFile _ o _)
    exact (hx.same (SameTies.modFile _ _ _) rfl).same (htree _) rfl
  unfold resizeFileDown
  simp only
  split_ifs
  · refine hend _ (hprune.next h ?_)
    unfold rewriteLastChunk
    exact fun y hy => wrDataObj_tidying _ _ _ _ _ y hy
  · exact hend _ hprune

theorem resizeHdr_tidying (o : ℕ) : Tidying g (resizeHdr g e o) := by
  intro d h
  unfold resizeHdr
  split_ifs
  · exact updateOh_tidying o none false false 0 d h
  · exact Tidy.refl h

/-- A file that is resized is flushed, and has no entries at first. -/
theorem resizeStart_tidy (h : CacheSound g d) (o : ℕ) :
    Tidy [] d (checkGc g e false (invalidateFileCache o (flushFileCache g e o true d))) ∧
      Uncached (checkGc g e false (invalidateFileCache o (flushFileCache g e o true d))) o := by
  have hflush := flushFileCache_tidying (g := g) (e := e) o true d h
  have hun := flushFileCache_uncached (e := e) h o
  have hinv := invalidateFileCache_tidy (hflush.sound h) hun.cleanFile
  have hgc := checkGc_tidying (g := g) (e := e) false _ (hinv.sound (hflush.sound h))
  exact ⟨(hflush.trans hinv).trans hgc, hgc.uncached (hinv.uncached hun)⟩

/-- A file that is emptied has no entries left. -/
theorem resizeFile_zero (h : CacheSound g d) (o : ℕ) :
    Tidy [] d (resizeFile g e o 0 d).1 ∧ Uncached (resizeFile g e o 0 d).1 o := by
  obtain ⟨hstart, hun⟩ := resizeStart_tidy (e := e) h o
  have hs := hstart.sound h
  unfold resizeFile
  simp only [Nat.not_lt_zero, if_false]
  generalize checkGc g e false (invalidateFileCache o (flushFileCache g e o true d)) = y at *
  split_ifs
  · exact ⟨hstart, hun⟩
  · exact ⟨hstart, hun⟩
  · have hdown := resizeFileDown_tidying (g := g) (e := e) o 0 y hs
    have hhdr := resizeHdr_tidying (g := g) (e := e) o _ (hdown.sound hs)
    exact ⟨hstart.trans (hdown.trans hhdr), hhdr.uncached (hdown.uncached hun)⟩

theorem emptyFile_tidy (h : CacheSound g d) (o : ℕ) :
    Tidy [] d (emptyFile g e o d) ∧ (g.deletesByResize = true → Uncached (emptyFile g e o d) o) := by
  unfold emptyFile
  split_ifs with hdel
  · exact ⟨(resizeFile_zero h o).1, fun _ => (resizeFile_zero h o).2⟩
  · exact ⟨Tidy.refl h, fun hd => absurd hd hdel⟩

/-! ## Deleting -/

/-- Only files have entries. -/
theorem CacheSound.uncached (h : CacheSound g d) (htype : (d.obj o).variantType ≠ .file) : Uncached d o :=
  fun c hc hco => htype (h.live c hc o hco).2

/-- An object is deleted with its entries. -/
theorem genericObjDel_tidy (h : CacheSound g d) (ho : Removable [] d o) (hclean : CleanFile d o) :
    Tidy [o] d (genericObjDel g e o d) := by
  have hev := (genericObjDel_evolves (g := g) (e := e) h.ties ho).1
  have hinv := invalidateFileCache_tidy h hclean
  have hun := invalidateFileCache_uncached o d
  have hend : ∀ x : Dev, Tidy [] d x → Uncached x o → ∀ y : Dev, y = freeObj o (((removeObjFromDir o x).mapBlocks
      (chunkDel g e ((removeObjFromDir o x).obj o).hdrChunk true)).modObj o fun ob => { ob with hdrChunk := 0 }) →
      Evolves [] [o] d y → Tidy [o] d y := by
    rintro x hx hunx y rfl hy
    have hc : (freeObj o (((removeObjFromDir o x).mapBlocks (chunkDel g e ((removeObjFromDir o x).obj o).hdrChunk
        true)).modObj o fun ob => { ob with hdrChunk := 0 })).cache = x.cache :=
      (freeObj_cache _ _).trans (removeObjFromDir_cache o x)
    refine ⟨hy, hc ▸ hx.cache, fun c hc' q hq => ?_, fun c hc' q hq hs => ?_⟩
    · rw [hc] at hc'
      refine freeObj_mem ?_ fun hqo => hunx c hc' (hqo ▸ hq)
      change q ∈ (removeObjFromDir o x).ids
      rw [removeObjFromDir_ids]
      exact hx.live c hc' q hq
    · rw [hc] at hc'
      refine hx.soft c hc' q hq ?_
      have hqo : q ≠ o := fun hqo => hunx c hc' (hqo ▸ hq)
      have hmark := congrArg Prod.fst (freeObj_marks o q (((removeObjFromDir o x).mapBlocks (chunkDel g e
        ((removeObjFromDir o x).obj o).hdrChunk true)).modObj o fun ob => { ob with hdrChunk := 0 }))
      have hrem := congrArg Obj.softDel (removeObjFromDir_obj o x q)
      refine Eq.trans (Eq.symm ?_) hs
      refine hmark.trans ?_
      simp only [Dev.modObj, Dev.mapBlocks, Function.update_of_ne hqo]
      exact hrem
  unfold genericObjDel genericObjDelWith at hev ⊢
  simp only at hev ⊢
  split_ifs at hev ⊢
  · have hoi : Removable [] (invalidateFileCache o d) o := ⟨ho.1, ho.2, ho.3, ho.4, ho.5⟩
    have htake := hoi.takes hinv.evolves.ties (by simp [initialDirs] : objectIdDeleted ∈ initialDirs)
    have hname := changeObjName_tidy (e := e) (hinv.sound h)
      (fun dir (hd : (some objectIdDeleted).or _ = some dir) => by
        obtain rfl : objectIdDeleted = dir := by simpa using hd
        exact htake) deletedName false 0
    exact hend _ (hinv.trans hname) (hname.uncached hun) _ rfl hev
  · exact hend _ hinv hun _ rfl hev

theorem freeTop_tidy (h : CacheSound g d) (htype : (d.obj o).variantType = .file)
    (hin : (d.obj o).myInode = none) (hs : (d.obj o).softDel = false) (hclean : CleanFile d o) :
    Tidy [o] d (genericObjDel g e o (freeTop o d)) := by
  have htop : Tidy [] d (freeTop o d) := (Tidy.refl h).same (freeTop_sameTies o d) rfl
  have hrem := htop.evolves.ties.file_removable ((htop.evolves.type o).trans htype)
    ((htop.evolves.inode o).trans hin) ((htop.evolves.soft o (by simp)).trans hs)
  exact (htop.mono (by simp)).trans (genericObjDel_tidy (htop.sound h) hrem (htop.cleanFile hclean))

theorem softDelFile_tidy (h : CacheSound g d) (hin : (d.obj o).myInode = none) (hun : (d.obj o).unlinked = true)
    (hd : (d.obj o).deleted = true) (hclean : CleanFile d o) : Tidy [o] d (softDelFile g e o d) := by
  have hev := (softDelFile_gone (g := g) (e := e) h.ties hin hun hd).evolves
  unfold softDelFile softDelFileWith at hev ⊢
  split_ifs at hev ⊢ with hno hdata
  · exact Tidy.refl h
  · simp only [hd, not_or, ne_eq, not_not, Bool.not_eq_true] at hno
    exact freeTop_tidy h hno.2.1 hin hno.2.2 hclean
  · refine ⟨hev, tidied_refl _, fun c hc q hq => (h.live c hc q hq).1, fun c hc q hq hs => ?_⟩
    by_cases hqo : q = o
    · exact hclean c hc (hqo ▸ hq)
    · refine h.soft c hc q hq ?_
      simpa [Dev.modObj, hqo] using hs

theorem setDeleted_tidy (h : CacheSound g d) (hin : (d.obj o).myInode = none) : Tidy [o] d (setDeleted o d) := by
  refine (Tidy.refl h).evolve (setDeleted_evolves h.ties hin).1 (tidied_refl _)
    (fun _ _ _ _ ho => ho) fun q => ?_
  by_cases hq : q = o
  · subst hq
    simp [setDeleted, Dev.modObj]
  · simp [setDeleted, Dev.modObj, hq]

theorem unlinkFileIfNeeded_tidy (h : CacheSound g d) (htype : (d.obj o).variantType = .file)
    (hin : (d.obj o).myInode = none) (hs : (d.obj o).softDel = false)
    (hclean : g.deletesByResize = true ∨ CleanFile d o) : Tidy [o] d (unlinkFileIfNeeded g e o d).1 := by
  have hrem := h.ties.file_removable htype hin hs
  have htake := hrem.takes h.ties (by simp [initialDirs] : objectIdDeleted ∈ initialDirs)
  have hdir : ∀ dir, (some objectIdDeleted).or (d.obj o).parent = some dir → Takes d dir o := fun dir hd => by
    obtain rfl : objectIdDeleted = dir := by simpa using hd
    exact htake
  have hname := changeObjName_tidy (e := e) h hdir deletedName false 0
  have hun := changeObjNameWith_unlinked (g := g) (e := e) (checkGc_evolves (g := g) (e := e) false) h.ties
    (Or.inr rfl) htake deletedName false 0
  unfold unlinkFileIfNeeded
  rw [hin]
  simp only [Option.isSome_none, Bool.false_eq_true, if_false]
  unfold changeObjName at hname ⊢
  generalize (changeObjNameWith g e (checkGc g e false) o (some objectIdDeleted) deletedName false 0 d).1 = x at *
  have hset := setDeleted_tidy (o := o) (hname.sound h) ((hname.evolves.inode o).trans hin)
  have hd := (setDeleted_evolves (o := o) hname.evolves.ties ((hname.evolves.inode o).trans hin)).2
  have hall := (hname.mono (R := [o]) (by simp)).trans hset
  obtain ⟨hempty, hunc⟩ := emptyFile_tidy (e := e) (hall.sound h) o
  have hall' := hall.trans (hempty.mono (R := [o]) (by simp))
  refine hall'.trans (softDelFile_tidy (hall'.sound h) ((hall'.evolves.inode o).trans hin)
    (hempty.evolves.unlinked o (hset.evolves.unlinked o hun)) (hempty.evolves.deleted o hd) ?_)
  exact hclean.elim (fun hdel => (hunc hdel).cleanFile) hall'.cleanFile

/-- A file that is deleted has no dirty entries, if only because it is emptied first. -/
theorem delFile_tidy (h : CacheSound g d) (htype : (d.obj o).variantType = .file)
    (hin : (d.obj o).myInode = none) (hs : (d.obj o).softDel = false)
    (hclean : g.deletesByResize = true ∨ CleanFile d o) : Tidy [o] d (delFile g e o d).1 := by
  obtain ⟨hempty, hunc⟩ := emptyFile_tidy (e := e) h o
  have htype' := (hempty.evolves.type o).trans htype
  have hin' := (hempty.evolves.inode o).trans hin
  have hs' := (hempty.evolves.soft o (by simp)).trans hs
  have hclean' : CleanFile (emptyFile g e o d) o := hclean.elim (fun hdel => (hunc hdel).cleanFile) hempty.cleanFile
  have hsound := hempty.sound h
  have hall := hempty.mono (R := [o]) (by simp)
  unfold delFile
  simp only
  generalize emptyFile g e o d = x at *
  by_cases hdata : 0 < (x.obj o).nDataChunks
  · rw [if_pos hdata]
    by_cases hun : (x.obj o).unlinked = true
    · simp only [hun, if_true, Bool.true_and]
      by_cases hd : (x.obj o).deleted = true
      · simp only [hd, Bool.not_true, Bool.false_eq_true, if_false]
        exact hall
      · simp only [hd, Bool.not_false, if_true]
        have hset := setDeleted_tidy hsound hin'
        have hd' := (setDeleted_evolves hsound.ties hin').2
        exact (hall.trans hset).trans (softDelFile_tidy (hset.sound hsound) ((hset.evolves.inode o).trans hin')
          (hset.evolves.unlinked o hun) hd' (hset.cleanFile hclean'))
    · simp only [hun, Bool.false_eq_true, if_false]
      have hgone := unlinkFileIfNeeded_tidy (e := e) hsound htype' hin' hs' (Or.inr hclean')
      generalize unlinkFileIfNeeded g e o x = r at hgone ⊢
      split_ifs with hagain
      · simp only [Bool.and_eq_true, Bool.not_eq_true'] at hagain
        have hin'' := (hgone.evolves.inode o).trans hin'
        have hset := setDeleted_tidy (hgone.sound hsound) hin''
        have hd' := (setDeleted_evolves (hgone.sound hsound).ties hin'').2
        exact ((hall.trans hgone).trans hset).trans (softDelFile_tidy (hset.sound (hgone.sound hsound))
          ((hset.evolves.inode o).trans hin'') (hset.evolves.unlinked o hagain.1.2) hd'
          (hset.cleanFile (hgone.cleanFile hclean')))
      · exact hall.trans hgone
  · rw [if_neg hdata]
    exact hall.trans (freeTop_tidy hsound htype' hin' hs' hclean')

theorem delDir_tidy (h : CacheSound g d) (ho : o ∉ initialDirs) (htype : (d.obj o).variantType = .directory)
    (hin : (d.obj o).myInode = none) (hs : (d.obj o).softDel = false) :
    Tidy [o] d (delDir g e o (cleanDir o d)).1 := by
  have hclean : Tidy [o] d (cleanDir o d) := (Tidy.refl h).same ⟨fun _ => rfl, rfl, rfl⟩ rfl
  unfold delDir
  split_ifs with hempty
  · exact hclean
  · have hleaf := isNonEmptyDir_false (d := cleanDir o d) (o := o) (by simpa using hempty) htype
    have hrem : Removable [] (cleanDir o d) o :=
      hclean.evolves.ties.removable ho (by rw [show ((cleanDir o d).obj o).variantType = _ from htype]; simp)
        hin hs fun _ => hleaf
    have hunc : Uncached (cleanDir o d) o := h.uncached (by rw [htype]; simp)
    exact hclean.trans (genericObjDel_tidy (hclean.sound h) hrem hunc.cleanFile)

theorem delSymlink_tidy (h : CacheSound g d) (htype : (d.obj o).variantType = .symlink) (ho : o ∉ initialDirs)
    (hin : (d.obj o).myInode = none) (hs : (d.obj o).softDel = false) : Tidy [o] d (delSymlink g e o d).1 := by
  have hname : Tidy [] d (d.modObj o fun ob => { ob with aliasName := none }) :=
    (Tidy.refl h).same (SameTies.modObj rfl) rfl
  have htype' := (hname.evolves.type o).trans htype
  have hrem := hname.evolves.ties.removable ho (by rw [htype']; simp) ((hname.evolves.inode o).trans hin)
    ((hname.evolves.soft o (by simp)).trans hs) fun ht => by rw [htype'] at ht; exact ObjType.noConfusion ht
  have hunc := (hname.sound h).uncached (o := o) (by rw [htype']; simp)
  exact (hname.mono (by simp)).trans (genericObjDel_tidy (hname.sound h) hrem hunc.cleanFile)

theorem unlinkRing_tidy (h : CacheSound g d) (o : ℕ) : Tidy [] d (unlinkRing o d) := by
  refine (Tidy.refl h).evolve (unlinkRing_evolves h.ties o).1 ?_ (fun _ _ _ _ ho => ?_) fun q => ?_
  · unfold unlinkRing
    cases (d.obj o).equivObj <;> exact tidied_refl _
  · unfold unlinkRing
    cases (d.obj o).equivObj <;> exact ho
  · rw [unlinkRing_obj]

theorem delLink_tidy (h : CacheSound g d) (htype : (d.obj o).variantType = .hardlink) :
    Tidy [o] d (delLink g e o d).1 := by
  have hring := unlinkRing_tidy h o
  have htype' := (hring.evolves.type o).trans htype
  have hrem := hring.evolves.ties.link_removable htype' (unlinkRing_evolves h.ties o).2
  have hunc := (hring.sound h).uncached (o := o) (by rw [htype']; simp)
  exact (hring.mono (by simp)).trans (genericObjDel_tidy (hring.sound h) hrem hunc.cleanFile)

/-! ## Unlinking -/

theorem handOver_tidy {hl : ℕ} (h : CacheSound g d) (hid : o ∈ d.ids) (ho : o ∉ initialDirs)
    (htype : (d.obj o).variantType ≠ .hardlink) (hl' : hl ∈ (d.obj o).hardLinks) :
    Tidy [hl] d (handOver g e o hl d).1 := by
  obtain ⟨-, hlt, -⟩ := h.ties.ring o hid hl hl'
  have hring := unlinkRing_tidy h hl
  have hlt' := (hring.evolves.type hl).trans hlt
  have hrem := hring.evolves.ties.link_removable hlt' (unlinkRing_evolves h.ties hl).2
  obtain ⟨hadd, hplace⟩ := handOver_takes h.ties hid ho htype hl'
  have hplaced : Tidy [] d (addObjToDir objectIdUnlinked hl (unlinkRing hl d)) :=
    hring.evolve hadd (addObjToDir_cache objectIdUnlinked hl _ ▸ tidied_refl _)
      (fun _ _ _ _ hq => addObjToDir_ids objectIdUnlinked hl (unlinkRing hl d) ▸ hq) fun q => hadd.soft q (by simp)
  have hname := changeObjName_tidy (e := e) (hplaced.sound h) hplace (getObjName d hl) false 0
  have hmove := hplaced.trans hname
  unfold handOver
  simp only
  split
  · have hrem' := hrem.evolves (hadd.trans hname.evolves) fun ht => by
      rw [hlt'] at ht
      exact ObjType.noConfusion ht
    have hunc := (hmove.sound h).uncached (o := hl) (by rw [hmove.evolves.type, hlt]; simp)
    exact (hmove.mono (by simp)).trans (genericObjDel_tidy (hmove.sound h) hrem' hunc.cleanFile)
  · exact hmove.mono (by simp)

/-- Unlinking the object may delete it as a file. -/
def unlinksFile (d : Dev) (o : ℕ) : Bool :=
  (d.obj o).variantType = .file && (d.obj o).myInode.isNone && (d.obj o).hardLinks.isEmpty

theorem unlinkNamed_tidy (h : CacheSound g d) (hid : o ∈ d.ids) (ho : o ∉ initialDirs)
    (hs : (d.obj o).softDel = false)
    (hclean : unlinksFile d o = true → g.deletesByResize = true ∨ CleanFile d o) :
    ∃ S, Tidy S d (unlinkNamed g e o (d.obj o).myInode.isNone d).1 := by
  unfold unlinkNamed
  by_cases hlink : (d.obj o).variantType = .hardlink
  · rw [if_pos hlink]
    exact ⟨[o], delLink_tidy h hlink⟩
  · rw [if_neg hlink]
    cases hring : (d.obj o).hardLinks with
    | cons hl ls => exact ⟨[hl], handOver_tidy h hid ho hlink (by simp [hring])⟩
    | nil =>
      by_cases hin : (d.obj o).myInode = none
      · simp only [hin, Option.isNone_none, if_true]
        cases htype : (d.obj o).variantType with
        | file => exact ⟨[o], delFile_tidy h htype hin hs (hclean (by simp [unlinksFile, htype, hin, hring]))⟩
        | directory => exact ⟨[o], delDir_tidy h ho htype hin hs⟩
        | symlink => exact ⟨[o], delSymlink_tidy h htype ho hin hs⟩
        | special =>
          have hrem := h.ties.removable ho (by simp [htype]) hin hs fun ht => by simp [htype] at ht
          exact ⟨[o], genericObjDel_tidy h hrem (h.uncached (by simp [htype])).cleanFile⟩
        | hardlink => exact absurd htype hlink
        | unknown => exact ⟨[], Tidy.refl h⟩
        | other _ => exact ⟨[], Tidy.refl h⟩
      · have hsome : (d.obj o).myInode.isNone = false := by
          rw [Option.isNone_eq_false_iff, Option.isSome_iff_ne_none]
          exact hin
        simp only [hsome, Bool.false_eq_true, if_false]
        split_ifs with hempty
        · exact ⟨[], Tidy.refl h⟩
        · have htake := h.ties.takes_initial (by simp [initialDirs] : objectIdUnlinked ∈ initialDirs) ho
            (isNonEmptyDir_false (by simpa using hempty))
          refine ⟨[], changeObjName_tidy h (fun dir hd => ?_) unlinkedName false 0⟩
          obtain rfl : objectIdUnlinked = dir := by simpa using hd
          exact htake

theorem unlinkObj_tidy (h : CacheSound g d) (hid : o ∈ d.ids) (hs : (d.obj o).softDel = false)
    (hclean : unlinksFile d o = true → g.deletesByResize = true ∨ CleanFile d o) :
    ∃ S, Tidy S d (unlinkObj g e o d).1 := by
  unfold unlinkObj
  split_ifs with hallow
  · have hinitial : o ∉ initialDirs := fun hi => by
      rw [(h.ties.initial o hi).2.2.2] at hallow
      exact Bool.noConfusion hallow
    have hparent := updateParent_tidying (g := g) (e := e) (d.obj o).parent d h
    have hring := updateParent_ring (g := g) (e := e) h.ties (d.obj o).parent o
    have hlive := hparent.evolves.live o hid (by simp) hs
    obtain ⟨S, hS⟩ := unlinkNamed_tidy (e := e) (hparent.sound h) hlive hinitial
      ((hparent.evolves.soft o (by simp)).trans hs) fun hun => by
        have : unlinksFile d o = true := by
          simpa only [unlinksFile, hparent.evolves.type, hparent.evolves.inode, hring] using hun
        exact (hclean this).imp id hparent.cleanFile
    refine ⟨S, (hparent.mono (by simp)).trans ?_⟩
    unfold unlinkWorker
    rw [← hparent.evolves.inode o]
    exact hS
  · exact ⟨[], Tidy.refl h⟩

/-! ## Releasing -/

theorem delObj_tidy (h : CacheSound g d) (ho : o ∉ initialDirs) (hin : (d.obj o).myInode = none)
    (hs : (d.obj o).softDel = false)
    (hclean : (d.obj o).variantType = .file → g.deletesByResize = true ∨ CleanFile d o) :
    Tidy [o] d (delObj g e o d).1 := by
  unfold delObj
  cases htype : (d.obj o).variantType with
  | file => exact delFile_tidy h htype hin hs (hclean htype)
  | directory => exact delDir_tidy h ho htype hin hs
  | symlink => exact delSymlink_tidy h htype ho hin hs
  | hardlink => exact delLink_tidy h htype
  | special =>
    have hrem := h.ties.removable ho (by simp [htype]) hin hs fun ht => by simp [htype] at ht
    exact genericObjDel_tidy h hrem (h.uncached (by simp [htype])).cleanFile
  | unknown => exact Tidy.refl h
  | other _ => exact Tidy.refl h

end Yaffs
