import Yaffs.Flushing

/-!
# Entries in use

Reading and writing files through the cache. An entry is taken for a chunk that is not cached, so that no
chunk is cached twice. A whole chunk that is written past the cache takes its entry from the file : it must
not be dirty, or it would still be counted.
-/

namespace Yaffs

variable {g : Geometry} {e : Env} {d d' d'' x : Dev} {o k : ℕ}

/-! ## Taking entries -/

/-- The cache is in order, and the objects have evolved. -/
structure Caches (g : Geometry) (d d' : Dev) : Prop where
  sound : CacheSound g d'
  evolves : Evolves [] [] d d'

/-- A file that can be read and written. -/
structure ServedFile (d : Dev) (o : ℕ) : Prop where
  id : o ∈ d.ids
  type : (d.obj o).variantType = .file
  alive : (d.obj o).softDel = false

theorem Caches.trans (h : Caches g d d') (h' : Caches g d' d'') : Caches g d d'' :=
  ⟨h'.sound, h.evolves.trans h'.evolves⟩

theorem Tidy.caches (h : Tidy [] d d') (hd : CacheSound g d) : Caches g d d' :=
  ⟨h.sound hd, h.evolves⟩

theorem Caches.refl (h : CacheSound g d) : Caches g d d :=
  (Tidy.refl h).caches h

theorem Caches.next (h : Caches g d d') {f : Dev → Dev} (hf : Tidying g f) : Caches g d (f d') :=
  h.trans ((hf d' h.sound).caches h.sound)

theorem ServedFile.evolve (ho : ServedFile d o) (h : Evolves [] [] d d') : ServedFile d' o :=
  ⟨h.live o ho.id (by simp) ho.alive, (h.type o).trans ho.type, (h.soft o (by simp)).trans ho.alive⟩

/-- An entry is put to use for a file, or used further. -/
theorem CacheSound.modCache (h : CacheSound g d) {i : ℕ} {c : Cache} {f : Cache → Cache}
    (hc : d.cache[i]? = some c) (hobj : (f c).object = some o) (ho : ServedFile d o)
    (hother : ∀ (j : ℕ) (b : Cache), j ≠ i → d.cache[j]? = some b → b.object = some o → b.chunkId ≠ (f c).chunkId) :
    CacheSound g (d.modCache i f) := by
  have hget : ∀ j, (d.modCache i f).cache[j]? = if j = i then some (f c) else d.cache[j]? := by
    intro j
    unfold Dev.modCache
    rw [List.getElem?_modify]
    by_cases hj : j = i
    · subst hj
      simp [hc]
    · simp [hj, Ne.symm hj]
  have hmem : ∀ b ∈ (d.modCache i f).cache, b = f c ∨ b ∈ d.cache := by
    intro b hb
    obtain ⟨j, hj⟩ := List.getElem?_of_mem hb
    rw [hget] at hj
    split_ifs at hj
    · exact Or.inl (Option.some.inj hj).symm
    · exact Or.inr (List.mem_of_getElem? hj)
  refine ⟨((modCache_sameTies d i f).evolves h.ties).ties, ?_, fun j j' b b' hj hj' hsome hkey hchunk => ?_,
    fun b hb q hq => ?_, fun b hb hq => ?_, fun b hb q hq hs => ?_⟩
  · rw [← h.length]
    simp [Dev.modCache]
  · rw [hget] at hj hj'
    split_ifs at hj hj' with h1 h2
    · rw [h1, h2]
    · obtain rfl := Option.some.inj hj
      exact absurd hchunk.symm (hother j' b' h2 hj' (hkey.symm.trans hobj))
    · obtain rfl := Option.some.inj hj'
      exact absurd hchunk (hother j b h1 hj (hkey.trans hobj))
    · exact h.unique j j' b b' hj hj' hsome hkey hchunk
  · rcases hmem b hb with rfl | hb
    · obtain rfl : o = q := Option.some.inj (hobj.symm.trans hq)
      exact ⟨ho.id, ho.type⟩
    · exact h.live b hb q hq
  · rcases hmem b hb with rfl | hb
    · rw [hobj] at hq
      simp at hq
    · exact h.stale b hb hq
  · rcases hmem b hb with rfl | hb
    · obtain rfl : o = q := Option.some.inj (hobj.symm.trans hq)
      exact absurd (ho.alive.symm.trans hs) (by simp)
    · exact h.soft b hb q hq hs

theorem lruLoop_lt (cs : List Cache) : ∀ (i : ℕ) (best : Option (ℕ × ℕ)) (j u : ℕ),
    lruLoop cs i best = some (j, u) → best = some (j, u) ∨ i ≤ j ∧ j < i + cs.length := by
  induction cs with
  | nil => exact fun i best j u h => Or.inl h
  | cons c cs ih =>
    intro i best j u h
    simp only [lruLoop] at h
    rcases ih _ _ _ _ h with hbest | ⟨h1, h2⟩
    · split_ifs at hbest
      · obtain ⟨rfl, -⟩ := Prod.mk.inj (Option.some.inj hbest)
        exact Or.inr ⟨le_refl _, by simp⟩
      · exact Or.inl hbest
    · exact Or.inr ⟨by omega, by simp only [List.length_cons]; omega⟩

/-- The entry that is grabbed is not in use. -/
theorem grabChunkCache_tidy (h : CacheSound g d) :
    Tidy [] d (grabChunkCache g e d).1 ∧ ∀ i, (grabChunkCache g e d).2 = some i →
      ∃ c, (grabChunkCache g e d).1.cache[i]? = some c ∧ c.object = none := by
  unfold grabChunkCache grabChunkWorker
  split
  · next i hfree =>
    refine ⟨Tidy.refl h, fun j hj => ?_⟩
    obtain rfl := Option.some.inj hj
    obtain ⟨hlt, hnone, -⟩ := List.findIdx?_eq_some_iff_getElem.mp hfree
    exact ⟨_, List.getElem?_eq_getElem hlt, by simpa using hnone⟩
  · split
    · next i u hlru =>
      obtain ⟨htidy, hclean⟩ := flushSingleCache_tidy (e := e) h i true
      refine ⟨htidy, fun j hj => ?_⟩
      obtain rfl := Option.some.inj hj
      have hlt : i < d.cache.length := by
        rcases lruLoop_lt _ _ _ _ _ hlru with hbest | ⟨-, hlt⟩
        · simp at hbest
        · simpa using hlt
      have hlt' : i < (flushSingleCache g e i true d).cache.length := htidy.cache.length_eq ▸ hlt
      exact ⟨_, List.getElem?_eq_getElem hlt', (hclean _ (List.getElem?_eq_getElem hlt')).2 rfl⟩
    · exact ⟨Tidy.refl h, by simp⟩

/-- The entry `i` belongs to chunk `k` of `o`. -/
def EntryOf (d : Dev) (i o k : ℕ) : Prop :=
  ∃ c, d.cache[i]? = some c ∧ c.object = some o ∧ c.chunkId = k

theorem loadCache_caches (h : CacheSound g d) (ho : ServedFile d o) (hno : findChunkCache o k d = none) :
    Caches g d (loadCache g e o k d).1 ∧
      ∀ i, (loadCache g e o k d).2 = some i → EntryOf (loadCache g e o k d).1 i o k := by
  obtain ⟨htidy, hfree⟩ := grabChunkCache_tidy (e := e) h
  have hs := htidy.sound h
  -- an entry of the chunk would have been found
  have hother : ∀ (j : ℕ) (b : Cache), (grabChunkCache g e d).1.cache[j]? = some b → b.object = some o →
      b.chunkId ≠ k := by
    intro j b hb hbo hbk
    obtain ⟨c, hc, ⟨h1, h2, -⟩ | ⟨h1, -⟩⟩ := forall₂_getElem? htidy.cache hb
    · have := List.findIdx?_eq_none_iff.mp hno c (List.mem_of_getElem? hc)
      simp [← h1, ← h2, hbo, hbk] at this
    · rw [h1] at hbo
      simp at hbo
  unfold loadCache
  simp only
  generalize grabChunkCache g e d = r at *
  obtain ⟨y, slot⟩ := r
  cases slot with
  | none => exact ⟨htidy.caches h, by simp⟩
  | some i =>
    obtain ⟨c, hc, -⟩ := hfree i rfl
    have hopen := ho.evolve htidy.evolves
    refine ⟨⟨hs.modCache hc rfl hopen fun j b _ => hother j b, ?_⟩, fun j hj => ?_⟩
    · exact htidy.evolves.same (modCache_sameTies _ _ _)
    · obtain rfl := Option.some.inj hj
      refine ⟨{ c with object := some o, chunkId := k, dirty := false, data := rdDataObj g o k y }, ?_, rfl, rfl⟩
      rw [modCache_getElem?, hc]
      rfl

/-- Using an entry changes `last_use` of the others at most. -/
theorem useCache_eq (i : ℕ) (isWrite : Bool) (d : Dev) : ∃ (x : Dev) (n : ℕ), SameTies d x ∧
    List.Forall₂ (fun c c' : Cache => ∃ u, c' = { c with lastUse := u }) d.cache x.cache ∧
    useCache i isWrite d = x.modCache i fun c => { c with lastUse := n, dirty := c.dirty || isWrite } := by
  have hsame : ∀ l : List Cache, List.Forall₂ (fun c c' : Cache => ∃ u, c' = { c with lastUse := u }) l l :=
    fun l => List.forall₂_same.mpr fun c _ => ⟨c.lastUse, rfl⟩
  unfold useCache
  simp only
  split_ifs
  · refine ⟨_, _, ?_, ?_, rfl⟩
    · exact ⟨fun _ => rfl, rfl, rfl⟩
    · simp only
      cases hcache : d.cache with
      | nil => exact .nil
      | cons c cs =>
        refine .cons ⟨c.lastUse, rfl⟩ (List.forall₂_map_right_iff.mpr ?_)
        exact List.forall₂_same.mpr fun c _ => ⟨0, rfl⟩
  · exact ⟨{ d with cacheLastUse := d.cacheLastUse + 1 }, d.cacheLastUse + 1, ⟨fun _ => rfl, rfl, rfl⟩, hsame _, rfl⟩

theorem useCache_read (h : CacheSound g d) (i : ℕ) : Tidy [] d (useCache i false d) := by
  obtain ⟨x, n, hx, hlast, heq⟩ := useCache_eq i false d
  rw [heq]
  refine (Tidy.refl h).entries (hx.trans (modCache_sameTies _ _ _)) ?_
  refine tidied_trans (hlast.imp ?_) (modCache_tidied fun c _ => Or.inl ⟨rfl, rfl, by simp⟩)
  rintro c c' ⟨u, rfl⟩
  exact Or.inl ⟨rfl, rfl, id⟩

/-- An entry is written. -/
theorem useCache_write (h : CacheSound g d) (ho : ServedFile d o) {i : ℕ} (hi : EntryOf d i o k) :
    Caches g d (useCache i true d) ∧ EntryOf (useCache i true d) i o k := by
  obtain ⟨x, n, hx, hlast, heq⟩ := useCache_eq i true d
  have htidy : Tidy [] d x := by
    refine (Tidy.refl h).entries hx (hlast.imp ?_)
    rintro c c' ⟨u, rfl⟩
    exact Or.inl ⟨rfl, rfl, id⟩
  have hs := htidy.sound h
  obtain ⟨c, hc, hco, hck⟩ := hi
  have hlt : i < x.cache.length := hlast.length_eq ▸ (List.getElem?_eq_some_iff.mp hc).1
  obtain ⟨b, hb, u, hbu⟩ := forall₂_getElem? hlast (List.getElem?_eq_getElem hlt)
  obtain rfl : c = b := Option.some.inj (hc.symm.trans hb)
  rw [heq]
  refine ⟨⟨hs.modCache (List.getElem?_eq_getElem hlt) (o := o) ?_ (ho.evolve htidy.evolves) ?_, ?_⟩, ?_⟩
  · simp [hbu, hco]
  · intro j b' hj hb' hbo hbk
    refine hj (hs.unique j i b' x.cache[i] hb' (List.getElem?_eq_getElem hlt) (by rw [hbo]; rfl) ?_ hbk)
    rw [hbo, hbu]
    exact hco.symm
  · exact htidy.evolves.same (modCache_sameTies _ _ _)
  · refine ⟨{ x.cache[i] with lastUse := n, dirty := x.cache[i].dirty || true }, ?_, ?_, ?_⟩
    · rw [modCache_getElem?, List.getElem?_eq_getElem hlt]
      rfl
    · simp [hbu, hco]
    · simp [hbu, hck]

/-! ## Reading -/

theorem findChunkCache_some {i : ℕ} (h : findChunkCache o k d = some i) : EntryOf d i o k := by
  obtain ⟨hlt, hfound, -⟩ := List.findIdx?_eq_some_iff_getElem.mp h
  simp only [Bool.and_eq_true, decide_eq_true_eq] at hfound
  exact ⟨_, List.getElem?_eq_getElem hlt, hfound.1, hfound.2⟩

theorem fileRdChunk_caches (h : CacheSound g d) (ho : ServedFile d o) (k start nCopy : ℕ) :
    Caches g d (fileRdChunk g e o k start nCopy d).1 := by
  have hthrough : Caches g d (rdThroughCache g e o k (findChunkCache o k d) start nCopy d).1 := by
    unfold rdThroughCache
    cases hfind : findChunkCache o k d with
    | some i => exact (useCache_read h i).caches h
    | none =>
      have hload := (loadCache_caches (e := e) h ho hfind).1
      simp only
      generalize loadCache g e o k d = r at hload ⊢
      obtain ⟨y, i⟩ := r
      cases i with
      | none => exact hload
      | some i =>
        have hbytes : Tidy [] y (y.modCache i fun c => { c with nBytes := 0 }) :=
          (Tidy.refl hload.sound).entries (modCache_sameTies _ _ _)
            (modCache_tidied fun c _ => Or.inl ⟨rfl, rfl, id⟩)
        have hall := hload.trans (hbytes.caches hload.sound)
        exact hall.trans ((useCache_read hall.sound i).caches hall.sound)
  unfold fileRdChunk
  simp only
  split_ifs
  · exact hthrough
  · exact Caches.refl h
  · exact Caches.refl h

theorem fileRdLoop_caches (fuel : ℕ) : ∀ (offset n : ℕ) (d : Dev), CacheSound g d → ServedFile d o →
    Caches g d (fileRdLoop g e o fuel offset n d).1 := by
  induction fuel with
  | zero => exact fun _ _ d h _ => Caches.refl h
  | succ fuel ih =>
    intro offset n d h ho
    unfold fileRdLoop
    split_ifs
    · exact Caches.refl h
    · have hchunk := fileRdChunk_caches (e := e) h ho ((addrToChunk g offset).1 + 1) (addrToChunk g offset).2
        (chunkCopy g (addrToChunk g offset).2 n)
      exact hchunk.trans (ih _ _ _ hchunk.sound (ho.evolve hchunk.evolves))

/-! ## Writing -/

theorem cacheForWrite_caches (h : CacheSound g d) (ho : ServedFile d o) (k : ℕ) :
    Caches g d (cacheForWrite g e o k d).1 ∧
      ∀ i, (cacheForWrite g e o k d).2 = some i → EntryOf (cacheForWrite g e o k d).1 i o k := by
  unfold cacheForWrite
  cases hfind : findChunkCache o k d with
  | none =>
    simp only
    split_ifs
    · exact loadCache_caches h ho hfind
    · exact ⟨Caches.refl h, by simp⟩
  | some i =>
    have hentry := findChunkCache_some hfind
    simp only
    split_ifs
    · exact ⟨Caches.refl h, fun j hj => Option.some.inj hj ▸ hentry⟩
    · exact ⟨Caches.refl h, by simp⟩
    · exact ⟨Caches.refl h, fun j hj => Option.some.inj hj ▸ hentry⟩

theorem wrThroughCache_caches (h : CacheSound g d) (ho : ServedFile d o) (k start : ℕ) (src : List UInt8)
    (writeback : ℕ) (writeThrough : Bool) :
    Caches g d (wrThroughCache g e o k start src writeback writeThrough d).1 := by
  obtain ⟨hcache, hentry⟩ := cacheForWrite_caches (e := e) h ho k
  unfold wrThroughCache
  simp only
  generalize cacheForWrite g e o k d = r at *
  obtain ⟨y, slot⟩ := r
  cases slot with
  | none => exact hcache
  | some i =>
    obtain ⟨huse, -⟩ := useCache_write hcache.sound (ho.evolve hcache.evolves) (hentry i rfl)
    have hpatch : Tidy [] (useCache i true y) ((useCache i true y).modCache i fun c =>
        { c with data := patch c.data start src, nBytes := writeback }) :=
      (Tidy.refl huse.sound).entries (modCache_sameTies _ _ _) (modCache_tidied fun c _ => Or.inl ⟨rfl, rfl, id⟩)
    have hall := (hcache.trans huse).trans (hpatch.caches huse.sound)
    simp only
    split_ifs
    · have hwr := wrDataObj_tidying (g := g) (e := e) o k (cacheData ((useCache i true y).modCache i fun c =>
        { c with data := patch c.data start src, nBytes := writeback }) i) writeback true _ hall.sound
      have hclean := hwr.entries (modCache_sameTies _ i fun c => { c with dirty := false })
        (modCache_tidied fun c _ => Or.inl ⟨rfl, rfl, by simp⟩)
      exact hall.trans (hclean.caches hall.sound)
    · exact hall

/-- The source of a write takes its chunk past the cache. -/
def bypasses (g : Geometry) (src : List UInt8) : Bool :=
  decide (src.length = g.dataBytesPerChunk) && g.cacheBypassAligned && !g.inbandTags

/-- If chunk `k` of `o` is written past the cache, it is not dirty in it. -/
def RoundClean (g : Geometry) (o k : ℕ) (src : List UInt8) (d : Dev) : Prop :=
  bypasses g src = true → ∀ c ∈ d.cache, c.object = some o → c.chunkId = k → c.dirty = false

theorem invalidateChunkCache_tidy (h : CacheSound g d)
    (hclean : ∀ c ∈ d.cache, c.object = some o → c.chunkId = k → c.dirty = false) :
    Tidy [] d (invalidateChunkCache o k d) := by
  unfold invalidateChunkCache
  cases hfind : findChunkCache o k d with
  | none => exact Tidy.refl h
  | some i =>
    obtain ⟨c, hc, hco, hck⟩ := findChunkCache_some hfind
    refine (Tidy.refl h).entries (modCache_sameTies _ _ _) (modCache_tidied fun b hb => Or.inr ⟨rfl, ?_⟩)
    obtain rfl : c = b := Option.some.inj (hc.symm.trans hb)
    exact hclean c (List.mem_of_getElem? hc) hco hck

theorem wrChunk_caches (h : CacheSound g d) (ho : ServedFile d o) (k start : ℕ) (src : List UInt8) (writeback : ℕ)
    (writeThrough : Bool) (hround : RoundClean g o k src d) :
    Caches g d (wrChunk g e o k start src writeback writeThrough d).1 := by
  unfold wrChunk
  split_ifs with hthrough hn
  · exact wrThroughCache_caches h ho _ _ _ _ _
  · exact (wrDataObj_tidying o k _ writeback false d h).caches h
  · have hwr := wrDataObj_tidying (g := g) (e := e) o k src g.dataBytesPerChunk false d h
    have hby : bypasses g src = true := by
      simp only [ne_eq, not_or, not_not, Bool.not_eq_true, Bool.not_eq_false'] at hthrough
      simp [bypasses, hthrough]
    refine (hwr.trans (invalidateChunkCache_tidy (hwr.sound h) fun c hc hco hck => ?_)).caches h
    obtain ⟨b, hb, ⟨h1, h2, h3⟩ | ⟨h1, -⟩⟩ := forall₂_mem hwr.cache hc
    · have := hround hby b hb (h1.symm.trans hco) (h2.symm.trans hck)
      by_contra hd
      rw [h3 (by simpa using hd)] at this
      exact Bool.noConfusion this
    · rw [h1] at hco
      simp at hco

/-- No round of the loop of `yaffs_do_file_wr` writes a chunk past the cache that is dirty in it. -/
def WriteClean (g : Geometry) (e : Env) (o : ℕ) (writeThrough : Bool) : ℕ → List UInt8 → ℕ → Dev → Prop
  | 0, _, _, _ => True
  | fuel + 1, buffer, offset, d =>
    buffer.length ≠ 0 →
      let a := addrToChunk g offset
      let nCopy := chunkCopy g a.2 buffer.length
      let writeback := nWriteback g (d.obj o).file (a.1 + 1) a.2 buffer.length
      let r := wrChunk g e o (a.1 + 1) a.2 (buffer.take nCopy) writeback writeThrough d
      RoundClean g o (a.1 + 1) (buffer.take nCopy) d ∧
        (r.2 = true → WriteClean g e o writeThrough fuel (buffer.drop nCopy) (offset + nCopy) r.1)

theorem doFileWrLoop_caches (writeThrough : Bool) (fuel : ℕ) : ∀ (buffer : List UInt8) (offset : ℕ) (d : Dev),
    CacheSound g d → ServedFile d o → WriteClean g e o writeThrough fuel buffer offset d →
    Caches g d (doFileWrLoop g e o writeThrough fuel buffer offset d).1 := by
  induction fuel with
  | zero => exact fun _ _ d h _ _ => Caches.refl h
  | succ fuel ih =>
    intro buffer offset d h ho hclean
    unfold doFileWrLoop
    by_cases hempty : buffer.length = 0
    · rw [if_pos hempty]
      exact Caches.refl h
    · rw [if_neg hempty]
      obtain ⟨hround, hrest⟩ := hclean hempty
      have hchunk := wrChunk_caches (e := e) h ho ((addrToChunk g offset).1 + 1) (addrToChunk g offset).2
        (buffer.take (chunkCopy g (addrToChunk g offset).2 buffer.length))
        (nWriteback g (d.obj o).file ((addrToChunk g offset).1 + 1) (addrToChunk g offset).2 buffer.length)
        writeThrough hround
      simp only
      split
      · next hok => exact hchunk.trans (ih _ _ _ hchunk.sound (ho.evolve hchunk.evolves) (hrest hok))
      · exact hchunk

theorem doFileWr_caches (h : CacheSound g d) (ho : ServedFile d o) (buffer : List UInt8) (offset : ℕ)
    (writeThrough : Bool) (hclean : WriteClean g e o writeThrough buffer.length buffer offset d) :
    Caches g d (doFileWr g e o buffer offset writeThrough d).1 := by
  have hloop := doFileWrLoop_caches writeThrough buffer.length buffer offset d h ho hclean
  unfold doFileWr
  simp only
  exact hloop.trans (((Tidy.refl hloop.sound).same (SameTies.modObj rfl) rfl).caches hloop.sound)

/-! ## Resizing -/

/-- No round of the loop of `yaffs2_handle_hole` writes a chunk past the cache that is dirty in it. -/
def FillClean (g : Geometry) (e : Env) (o : ℕ) : ℕ → ℕ → ℕ → Dev → Prop
  | 0, _, _, _ => True
  | fuel + 1, pos, increase, d =>
    increase ≠ 0 →
      let thisWrite := min increase g.dataBytesPerChunk
      let zeros := List.replicate thisWrite 0
      let r := doFileWr g e o zeros pos false d
      WriteClean g e o false zeros.length zeros pos d ∧
        (r.2 = thisWrite → FillClean g e o fuel (pos + thisWrite) (increase - thisWrite) r.1)

/-- If `yaffs2_handle_hole` fills a hole with zeros, it does so cleanly. -/
def HoleClean (g : Geometry) (e : Env) (o newSize : ℕ) (d : Dev) : Prop :=
  let oldSize := (d.obj o).file.fileSize
  g.isYaffs2 = true → oldSize < newSize → newSize - oldSize < smallHoleThreshold * g.dataBytesPerChunk →
    checkAllocAvailable g (smallHoleThreshold + 1) d.toBlockDev = true →
    FillClean g e o (newSize - oldSize) oldSize (newSize - oldSize) d

theorem fillHoleLoop_caches (fuel : ℕ) : ∀ (pos increase : ℕ) (d : Dev), CacheSound g d → ServedFile d o →
    FillClean g e o fuel pos increase d → Caches g d (fillHoleLoop g e o fuel pos increase d).1 := by
  induction fuel with
  | zero => exact fun _ _ d h _ _ => Caches.refl h
  | succ fuel ih =>
    intro pos increase d h ho hclean
    unfold fillHoleLoop
    by_cases hinc : increase = 0
    · rw [if_pos hinc]
      exact Caches.refl h
    · rw [if_neg hinc]
      obtain ⟨hwrite, hrest⟩ := hclean hinc
      have hwr := doFileWr_caches h ho (List.replicate (min increase g.dataBytesPerChunk) 0) pos false hwrite
      simp only
      split
      · next hok => exact hwr.trans (ih _ _ _ hwr.sound (ho.evolve hwr.evolves) (hrest hok))
      · exact hwr

theorem handleHole_caches (h : CacheSound g d) (ho : ServedFile d o) (newSize : ℕ) (hclean : HoleClean g e o newSize d) :
    Caches g d (handleHole g e o newSize d) := by
  unfold handleHole
  by_cases hno : (d.obj o).variantType ≠ .file ∨ g.isYaffs2 = false ∨ newSize ≤ (d.obj o).file.fileSize
  · rw [if_pos hno]
    exact Caches.refl h
  · rw [if_neg hno]
    simp only [not_or, Bool.not_eq_false, not_le] at hno
    have hfill : Caches g d (fillSmallHole g e o newSize d).1 := by
      unfold fillSmallHole
      simp only
      split
      · next hsmall =>
        have hloop := fillHoleLoop_caches _ _ _ d h ho (hclean hno.2.1 hno.2.2 hsmall.1 hsmall.2)
        split
        · exact hloop
        · exact hloop.next (resizeFileDown_tidying o _)
      · exact Caches.refl h
    simp only
    split
    · exact hfill.next (updateOh_tidying (e := e) o none false true 0)
    · exact hfill

theorem wrFile_caches (h : CacheSound g d) (ho : ServedFile d o) (buffer : List UInt8) (offset : ℕ)
    (writeThrough : Bool) (hhole : HoleClean g e o offset d)
    (hclean : WriteClean g e o writeThrough buffer.length buffer offset (handleHole g e o offset d)) :
    Caches g d (wrFile g e o buffer offset writeThrough d).1 := by
  have hole := handleHole_caches h ho offset hhole
  exact hole.trans (doFileWr_caches hole.sound (ho.evolve hole.evolves) buffer offset writeThrough hclean)

/-- The device when `yaffs_resize_file` looks at the size. -/
def resizeStart (g : Geometry) (e : Env) (o : ℕ) (d : Dev) : Dev :=
  checkGc g e false (invalidateFileCache o (flushFileCache g e o true d))

theorem resizeFile_caches (h : CacheSound g d) (ho : ServedFile d o) (newSize : ℕ)
    (hhole : HoleClean g e o newSize (resizeStart g e o d)) : Caches g d (resizeFile g e o newSize d).1 := by
  have hstart := ((resizeStart_tidy (e := e) h o).1).caches h
  have hopen := ho.evolve hstart.evolves
  unfold resizeStart at hhole
  unfold resizeFile
  simp only
  generalize checkGc g e false (invalidateFileCache o (flushFileCache g e o true d)) = y at *
  split_ifs
  · exact hstart
  · exact hstart
  · have hole := handleHole_caches hstart.sound hopen newSize hhole
    have hsize := (Tidy.refl (S := []) hole.sound).same
      (SameTies.modFile _ o fun f => { f with fileSize := newSize }) rfl
    exact (hstart.trans (hole.trans (hsize.caches hole.sound))).next (resizeHdr_tidying o)
  · exact (hstart.next (resizeFileDown_tidying o newSize)).next (resizeHdr_tidying o)

/-! ## Creating -/

theorem newObj_cache (type : ObjType) (d : Dev) : (newObj g e type d).1.cache = d.cache := by
  have hbucket : (newObjId d).1.cache = d.cache := by
    have hloop : ∀ n lowest l (x : Dev), (findNiceBucketLoop n lowest l x).1.cache = x.cache := by
      intro n
      induction n with
      | zero => exact fun _ _ _ => rfl
      | succ n ih =>
        intro lowest l x
        unfold findNiceBucketLoop
        simp only
        split_ifs
        · exact ih _ _ _
        · exact ih _ _ _
        · rfl
    exact hloop 10 999999 999 d
  unfold newObj
  simp only
  have htnode : (if type = .file then (newObjId d).1.onBlocks (getTnode e) else ((newObjId d).1, true)).1.cache =
      d.cache := by
    split_ifs <;> exact hbucket
  generalize (if type = .file then (newObjId d).1.onBlocks (getTnode e) else ((newObjId d).1, true)) = r at *
  have halloc : (allocEmptyObj e (newObjId d).2 r.1).1.cache = d.cache := by
    unfold allocEmptyObj
    simp only
    split_ifs
    · exact (addObjToDir_cache objectIdLostNFound _ _).trans htnode
    · exact htnode
  split_ifs <;> first | exact halloc | exact htnode

theorem setupObj_cache (n parent : ℕ) (type : ObjType) (name : Name) (equiv : ℕ) (aliasStr : Option Name) (d : Dev) :
    (setupObj n parent type name equiv aliasStr d).cache = d.cache := by
  unfold setupObj
  cases type <;> exact addObjToDir_cache _ _ _

/-- A new object has no entries. -/
theorem CacheSound.setUp {type : ObjType} {n : ℕ} (h : CacheSound g d) (hnew : SetUp type n d d')
    (hc : d'.cache = d.cache) : CacheSound g d' ∧ Uncached d' n := by
  have hne : ∀ c ∈ d'.cache, ∀ q, c.object = some q → q ≠ n ∧ c ∈ d.cache := by
    intro c hc' q hq
    rw [hc] at hc'
    exact ⟨fun hqn => hnew.new (hqn ▸ (h.live c hc' q hq).1), hc'⟩
  refine ⟨⟨hnew.ties, by rw [hc]; exact h.length, by rw [hc]; exact h.unique, fun c hc' q hq => ?_,
    by rw [hc]; exact h.stale, fun c hc' q hq hs => ?_⟩, fun c hc' hq => (hne c hc' n hq).1 rfl⟩
  · obtain ⟨hqn, hcd⟩ := hne c hc' q hq
    rw [hnew.ids, (hnew.bystander q hqn).type]
    exact ⟨List.mem_cons_of_mem _ (h.live c hcd q hq).1, (h.live c hcd q hq).2⟩
  · obtain ⟨hqn, hcd⟩ := hne c hc' q hq
    rw [(hnew.bystander q hqn).softDel] at hs
    exact h.soft c hcd q hq hs

theorem createObj_sound (h : CacheSound g d) {type : ObjType} {parent equiv : ℕ} (hp : parent ∈ d.ids)
    (htype : (d.obj parent).variantType = .directory) (hun : (d.obj parent).unlinked = false)
    (hplain : ¬(parent = objectIdUnlinked ∨ parent = objectIdDeleted))
    (hlink : type = .hardlink → equiv ∈ d.ids ∧ (d.obj equiv).variantType ≠ .directory)
    (name aliasStr : Name) : CacheSound g (createObj g e type parent name equiv aliasStr d).1 := by
  have hstr : SameTies d (if type = .symlink then cloneStr e aliasStr d else (d, some [])).1 ∧
      (if type = .symlink then cloneStr e aliasStr d else (d, some [])).1.cache = d.cache := by
    split_ifs
    · exact ⟨⟨fun _ => rfl, rfl, rfl⟩, rfl⟩
    · exact ⟨SameTies.refl d, rfl⟩
  unfold createObj
  simp only
  generalize (if type = .symlink then cloneStr e aliasStr d else (d, some [])) = s at *
  obtain ⟨y, str⟩ := s
  obtain ⟨hsame, hcache⟩ := hstr
  have hy : CacheSound g y := ((Tidy.refl (S := []) h).same hsame hcache).sound h
  have hby := hsame.bystander
  split_ifs
  · exact h
  · cases str with
    | none => exact hy
    | some str =>
      simp only
      have hnc := newObj_cache (g := g) (e := e) type y
      rcases newObj_new (g := g) (e := e) type hy.ties with ⟨n, hsome, hnew⟩ | ⟨hnone, hsame'⟩
      · have hids := newObj_hashed (g := g) (e := e) type hsome
        have hbystand := fun q hq => newObj_bystander (g := g) (e := e) type (d := y) (q := q) hsome hq
        rw [hsome]
        simp only
        generalize (newObj g e type y).1 = z at *
        have hset := setupObj_setUp hnew hids hbystand (hsame.ids ▸ hp)
          ((hby parent).type.trans htype) ((hsame.get Obj.unlinked parent).trans hun) hplain
          (fun ht => ⟨hsame.ids ▸ (hlink ht).1, by rw [(hby equiv).type]; exact (hlink ht).2⟩) name (some str)
        have hsc := (setupObj_cache n parent type name equiv (some str) z).trans hnc
        generalize setupObj n parent type name equiv (some str) z = w at *
        obtain ⟨hw, hunc⟩ := hy.setUp hset hsc
        have hhdr := updateOh_tidying (g := g) (e := e) n (some name) false false 0 w hw
        have hs := hhdr.sound hw
        unfold finishObj
        simp only
        split
        · have hinitial : n ∉ initialDirs := fun hi => hset.new (hy.ties.initial n hi).1
          exact (delObj_tidy hs hinitial ((hhdr.evolves.inode n).trans hset.plain.2.2.1)
            ((hhdr.evolves.soft n (by simp)).trans hset.plain.1)
            fun _ => Or.inr (hhdr.uncached hunc).cleanFile).sound hs
        · exact (updateParent_tidying (some parent) _ hs).sound hs
      · rw [hnone]
        exact ((Tidy.refl (S := []) hy).same hsame' hnc).sound hy

end Yaffs
