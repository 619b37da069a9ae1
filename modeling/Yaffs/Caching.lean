import Yaffs.Delete
import Yaffs.Lifetime

/-!
# The cache beside the objects

Which entries of the cache a function of the core may change. Most functions are tidy : they leave an
entry as it is, clean it, or drop it when it is clean. An entry that is dropped while it is dirty would
still be counted, so that the files that are deleted must have no dirty entries.
-/

namespace Yaffs

variable {g : Geometry} {e : Env} {d d' d'' x : Dev} {o : ℕ} {S : List ℕ}

/-! ## Entries -/

/-- The entry is left as it is, cleaned, or dropped clean. -/
def Cache.Tidied (c c' : Cache) : Prop :=
  c'.object = c.object ∧ c'.chunkId = c.chunkId ∧ (c'.dirty = true → c.dirty = true) ∨
    c'.object = none ∧ c'.dirty = false

theorem Cache.Tidied.refl (c : Cache) : c.Tidied c :=
  Or.inl ⟨rfl, rfl, id⟩

theorem Cache.Tidied.trans {c c' c'' : Cache} (h : c.Tidied c') (h' : c'.Tidied c'') : c.Tidied c'' := by
  rcases h' with ⟨hobj', hchunk', hdirty'⟩ | h'
  · rcases h with ⟨hobj, hchunk, hdirty⟩ | ⟨hobj, hdirty⟩
    · exact Or.inl ⟨hobj'.trans hobj, hchunk'.trans hchunk, hdirty ∘ hdirty'⟩
    · refine Or.inr ⟨hobj'.trans hobj, ?_⟩
      by_contra hd
      rw [hdirty' (by simpa using hd)] at hdirty
      exact Bool.noConfusion hdirty
  · exact Or.inr h'

theorem forall₂_getElem? {α : Type} {R : α → α → Prop} {l l' : List α} (h : List.Forall₂ R l l') {i : ℕ} {b : α}
    (hb : l'[i]? = some b) : ∃ a, l[i]? = some a ∧ R a b := by
  induction h generalizing i with
  | nil => simp at hb
  | cons hab _ ih =>
    cases i with
    | zero =>
      obtain rfl : _ = b := by simpa using hb
      exact ⟨_, rfl, hab⟩
    | succ i => exact ih (by simpa using hb)

theorem forall₂_mem {α : Type} {R : α → α → Prop} {l l' : List α} (h : List.Forall₂ R l l') {b : α} (hb : b ∈ l') :
    ∃ a ∈ l, R a b := by
  obtain ⟨i, hi⟩ := List.getElem?_of_mem hb
  obtain ⟨a, ha, hab⟩ := forall₂_getElem? h hi
  exact ⟨a, List.mem_of_getElem? ha, hab⟩

theorem tidied_refl (l : List Cache) : List.Forall₂ Cache.Tidied l l :=
  List.forall₂_same.mpr fun c _ => Cache.Tidied.refl c

theorem tidied_trans {l l' l'' : List Cache} (h : List.Forall₂ Cache.Tidied l l')
    (h' : List.Forall₂ Cache.Tidied l' l'') : List.Forall₂ Cache.Tidied l l'' :=
  forall₂_trans (Q := Cache.Tidied) (fun _ _ _ hc hc' => hc.trans hc') h h'

/-- One entry is changed. -/
theorem tidied_modify {l : List Cache} {i : ℕ} {f : Cache → Cache} (hf : ∀ c, l[i]? = some c → c.Tidied (f c)) :
    List.Forall₂ Cache.Tidied l (l.modify i f) := by
  induction l generalizing i with
  | nil => simp
  | cons c l ih =>
    cases i with
    | zero => exact .cons (hf c rfl) (tidied_refl l)
    | succ i => exact .cons (Cache.Tidied.refl c) (ih fun c' hc' => hf c' (by simpa using hc'))

theorem tidied_map {l : List Cache} {f : Cache → Cache} (hf : ∀ c ∈ l, c.Tidied (f c)) :
    List.Forall₂ Cache.Tidied l (l.map f) := by
  rw [List.forall₂_map_right_iff]
  exact List.forall₂_same.mpr hf

/-! ## Bookkeeping -/

/-- The cache is in order, and so are the objects. -/
structure CacheSound (g : Geometry) (d : Dev) : Prop where
  ties : Tied [] d
  length : d.cache.length = g.nCaches
  unique : ∀ (i j : ℕ) (c c' : Cache), d.cache[i]? = some c → d.cache[j]? = some c' → c.object.isSome →
    c.object = c'.object → c.chunkId = c'.chunkId → i = j
  live : ∀ c ∈ d.cache, ∀ o, c.object = some o → o ∈ d.ids ∧ (d.obj o).variantType = .file
  stale : ∀ c ∈ d.cache, c.object = none → c.dirty = false
  soft : ∀ c ∈ d.cache, ∀ o, c.object = some o → (d.obj o).softDel = true → c.dirty = false

/-- The objects have evolved, and the cache has been tidied. -/
structure Tidy (S : List ℕ) (d d' : Dev) : Prop where
  evolves : Evolves [] S d d'
  cache : List.Forall₂ Cache.Tidied d.cache d'.cache
  live : ∀ c ∈ d'.cache, ∀ o, c.object = some o → o ∈ d'.ids
  soft : ∀ c ∈ d'.cache, ∀ o, c.object = some o → (d'.obj o).softDel = true → c.dirty = false

/-- The file has no dirty entries. -/
def CleanFile (d : Dev) (o : ℕ) : Prop :=
  ∀ c ∈ d.cache, c.object = some o → c.dirty = false

/-- The file has no entries. -/
def Uncached (d : Dev) (o : ℕ) : Prop :=
  ∀ c ∈ d.cache, c.object ≠ some o

theorem Uncached.cleanFile (h : Uncached d o) : CleanFile d o :=
  fun c hc ho => absurd ho (h c hc)

namespace Tidy

theorem sound (h : Tidy S d d') (hd : CacheSound g d) : CacheSound g d' where
  ties := h.evolves.ties
  length := h.cache.length_eq.symm.trans hd.length
  unique i j c c' hi hj hsome hobj hchunk := by
    obtain ⟨b, hb, hbc⟩ := forall₂_getElem? h.cache hi
    obtain ⟨b', hb', hbc'⟩ := forall₂_getElem? h.cache hj
    rcases hbc with ⟨h1, h2, -⟩ | ⟨h1, -⟩
    · rcases hbc' with ⟨h1', h2', -⟩ | ⟨h1', -⟩
      · exact hd.unique i j b b' hb hb' (h1 ▸ hsome) (h1.symm.trans (hobj.trans h1'))
          (h2.symm.trans (hchunk.trans h2'))
      · rw [hobj, h1'] at hsome
        simp at hsome
    · rw [h1] at hsome
      simp at hsome
  live c hc o ho := by
    refine ⟨h.live c hc o ho, ?_⟩
    obtain ⟨b, hb, ⟨h1, -, -⟩ | ⟨h1, -⟩⟩ := forall₂_mem h.cache hc
    · exact (h.evolves.type o).trans (hd.live b hb o (h1.symm.trans ho)).2
    · rw [h1] at ho
      simp at ho
  stale c hc ho := by
    obtain ⟨b, hb, ⟨h1, -, h3⟩ | ⟨-, h2⟩⟩ := forall₂_mem h.cache hc
    · by_contra hd'
      have := hd.stale b hb (h1.symm.trans ho)
      rw [h3 (by simpa using hd')] at this
      exact Bool.noConfusion this
    · exact h2
  soft := h.soft

theorem refl (h : CacheSound g d) : Tidy S d d :=
  ⟨Evolves.refl h.ties, tidied_refl _, fun c hc o ho => (h.live c hc o ho).1, h.soft⟩

theorem trans (h : Tidy S d d') (h' : Tidy S d' d'') : Tidy S d d'' :=
  ⟨h.evolves.trans h'.evolves, tidied_trans h.cache h'.cache, h'.live, h'.soft⟩

theorem mono {R : List ℕ} (h : Tidy S d d') (hS : ∀ o ∈ S, o ∈ R) : Tidy R d d' :=
  ⟨h.evolves.mono hS, h.cache, h.live, h.soft⟩

/-- The objects evolve further, and none that has an entry is freed. -/
theorem evolve (h : Tidy S d d') (hev : Evolves [] S d' x) (hc : List.Forall₂ Cache.Tidied d'.cache x.cache)
    (hids : ∀ c ∈ x.cache, ∀ o, c.object = some o → o ∈ d'.ids → o ∈ x.ids)
    (hsoft : ∀ o, (x.obj o).softDel = (d'.obj o).softDel) : Tidy S d x := by
  refine ⟨h.evolves.trans hev, tidied_trans h.cache hc, fun c hc' o ho => ?_, fun c hc' o ho hs => ?_⟩
  · obtain ⟨b, hb, ⟨h1, -, -⟩ | ⟨h1, -⟩⟩ := forall₂_mem hc hc'
    · exact hids c hc' o ho (h.live b hb o (h1.symm.trans ho))
    · rw [h1] at ho
      simp at ho
  · obtain ⟨b, hb, ⟨h1, -, h3⟩ | ⟨h1, -⟩⟩ := forall₂_mem hc hc'
    · have := h.soft b hb o (h1.symm.trans ho) ((hsoft o).symm.trans hs)
      by_contra hd'
      rw [h3 (by simpa using hd')] at this
      exact Bool.noConfusion this
    · rw [h1] at ho
      simp at ho

/-- Nothing happens to the objects. -/
theorem entries (h : Tidy S d d') (hs : SameTies d' x) (hc : List.Forall₂ Cache.Tidied d'.cache x.cache) :
    Tidy S d x :=
  h.evolve ((hs.evolves h.evolves.ties).mono (by simp)) hc (fun _ _ _ _ ho => hs.ids ▸ ho)
    fun o => hs.get Obj.softDel o

/-- Nothing happens to the cache. -/
theorem same (h : Tidy S d d') (hs : SameTies d' x) (hc : x.cache = d'.cache) : Tidy S d x :=
  h.entries hs (hc ▸ tidied_refl _)

theorem cleanFile (h : Tidy S d d') (ho : CleanFile d o) : CleanFile d' o := by
  intro c hc hco
  obtain ⟨b, hb, ⟨h1, -, h3⟩ | ⟨h1, -⟩⟩ := forall₂_mem h.cache hc
  · have := ho b hb (h1.symm.trans hco)
    by_contra hd'
    rw [h3 (by simpa using hd')] at this
    exact Bool.noConfusion this
  · rw [h1] at hco
    simp at hco

theorem uncached (h : Tidy S d d') (ho : Uncached d o) : Uncached d' o := by
  intro c hc hco
  obtain ⟨b, hb, ⟨h1, -, -⟩ | ⟨h1, -⟩⟩ := forall₂_mem h.cache hc
  · exact ho b hb (h1.symm.trans hco)
  · rw [h1] at hco
    simp at hco

end Tidy

/-- A function of the core that is tidy. -/
def Tidying (g : Geometry) (f : Dev → Dev) : Prop :=
  ∀ d, CacheSound g d → Tidy [] d (f d)

theorem Tidy.next {f : Dev → Dev} (h : Tidy S d d') (hd : CacheSound g d) (hf : Tidying g f) : Tidy S d (f d') :=
  h.trans ((hf d' (h.sound hd)).mono (by simp))

/-! ## What leaves the cache alone -/

theorem putChunkInFile_cache (o k c : ℕ) (d : Dev) : (putChunkInFile g e o k c d).1.cache = d.cache := by
  unfold putChunkInFile
  simp only
  split_ifs <;> rfl

theorem replaceChunk_cache (o k : ℕ) (prev : Option ℕ) (c : ℕ) (d : Dev) :
    (replaceChunk g e o k prev c d).cache = d.cache := by
  unfold replaceChunk
  cases prev <;> exact putChunkInFile_cache o k c d

theorem wrDataChunk_cache (o k : ℕ) (data : List UInt8) (nBytes : ℕ) (useReserve : Bool) (d : Dev) :
    (wrDataChunk g e o k data nBytes useReserve d).1.cache = d.cache := by
  have hprev : (if (findChunkInFile g d o k).isNone then putChunkInFile g e o k 0 d else (d, true)).1.cache =
      d.cache := by
    split_ifs
    · exact putChunkInFile_cache o k 0 d
    · rfl
  unfold wrDataChunk
  simp only
  generalize (if (findChunkInFile g d o k).isNone then putChunkInFile g e o k 0 d else (d, true)) = r at hprev ⊢
  split
  · split
    · exact (replaceChunk_cache _ _ _ _ _).trans hprev
    · exact hprev
  · exact hprev

theorem HdrStep.cache (h : HdrStep d d') : d'.cache = d.cache := by
  rw [h.eq]

theorem addObjToDir_cache (dir o : ℕ) (d : Dev) : (addObjToDir dir o d).cache = d.cache := by
  unfold addObjToDir removeObjFromDir
  cases (d.obj o).parent <;> simp only <;> split_ifs <;> rfl

theorem removeObjFromDir_cache (o : ℕ) (d : Dev) : (removeObjFromDir o d).cache = d.cache := by
  unfold removeObjFromDir
  cases (d.obj o).parent <;> rfl

theorem removeObjFromDir_ids (o : ℕ) (d : Dev) : (removeObjFromDir o d).ids = d.ids := by
  unfold removeObjFromDir
  cases (d.obj o).parent <;> rfl

theorem freeObj_cache (o : ℕ) (d : Dev) : (freeObj o d).cache = d.cache := by
  unfold freeObj
  split_ifs <;> rfl

theorem freeObj_mem {q : ℕ} (hq : q ∈ d.ids) (hne : q ≠ o) : q ∈ (freeObj o d).ids := by
  unfold freeObj
  split_ifs
  · exact hq
  · exact (List.mem_erase_of_ne hne).mpr hq

/-- Whether an object has been softly deleted, and its hard links. -/
def Obj.marks (ob : Obj) : Bool × List ℕ :=
  (ob.softDel, ob.hardLinks)

theorem freeObj_marks (o q : ℕ) (d : Dev) : ((freeObj o d).obj q).marks = (d.obj q).marks := by
  unfold freeObj
  split_ifs
  · by_cases hq : q = o
    · subst hq
      simp [Dev.modObj, Obj.marks]
    · simp [Dev.modObj, hq]
  · rfl

/-! ## Garbage collection -/

/-- What gc does to the cache : it drops the entries of files that have been softly deleted. -/
structure GcDrops (d d' : Dev) : Prop where
  soft : ∀ o, (d'.obj o).softDel = (d.obj o).softDel
  ring : ∀ o, (d'.obj o).hardLinks = (d.obj o).hardLinks
  cache : List.Forall₂ (CacheKept [] d) d.cache d'.cache
  live : ∀ c ∈ d'.cache, ∀ o, c.object = some o → o ∈ d.ids → o ∈ d'.ids

namespace GcDrops

theorem of_eq (hsoft : ∀ o, (d'.obj o).softDel = (d.obj o).softDel)
    (hring : ∀ o, (d'.obj o).hardLinks = (d.obj o).hardLinks) (hc : d'.cache = d.cache)
    (hids : d'.ids = d.ids) : GcDrops d d' :=
  ⟨hsoft, hring, hc ▸ cacheKept_refl _ _ _, fun _ _ _ _ ho => hids ▸ ho⟩

theorem refl (d : Dev) : GcDrops d d :=
  of_eq (fun _ => rfl) (fun _ => rfl) rfl rfl

theorem of_same (h : SameTies d d') (hc : d'.cache = d.cache) : GcDrops d d' :=
  of_eq (h.get Obj.softDel) (h.get Obj.hardLinks) hc h.ids

theorem trans (h : GcDrops d d') (h' : GcDrops d' d'') : GcDrops d d'' where
  soft o := (h'.soft o).trans (h.soft o)
  ring o := (h'.ring o).trans (h.ring o)
  cache := by
    refine forall₂_trans ?_ h.cache h'.cache
    rintro c c' c'' (rfl | ⟨o, hc, hs, rfl⟩) (rfl | ⟨o', hc', hs', rfl⟩)
    · exact Or.inl rfl
    · exact Or.inr ⟨o', hc', hs'.imp (fun hs => (h.soft o').symm.trans hs) id, rfl⟩
    · exact Or.inr ⟨o, hc, hs, rfl⟩
    · simp at hc'
  live c hc o ho hid := by
    obtain ⟨b, hb, rfl | ⟨o', -, -, rfl⟩⟩ := forall₂_mem h'.cache hc
    · exact h'.live _ hc o ho (h.live _ hb o ho hid)
    · simp at ho

/-- Entries of files softly deleted are clean, so that gc is tidy. -/
theorem tidy (h : GcDrops d d') (hd : CacheSound g d) (hev : Evolves [] [] d d') : Tidy [] d d' := by
  have hcache : List.Forall₂ Cache.Tidied d.cache d'.cache := by
    have hmem : ∀ l l' : List Cache, List.Forall₂ (CacheKept [] d) l l' → (∀ c ∈ l, c ∈ d.cache) →
        List.Forall₂ Cache.Tidied l l' := by
      intro l l' hl
      induction hl with
      | nil => exact fun _ => .nil
      | cons hab _ ih =>
        intro hsub
        refine .cons ?_ (ih fun c hc => hsub c (List.mem_cons_of_mem _ hc))
        rcases hab with rfl | ⟨o, ho, hs, rfl⟩
        · exact Cache.Tidied.refl _
        · have hclean := hd.soft _ (hsub _ List.mem_cons_self) o ho (hs.resolve_right (by simp))
          exact Or.inr ⟨rfl, hclean⟩
    exact hmem _ _ h.cache fun _ hc => hc
  exact (Tidy.refl hd).evolve hev hcache h.live h.soft

end GcDrops

theorem gcCopyHdr_cache (o old : ℕ) (p : Page) (d : Dev) : (gcCopyHdr g e o old p d).1.cache = d.cache := by
  unfold gcCopyHdr
  simp only
  split <;> rfl

theorem gcCopyData_cache (o old : ℕ) (p : Page) (d : Dev) : (gcCopyData g e o old p d).1.cache = d.cache := by
  unfold gcCopyData
  simp only
  split
  · rfl
  · exact putChunkInFile_cache _ _ _ _

theorem gcDropChunk_drops (o old : ℕ) (d : Dev) : GcDrops d (gcDropChunk g e o old d) := by
  have hmark : ∀ q, ((gcDropChunk g e o old d).obj q).softDel = (d.obj q).softDel ∧
      ((gcDropChunk g e o old d).obj q).hardLinks = (d.obj q).hardLinks := by
    intro q
    unfold gcDropChunk
    simp only
    split_ifs <;> by_cases hq : q = o <;> simp [Dev.mapBlocks, Dev.modObj, hq]
  refine GcDrops.of_eq (fun q => (hmark q).1) (fun q => (hmark q).2) ?_ ?_ <;> unfold gcDropChunk <;>
    simp only <;> split_ifs <;> rfl

theorem gcProcessChunk_drops (old : ℕ) (d : Dev) : GcDrops d (gcProcessChunk g e old d).1 := by
  unfold gcProcessChunk
  simp only
  split
  · exact GcDrops.of_same (SameTies.mapBlocks d _) rfl
  · split_ifs
    · exact gcDropChunk_drops _ _ _
    · exact GcDrops.of_same (gcCopyHdr_sameTies _ _ _ _) (gcCopyHdr_cache _ _ _ _)
    · exact GcDrops.of_same (gcCopyData_sameTies _ _ _ _) (gcCopyData_cache _ _ _ _)

theorem gcBlockLoop_drops (b n : ℕ) : ∀ (maxCopies : ℕ) (d : Dev),
    GcDrops d (gcBlockLoop g e b n maxCopies d).1 := by
  induction n with
  | zero => exact fun _ d => GcDrops.refl d
  | succ n ih =>
    intro maxCopies d
    have hnext : ∀ x : Dev, GcDrops x (x.mapBlocks fun b => { b with gc := { b.gc with chunk := b.gc.chunk + 1 } }) :=
      fun x => GcDrops.of_same (SameTies.mapBlocks x _) rfl
    have hchunk := (gcProcessChunk_drops (g := g) (e := e) (b * g.chunksPerBlock + d.gc.chunk) d).trans (hnext _)
    unfold gcBlockLoop
    simp only
    split_ifs
    · exact hchunk.trans (ih _ _)
    · exact hchunk
    · exact (hnext d).trans (ih _ _)
    · exact GcDrops.refl d

/-- The deletion of an object drops its entries; with no gc in it, nothing else happens to the cache. -/
theorem genericObjDelWith_id (o : ℕ) (d : Dev) :
    (genericObjDelWith g e (fun d => d) o d).cache = (invalidateFileCache o d).cache ∧
      (∀ q ∈ d.ids, q ≠ o → q ∈ (genericObjDelWith g e (fun d => d) o d).ids) ∧
      ∀ q, ((genericObjDelWith g e (fun d => d) o d).obj q).marks = (d.obj q).marks := by
  have hname : ∀ x : Dev, ∀ y, y = (changeObjNameWith g e (fun d => d) o (some objectIdDeleted) deletedName false 0 x).1 →
      y.cache = x.cache ∧ y.ids = x.ids ∧ ∀ q, (y.obj q).marks = (x.obj q).marks := by
    rintro x y rfl
    rcases changeObjNameWith_placed (g := g) (e := e) (fun d => d) o (some objectIdDeleted) deletedName false 0 x with
      ⟨heq, -⟩ | ⟨dir, -, -, heq⟩
    · rw [heq]
      exact ⟨rfl, rfl, fun _ => rfl⟩
    · rw [heq]
      have hset : SameTies x (x.modObj o fun ob => { setObjName o deletedName ob with dirty := true }) :=
        SameTies.modObj (setObjName_ties o deletedName _)
      have hcache := addObjToDir_cache dir o (x.modObj o fun ob => { setObjName o deletedName ob with dirty := true })
      have hids := addObjToDir_ids dir o (x.modObj o fun ob => { setObjName o deletedName ob with dirty := true })
      have hmarks : ∀ q, ((addObjToDir dir o
          (x.modObj o fun ob => { setObjName o deletedName ob with dirty := true })).obj q).marks = (x.obj q).marks :=
        fun q => (congrArg Obj.marks (addObjToDir_obj dir o _ q) : _).trans (hset.get Obj.marks q)
      generalize addObjToDir dir o (x.modObj o fun ob => { setObjName o deletedName ob with dirty := true }) = m at *
      rcases updateOhWith_step (g := g) (e := e) (fun d => d) o (some deletedName) false
        (decide (dir = objectIdDeleted)) 0 m with hid | hstep
      · rw [hid]
        exact ⟨hcache, hids, hmarks⟩
      · exact ⟨hstep.cache.trans hcache, hstep.ids.trans hids,
          fun q => (congrArg Obj.marks (hstep.body q) : _).trans (hmarks q)⟩
  have hend : ∀ x : Dev, x.cache = (invalidateFileCache o d).cache → x.ids = d.ids →
      (∀ q, (x.obj q).marks = (d.obj q).marks) →
      ∀ y : Dev, y = freeObj o (((removeObjFromDir o x).mapBlocks
        (chunkDel g e ((removeObjFromDir o x).obj o).hdrChunk true)).modObj o fun ob => { ob with hdrChunk := 0 }) →
      y.cache = (invalidateFileCache o d).cache ∧ (∀ q ∈ d.ids, q ≠ o → q ∈ y.ids) ∧
        ∀ q, (y.obj q).marks = (d.obj q).marks := by
    rintro x hc hi hs y rfl
    refine ⟨(freeObj_cache _ _).trans ((removeObjFromDir_cache o x).trans hc), fun q hq hne => ?_, fun q => ?_⟩
    · refine freeObj_mem ?_ hne
      change q ∈ (removeObjFromDir o x).ids
      rw [removeObjFromDir_ids, hi]
      exact hq
    · rw [freeObj_marks, ← hs q]
      have hrem : ((removeObjFromDir o x).obj q).marks = (x.obj q).marks :=
        (congrArg Obj.marks (removeObjFromDir_obj o x q) : _)
      by_cases hq : q = o
      · subst hq
        simp only [Dev.modObj, Dev.mapBlocks, Function.update_self]
        exact hrem
      · simp only [Dev.modObj, Dev.mapBlocks, Function.update_of_ne hq]
        exact hrem
  unfold genericObjDelWith
  simp only
  split_ifs
  · obtain ⟨hc, hi, hs⟩ := hname (invalidateFileCache o d) _ rfl
    exact hend _ hc hi hs _ rfl
  · exact hend _ rfl rfl (fun _ => rfl) _ rfl

theorem invalidateFileCache_kept (d : Dev) (hs : (d.obj o).softDel = true) :
    List.Forall₂ (CacheKept [] d) d.cache (invalidateFileCache o d).cache := by
  unfold invalidateFileCache
  simp only [List.forall₂_map_right_iff]
  refine List.forall₂_same.mpr fun c _ => ?_
  split_ifs with hc
  · exact Or.inr ⟨o, hc, Or.inl hs, rfl⟩
  · exact Or.inl rfl

theorem invalidateFileCache_uncached (o : ℕ) (d : Dev) : Uncached (invalidateFileCache o d) o := by
  intro c hc hco
  obtain ⟨b, -, rfl⟩ := List.mem_map.mp hc
  split_ifs at hco with hb
  exact hb hco

theorem gcCleanUp_drops (hs : (d.obj o).softDel = true) : GcDrops d (gcCleanUp g e d o) := by
  unfold gcCleanUp
  split
  · exact GcDrops.refl d
  · next o' hfind =>
    obtain rfl : o' = o := by
      unfold findByNumber at hfind
      split_ifs at hfind
      exact (Option.some.inj hfind).symm
    have htop := freeTop_sameTies o' d
    obtain ⟨hc, hi, hsoft⟩ := genericObjDelWith_id (g := g) (e := e) o' (freeTop o' d)
    have hkept := invalidateFileCache_kept (freeTop o' d) ((htop.get Obj.softDel o').trans hs)
    have hun := invalidateFileCache_uncached o' (freeTop o' d)
    refine (GcDrops.of_same htop rfl).trans ⟨fun q => congrArg Prod.fst (hsoft q),
      fun q => congrArg Prod.snd (hsoft q), ?_, fun c hc' q hq hid => hi q hid ?_⟩
    · change List.Forall₂ _ _ (genericObjDelWith g e (fun d => d) o' (freeTop o' d)).cache
      rw [hc]
      exact hkept
    · rintro rfl
      change c ∈ (genericObjDelWith g e (fun d => d) q (freeTop q d)).cache at hc'
      rw [hc] at hc'
      exact hun c hc' hq

theorem foldl_gcCleanUp_drops (l : List ℕ) : ∀ d : Dev, (∀ o ∈ l, (d.obj o).softDel = true) →
    GcDrops d (l.foldl (gcCleanUp g e) d) := by
  induction l with
  | nil => exact fun d _ => GcDrops.refl d
  | cons o l ih =>
    intro d hl
    have hone := gcCleanUp_drops (g := g) (e := e) (hl o (by simp))
    exact hone.trans (ih _ fun q hq => (hone.soft q).trans (hl q (by simp [hq])))

theorem gcBlockEnd_drops (b : ℕ) (hl : ∀ o ∈ d.gcCleanupList, (d.obj o).softDel = true) :
    GcDrops d (gcBlockEnd g e b d) := by
  unfold gcBlockEnd
  simp only
  split_ifs
  · exact GcDrops.of_eq (fun _ => rfl) (fun _ => rfl) rfl rfl
  · exact (foldl_gcCleanUp_drops (g := g) (e := e) d.gcCleanupList d hl).trans
      (GcDrops.of_eq (fun _ => rfl) (fun _ => rfl) rfl rfl)

theorem Tied.list_soft (h : Tied [] d) : ∀ o ∈ d.gcCleanupList, (d.obj o).softDel = true :=
  fun o ho => ((h.clean o ho).resolve_left (by simp)).2

theorem gcBlock_drops (b : ℕ) (wholeBlock : Bool) (h : Tied [] d) : GcDrops d (gcBlock g e b wholeBlock d).1 := by
  have hstart := SameTies.mapBlocks d (gcBlockStart g b)
  have hev := hstart.evolves h
  have hdrop : GcDrops d (d.mapBlocks (gcBlockStart g b)) := GcDrops.of_same hstart rfl
  unfold gcBlock
  simp only
  split_ifs
  · have hdirty := SameTies.mapBlocks (d.mapBlocks (gcBlockStart g b)) (blockBecameDirty g e b)
    exact (hdrop.trans (GcDrops.of_same hdirty rfl)).trans (gcBlockEnd_drops b (hdirty.evolves hev.ties).ties.list_soft)
  · exact (hdrop.trans (gcBlockLoop_drops _ _ _ _)).trans
      (gcBlockEnd_drops b (gcBlockLoop_evolves _ _ _ _ hev.ties).ties.list_soft)
  · exact (hdrop.trans (gcBlockLoop_drops _ _ _ _)).trans
      (gcBlockEnd_drops b (gcBlockLoop_evolves _ _ _ _ hev.ties).ties.list_soft)

theorem checkGcLoop_drops (background : Bool) (n : ℕ) : ∀ d : Dev, Tied [] d →
    GcDrops d (checkGcLoop g e background n d) := by
  induction n with
  | zero => exact fun d _ => GcDrops.refl d
  | succ n ih =>
    intro d h
    have hmode := (onBlocks_sameTies d (gcMode g background)).evolves h
    have hround : ∀ aggressive, Evolves [] [] d (gcRound g e aggressive background (d.onBlocks (gcMode g background)).1) ∧
        GcDrops d (gcRound g e aggressive background (d.onBlocks (gcMode g background)).1) := by
      intro aggressive
      have hchoose := hmode.trans (chooseGcBlock_evolves (g := g) aggressive background hmode.ties)
      have hdrop : GcDrops d (chooseGcBlock g aggressive background (d.onBlocks (gcMode g background)).1) := by
        unfold chooseGcBlock
        simp only
        split_ifs <;> exact GcDrops.of_eq (fun _ => rfl) (fun _ => rfl) rfl rfl
      unfold gcRound
      simp only
      split_ifs
      · exact ⟨hchoose.trans (gcBlock_evolves _ _ hchoose.ties), hdrop.trans (gcBlock_drops _ _ hchoose.ties)⟩
      · exact ⟨hchoose, hdrop⟩
    unfold checkGcLoop
    simp only
    split
    · exact GcDrops.of_same (onBlocks_sameTies d (gcMode g background)) rfl
    · next aggressive _ =>
      split_ifs
      · exact (hround aggressive).2.trans (ih _ (hround aggressive).1.ties)
      · exact (hround aggressive).2

theorem checkGc_drops (background : Bool) (h : Tied [] d) : GcDrops d (checkGc g e background d) := by
  have hcontrol := onBlocks_sameTies d (gcControl e)
  unfold checkGc
  simp only
  split_ifs
  · exact (GcDrops.of_same hcontrol rfl).trans (checkGcLoop_drops background 2 _ (hcontrol.evolves h).ties)
  · exact GcDrops.of_same hcontrol rfl

theorem checkGc_tidying (background : Bool) : Tidying g (checkGc g e background) :=
  fun d h => (checkGc_drops background h.ties).tidy h (checkGc_evolves background d h.ties)

end Yaffs
