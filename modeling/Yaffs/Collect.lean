import Yaffs.Invariant

/-!
# Garbage collection keeps the invariant

A gc moves the chunks of objects and finishes the deletion of files that have been soft
deleted. `GcFrame` says what every other object sees of it : nothing. Its content, its
attributes and its place in its directory stay.
-/

namespace Yaffs

open Tally

variable {g : Geometry} {e : Env} {T : ℕ → BlockState → Prop}

/-! ## Content -/

/-- The part of a header that gc copies as it is. -/
def ObjHdr.core (oh : ObjHdr) : ObjHdr :=
  { oh with fileSize := 0, shadowsObj := 0, inbandShadowedObjId := 0, isShrink := false }

/-- The part of a page's data that gc copies as it is. -/
def PageData.core : PageData → PageData
  | .hdr oh => .hdr oh.core
  | data => data

/-- Chunk `k` of `o` is kept with the data `x`. -/
def Content (K : Pages) (o k : ℕ) (x : PageData) : Prop :=
  ∃ c p, K c = some p ∧ p.key = (o, k) ∧ p.data.core = x

section Content

variable {K : Pages} {o k c prev : ℕ} {p : Page} {x : PageData}

/-- A replacement of one page is no change to the others. -/
theorem content_replace_of_ne (hc : K c = none) (hprev : ∀ q, K prev = some q → q.key = p.key)
    (hne : p.key ≠ (o, k)) : Content (replacePage K prev c p) o k x ↔ Content K o k x := by
  constructor
  · rintro ⟨c', q, hq, hkey, hx⟩
    rcases replacePage_cases hq with ⟨rfl, rfl⟩ | ⟨-, -, hq⟩
    · exact absurd hkey hne
    · exact ⟨c', q, hq, hkey, hx⟩
  · rintro ⟨c', q, hq, hkey, hx⟩
    refine ⟨c', q, Own.replace_of_key hc hq fun q' hq' => ?_, hkey, hx⟩
    rw [hprev q' hq', hkey]
    exact hne

/-- The content of the page that came. -/
theorem content_replace_self (hold : ∀ c' q, K c' = some q → q.key = p.key → c' = prev)
    (hkey : p.key = (o, k)) : Content (replacePage K prev c p) o k x ↔ p.data.core = x := by
  constructor
  · rintro ⟨c', q, hq, hkey', hx⟩
    rcases replacePage_cases hq with ⟨rfl, rfl⟩ | ⟨-, hne, hq⟩
    · exact hx
    · exact absurd (hold c' q hq (hkey'.trans hkey.symm)) hne
  · exact fun hx => ⟨c, p, replacePage_self, hkey, hx⟩

theorem content_drop_of_ne (hp : K c = some p) (hne : p.key ≠ (o, k)) :
    Content (Function.update K c none) o k x ↔ Content K o k x := by
  constructor
  · rintro ⟨c', q, hq, hkey, hx⟩
    by_cases hcc : c' = c
    · simp [hcc] at hq
    · exact ⟨c', q, by simpa [hcc] using hq, hkey, hx⟩
  · rintro ⟨c', q, hq, hkey, hx⟩
    have hcc : c' ≠ c := by
      rintro rfl
      exact hne (Option.some.inj (hp.symm.trans hq) ▸ hkey)
    exact ⟨c', q, by rwa [Function.update_of_ne hcc], hkey, hx⟩

end Content

/-! ## What gc leaves alone -/

/-- The attributes of an object. -/
def Obj.attrs (ob : Obj) : Obj :=
  { ob with hdrChunk := 0, nDataChunks := 0, dirty := false, file := {}, children := [] }

theorem Obj.softDel_eq {ob ob' : Obj} (h : ob.attrs = ob'.attrs) : ob.softDel = ob'.softDel := by
  have := congrArg Obj.softDel h
  exact this

theorem Obj.variantType_eq {ob ob' : Obj} (h : ob.attrs = ob'.attrs) :
    ob.variantType = ob'.variantType := by
  have := congrArg Obj.variantType h
  exact this

theorem Obj.deferredFree_eq {ob ob' : Obj} (h : ob.attrs = ob'.attrs) :
    ob.deferredFree = ob'.deferredFree := by
  have := congrArg Obj.deferredFree h
  exact this

/-- Object `o` is the same, but for the places of its chunks and for the chunks `X`. -/
structure SameObj (X : List (ℕ × ℕ)) (d d' : Dev) (o : ℕ) : Prop where
  attrs : (d'.obj o).attrs = (d.obj o).attrs
  file : FileVar.SameFile (d.obj o).file (d'.obj o).file
  ids : o ∈ d'.ids ↔ o ∈ d.ids
  content : ∀ k x, (o, k) ∉ X → (Content d'.kept o k x ↔ Content d.kept o k x)

theorem SameObj.refl (X : List (ℕ × ℕ)) (d : Dev) (o : ℕ) : SameObj X d d o :=
  ⟨rfl, FileVar.SameFile.refl _, Iff.rfl, fun _ _ _ => Iff.rfl⟩

theorem SameObj.trans {X : List (ℕ × ℕ)} {d d' d'' : Dev} {o : ℕ} (h : SameObj X d d' o)
    (h' : SameObj X d' d'' o) : SameObj X d d'' o :=
  ⟨h'.attrs.trans h.attrs, h.file.trans h'.file, h'.ids.trans h.ids,
    fun k x hk => (h'.content k x hk).trans (h.content k x hk)⟩

/-- A cache entry stays, or is dropped with a file that had been soft deleted or is in `S`. -/
def CacheKept (S : List ℕ) (d : Dev) (c c' : Cache) : Prop :=
  c' = c ∨ ∃ o, c.object = some o ∧ ((d.obj o).softDel = true ∨ o ∈ S) ∧ c' = { c with object := none }

/-- The children of a directory that have not been soft deleted, without `S`. -/
def liveChildren (S : List ℕ) (d : Dev) (dir : ℕ) : List ℕ :=
  (d.obj dir).children.filter fun o => !(d.obj o).softDel && o ∉ S

/-- The objects outside `S` that have not been soft deleted are left alone, but for the
chunks `X`. -/
structure ObjFrame (S : List ℕ) (X : List (ℕ × ℕ)) (d d' : Dev) : Prop where
  soft : ∀ o, o ∉ S → (d'.obj o).softDel = (d.obj o).softDel
  ids : ∀ o, o ∉ S → o ∈ d'.ids → o ∈ d.ids
  same : ∀ o, o ∉ S → (d.obj o).softDel = false → SameObj X d d' o
  children : ∀ dir, liveChildren S d' dir = liveChildren S d dir

/-- What gc leaves alone, and what the deletion of the objects `S` does. -/
structure GcFrame (S : List ℕ) (X : List (ℕ × ℕ)) (d d' : Dev) : Prop extends ObjFrame S X d d' where
  cache : List.Forall₂ (CacheKept S d) d.cache d'.cache
  cacheLastUse : d'.cacheLastUse = d.cacheLastUse
  dirtyDirs : d'.dirtyDirs = d.dirtyDirs

/-- Relations between lists of the same length compose. -/
theorem forall₂_trans {α β γ : Type} {R : α → β → Prop} {S : β → γ → Prop} {Q : α → γ → Prop}
    (h : ∀ a b c, R a b → S b c → Q a c) {l : List α} {l' : List β} {l'' : List γ}
    (h₁ : List.Forall₂ R l l') (h₂ : List.Forall₂ S l' l'') : List.Forall₂ Q l l'' := by
  induction h₁ generalizing l'' with
  | nil =>
    cases h₂
    exact .nil
  | cons hab _ ih =>
    cases h₂ with
    | cons hbc h₂ => exact .cons (h _ _ _ hab hbc) (ih h₂)

theorem cacheKept_refl (S : List ℕ) (d : Dev) (l : List Cache) : List.Forall₂ (CacheKept S d) l l :=
  List.forall₂_same.mpr fun _ _ => Or.inl rfl

section Frame

variable {S : List ℕ} {X : List (ℕ × ℕ)} {d d' d'' : Dev}

theorem ObjFrame.refl (S : List ℕ) (X : List (ℕ × ℕ)) (d : Dev) : ObjFrame S X d d :=
  ⟨fun _ _ => rfl, fun _ _ h => h, fun o _ _ => SameObj.refl X d o, fun _ => rfl⟩

theorem ObjFrame.trans (h : ObjFrame S X d d') (h' : ObjFrame S X d' d'') : ObjFrame S X d d'' where
  soft o ho := (h'.soft o ho).trans (h.soft o ho)
  ids o ho hid := h.ids o ho (h'.ids o ho hid)
  same o ho hs := (h.same o ho hs).trans (h'.same o ho ((h.soft o ho).trans hs))
  children dir := (h'.children dir).trans (h.children dir)

/-- More objects may change. -/
theorem ObjFrame.mono {S' : List ℕ} {X' : List (ℕ × ℕ)} (h : ObjFrame S X d d') (hS : ∀ o ∈ S, o ∈ S')
    (hX : ∀ x ∈ X, x ∈ X') : ObjFrame S' X' d d' where
  soft o ho := h.soft o fun hS' => ho (hS o hS')
  ids o ho := h.ids o fun hS' => ho (hS o hS')
  same o ho hs :=
    let h := h.same o (fun hS' => ho (hS o hS')) hs
    ⟨h.attrs, h.file, h.ids, fun k x hk => h.content k x fun hX' => hk (hX _ hX')⟩
  children dir := by
    have hfilter : ∀ x : Dev, liveChildren S' x dir = (liveChildren S x dir).filter (· ∉ S') := by
      intro x
      unfold liveChildren
      rw [List.filter_filter]
      refine List.filter_congr fun o _ => ?_
      by_cases ho : o ∈ S'
      · simp [ho]
      · have hoS : o ∉ S := fun hS' => ho (hS o hS')
        simp [ho, hoS]
    rw [hfilter, hfilter, h.children]

theorem GcFrame.refl (S : List ℕ) (X : List (ℕ × ℕ)) (d : Dev) : GcFrame S X d d :=
  ⟨ObjFrame.refl S X d, cacheKept_refl S d _, rfl, rfl⟩

theorem GcFrame.trans (h : GcFrame S X d d') (h' : GcFrame S X d' d'') : GcFrame S X d d'' where
  toObjFrame := h.toObjFrame.trans h'.toObjFrame
  cache := by
    refine forall₂_trans ?_ h.cache h'.cache
    rintro c c' c'' (rfl | ⟨o, hc, hs, rfl⟩) (rfl | ⟨o', hc', hs', rfl⟩)
    · exact Or.inl rfl
    · refine Or.inr ⟨o', hc', ?_, rfl⟩
      by_cases hS : o' ∈ S
      · exact Or.inr hS
      · exact Or.inl ((h.soft o' hS).symm.trans (hs'.resolve_right hS))
    · exact Or.inr ⟨o, hc, hs, rfl⟩
    · simp at hc'
  cacheLastUse := h'.cacheLastUse.trans h.cacheLastUse
  dirtyDirs := h'.dirtyDirs.trans h.dirtyDirs

theorem GcFrame.mono {S' : List ℕ} {X' : List (ℕ × ℕ)} (h : GcFrame S X d d') (hS : ∀ o ∈ S, o ∈ S')
    (hX : ∀ x ∈ X, x ∈ X') : GcFrame S' X' d d' where
  toObjFrame := h.toObjFrame.mono hS hX
  cache := h.cache.imp fun _ _ hc => hc.imp id fun ⟨o, hc, hs, h⟩ => ⟨o, hc, hs.imp id (hS o), h⟩
  cacheLastUse := h.cacheLastUse
  dirtyDirs := h.dirtyDirs

/-- An object that has been soft deleted may change anyway. -/
theorem GcFrame.of_soft {o : ℕ} (h : GcFrame [o] X d d') (hX : ∀ x ∈ X, x.1 = o)
    (hs : (d.obj o).softDel = true) (hsoft : (d'.obj o).softDel = true) (hid : o ∈ d'.ids → o ∈ d.ids) :
    GcFrame [] [] d d' where
  soft o' _ := by
    by_cases hoo : o' = o
    · rw [hoo, hs, hsoft]
    · exact h.soft o' (by simpa using hoo)
  ids o' _ := by
    by_cases hoo : o' = o
    · exact hoo ▸ hid
    · exact h.ids o' (by simpa using hoo)
  same o' _ hs' := by
    have hoo : o' ≠ o := by
      rintro rfl
      rw [hs] at hs'
      exact Bool.noConfusion hs'
    have hsame := h.same o' (by simpa using hoo) hs'
    exact ⟨hsame.attrs, hsame.file, hsame.ids, fun k x _ => hsame.content k x fun hk => hoo (hX _ hk)⟩
  children dir := by
    have hfilter : ∀ x : Dev, (x.obj o).softDel = true → liveChildren [] x dir = liveChildren [o] x dir := by
      intro x hx
      unfold liveChildren
      refine List.filter_congr fun o' _ => ?_
      by_cases hoo : o' = o
      · simp [hoo, hx]
      · simp [hoo]
    rw [hfilter d hs, hfilter d' hsoft, h.children]
  cache := h.cache.imp fun _ _ hc => hc.imp id fun ⟨o', hc, hs', h⟩ => by
    refine ⟨o', hc, Or.inl ?_, h⟩
    rcases hs' with hs' | hs'
    · exact hs'
    · rw [List.mem_singleton.mp hs', hs]
  cacheLastUse := h.cacheLastUse
  dirtyDirs := h.dirtyDirs

/-- The files to be cleaned up have been soft deleted and have no data left. -/
def CleanList (d : Dev) : Prop :=
  ∀ o ∈ d.gcCleanupList, o ∈ d.ids ∧ (d.obj o).softDel = true ∧ (d.obj o).nDataChunks ≤ 0

/-- The files to be cleaned up stay soft deleted, and get no data. -/
theorem CleanList.mono (h : CleanList d) (hl : d'.gcCleanupList = d.gcCleanupList)
    (hs : ∀ o ∈ d.ids, (d.obj o).softDel = true →
      o ∈ d'.ids ∧ (d'.obj o).softDel = true ∧ (d'.obj o).nDataChunks ≤ (d.obj o).nDataChunks) :
    CleanList d' := by
  intro o ho
  rw [hl] at ho
  obtain ⟨h1, h2, h3⟩ := h o ho
  obtain ⟨h4, h5, h6⟩ := hs o h1 h2
  exact ⟨h4, h5, h6.trans h3⟩

end Frame

/-- A step of gc, or of the deletion of the objects `S` : it keeps the invariant, and is not
seen by other objects. -/
structure Collected (g : Geometry) (T : ℕ → BlockState → Prop) (S : List ℕ) (X : List (ℕ × ℕ))
    (d d' : Dev) : Prop where
  inv : Inv g T d'
  frame : GcFrame S X d d'
  clean : CleanList d → CleanList d'

section Collected

variable {S : List ℕ} {X : List (ℕ × ℕ)} {d d' d'' : Dev}

theorem Collected.refl (h : Inv g T d) : Collected g T S X d d :=
  ⟨h, GcFrame.refl S X d, fun hc => hc⟩

theorem Collected.trans {T' : ℕ → BlockState → Prop} (h : Collected g T' S X d d')
    (h' : Collected g T S X d' d'') : Collected g T S X d d'' :=
  ⟨h'.inv, h.frame.trans h'.frame, fun hc => h'.clean (h.clean hc)⟩

theorem Collected.mono {R : List ℕ} {Y : List (ℕ × ℕ)} (h : Collected g T S X d d')
    (hS : ∀ o ∈ S, o ∈ R) (hX : ∀ x ∈ X, x ∈ Y) : Collected g T R Y d d' :=
  ⟨h.inv, h.frame.mono hS hX, h.clean⟩

end Collected

/-- A step of the block management that leaves the pages kept for objects. -/
theorem GcFrame.setBlocks {d : Dev} {bd : BlockDev} (hkept : bd.kept = d.kept) :
    GcFrame [] [] d { d with toBlockDev := bd } where
  soft _ _ := rfl
  ids _ _ h := h
  same o _ _ := ⟨rfl, FileVar.SameFile.refl _, Iff.rfl, fun k x _ => by
    change Content bd.kept o k x ↔ _
    rw [hkept]⟩
  children _ := rfl
  cache := cacheKept_refl _ d _
  cacheLastUse := rfl
  dirtyDirs := rfl

/-- A step of the block management that keeps the accounts and the pages kept for objects. -/
theorem Collected.setBlocks {T' : ℕ → BlockState → Prop} {d : Dev} {bd : BlockDev} (h : Inv g T' d)
    (hacc : Accounts g T (softOf d.kept d.obj) bd) (hkept : bd.kept = d.kept) :
    Collected g T [] [] d { d with toBlockDev := bd } := by
  refine ⟨⟨?_, ?_⟩, GcFrame.setBlocks hkept, fun hc => hc⟩
  · change Accounts g T (softOf bd.kept d.obj) bd
    rwa [hkept]
  · change Own g bd.kept d.ids d.obj
    rw [hkept]
    exact h.own

/-- The object `o` changes, but for its attributes, and pages with the chunks `X`. -/
theorem GcFrame.update {X : List (ℕ × ℕ)} {d : Dev} {bd : BlockDev} {o : ℕ} {ob : Obj}
    (hcontent : ∀ o' k x, (o', k) ∉ X → (Content bd.kept o' k x ↔ Content d.kept o' k x))
    (hattrs : ob.attrs = (d.obj o).attrs) (hfile : FileVar.SameFile (d.obj o).file ob.file)
    (hch : ob.children = (d.obj o).children) :
    GcFrame [] X d { d with toBlockDev := bd, obj := Function.update d.obj o ob } := by
  have hsoft : ∀ o', (Function.update d.obj o ob o').softDel = (d.obj o').softDel := by
    intro o'
    by_cases hoo : o' = o
    · subst hoo
      rw [Function.update_self]
      exact Obj.softDel_eq hattrs
    · simp [hoo]
  refine ⟨⟨fun o' _ => hsoft o', fun _ _ ho => ho, fun o' _ _ => ⟨?_, ?_, Iff.rfl, hcontent o'⟩,
    fun dir => ?_⟩, cacheKept_refl _ d _, rfl, rfl⟩
  · by_cases hoo : o' = o
    · subst hoo
      simpa using hattrs
    · simp [hoo]
  · by_cases hoo : o' = o
    · subst hoo
      simpa using hfile
    · simpa [hoo] using FileVar.SameFile.refl _
  · unfold liveChildren
    simp only [hsoft]
    by_cases hoo : dir = o
    · subst hoo
      simp [hch]
    · simp [hoo]

/-- A page is written anew, with the content it had. -/
theorem content_swap {K : Pages} {ids : List ℕ} {obj : ℕ → Obj} {prev c : ℕ} {p q : Page}
    (h : Own g K ids obj) (hc : K c = none) (hp : K prev = some p) (hkey : q.key = p.key)
    (hcore : q.data.core = p.data.core) (o k : ℕ) (x : PageData) :
    Content (replacePage K prev c q) o k x ↔ Content K o k x := by
  by_cases hk : q.key = (o, k)
  · rw [content_replace_self (fun c' q' hq' hkey' => h.unique _ _ _ _ hq' hp (hkey'.trans hkey)) hk,
      hcore]
    constructor
    · exact fun hx => ⟨prev, p, hp, hkey ▸ hk, hx⟩
    · rintro ⟨c', q', hq', hkey', hx⟩
      obtain rfl := h.unique _ _ _ _ hq' hp (hkey'.trans (hk.symm.trans hkey))
      exact Option.some.inj (hp.symm.trans hq') ▸ hx
  · refine content_replace_of_ne hc (fun q' hq' => ?_) hk
    rw [hp] at hq'
    rw [← Option.some.inj hq', hkey]

/-! ## Copying chunks -/

section Copy

variable {d : Dev} {o old : ℕ} {p : Page}

theorem gcHdrPage_core (d : Dev) (o : ℕ) (p : Page) : (gcHdrPage d o p).data.core = p.data.core := by
  cases hp : p.data <;> simp [gcHdrPage, hp, gcObjHdr, PageData.core, ObjHdr.core]

/-- gc copies a header. -/
theorem gcCopyHdr_collected (h : Inv g T d) (hp : d.kept old = some p) (hkey : p.key = (o, 0)) :
    Collected g T [] [] d (gcCopyHdr g e o old p d).1 := by
  obtain ⟨hpo, hpk⟩ := Prod.mk.inj hkey
  have hown := h.own.page old p hp
  rw [hpo] at hown
  obtain ⟨hhdr, oh, hoh⟩ := hown.hdr hpk
  have hid : p.tags.objId ≠ objectIdSummary := (kept_eq_some.mp hp).2.2
  have hspec := writeNewChunk_spec (e := e) h.acc.ready (gcHdrPage d o p).data
    (t := (gcHdrPage d o p).tags) hown.unmarked hid true
  unfold gcCopyHdr
  simp only [Dev.onBlocks]
  generalize writeNewChunk g e (gcHdrPage d o p).data (gcHdrPage d o p).tags true d.toBlockDev = r at *
  obtain ⟨bd, res⟩ := r
  cases res with
  | none => exact ⟨h.wrote hspec, GcFrame.setBlocks hspec.kept, fun hcl => hcl⟩
  | some c =>
    obtain ⟨hc, -, q, hq, hw⟩ := hspec
    have hqkey : q.key = (o, 0) := Prod.ext (hq.objId.trans hpo) (hq.chunkId.trans hpk)
    have hqdata : ∃ oh, q.data = .hdr oh := ⟨gcObjHdr d o oh, by simp [hq.data, gcHdrPage, hoh]⟩
    have hs := h.own.softOf_hdr o
    rw [hhdr] at hs
    obtain ⟨hacc, hkept⟩ := h.acc.swap (e := e) hw hc hp hs true
    have hmem := hw.mem_chunks (c := c) (p := q) (by simp)
    refine ⟨h.swapHdr ⟨hqkey, ?_, hown.notFreed, hq.unmarked⟩ hqdata hc hmem hacc ?_, ?_, fun hcl => ?_⟩
    · exact hpo ▸ hown.id
    · rw [hhdr]
      exact hkept
    · refine GcFrame.update (fun o' k x _ => ?_) rfl (FileVar.SameFile.refl _) rfl
      have hcontent := content_swap h.own hc hp (hqkey.trans hkey.symm) (by rw [hq.data, gcHdrPage_core]) o' k x
      rw [← hkept] at hcontent
      exact hcontent
    · refine hcl.mono rfl fun o' ho' hs' => ⟨ho', ?_⟩
      by_cases hoo : o' = o
      · subst hoo
        simpa [Dev.modObj, Dev.mapBlocks] using hs'
      · simpa [Dev.modObj, Dev.mapBlocks, hoo] using hs'

/-- With a tnode for the chunk, `yaffs_put_chunk_in_file` enters it. -/
theorem putChunkInFile_has {d : Dev} {o k c : ℕ} (hfile : (d.obj o).variantType = .file)
    (hhas : (d.obj o).file.Has k) (hc : c ≠ 0) : putChunkInFile g e o k c d =
      (d.modObj o fun ob =>
        { ob with
          file := ob.file.load k (groupOf g c)
          nDataChunks := ob.nDataChunks + if ob.file.entry k = 0 then 1 else 0 }, true) := by
  have hself : (d.modFile o fun _ => (d.obj o).file) = d := by
    simp [Dev.modFile, Dev.modObj]
  unfold putChunkInFile
  rw [if_neg (by simp [hfile]), FileVar.addFind_of_has hhas]
  simp only [if_true, if_neg hc, hself, groupBase_eq_zero]
  split_ifs with he <;> simp [Dev.modFile, Dev.modObj, he]

/-- gc copies a data chunk. -/
theorem gcCopyData_collected {d : Dev} {o old : ℕ} {p : Page} (h : Inv g T d)
    (hp : d.kept old = some p) (hpo : p.tags.objId = o) (hk : p.tags.chunkId ≠ 0)
    (hsoft : (d.obj o).softDel = false) : Collected g T [] [] d (gcCopyData g e o old p d).1 := by
  have hown := h.own.page old p hp
  rw [hpo] at hown
  obtain ⟨hfile, ⟨bs, hbs, hlen⟩, hentry⟩ := hown.data hk
  have hentry := hentry hsoft
  have hid : p.tags.objId ≠ objectIdSummary := (kept_eq_some.mp hp).2.2
  have hne : (d.obj o).file.entry p.tags.chunkId ≠ 0 := by
    rw [hentry]
    exact groupOf_ne_zero hown.mem
  have hhas := FileVar.has_of_entry hne
  have hspec := writeNewChunk_spec (e := e) h.acc.ready p.data (t := p.tags) hown.unmarked hid true
  unfold gcCopyData
  simp only [Dev.onBlocks]
  generalize writeNewChunk g e p.data p.tags true d.toBlockDev = r at *
  obtain ⟨bd, res⟩ := r
  cases res with
  | none => exact ⟨h.wrote hspec, GcFrame.setBlocks hspec.kept, fun hcl => hcl⟩
  | some c =>
    obtain ⟨hc, -, q, hq, hw⟩ := hspec
    have hkey : p.key = (o, p.tags.chunkId) := by rw [← hpo, Page.key]
    have hqkey : q.key = (o, p.tags.chunkId) := Prod.ext (hq.objId.trans hpo) hq.chunkId
    have hmem := hw.mem_chunks (c := c) (p := q) (by simp)
    have hc0 : c ≠ 0 := fun h0 => zero_not_mem_chunks (h0 ▸ hmem)
    have hs : softOf d.kept d.obj old = false := by simp [softOf, hp, hpo, hsoft]
    obtain ⟨hacc, hkept⟩ := h.acc.swap (e := e) hw hc hp hs true
    simp only [putChunkInFile_has (d := { d with toBlockDev := bd }) (g := g) (e := e) hfile hhas hc0]
    refine ⟨h.swapData ⟨hqkey, hpo ▸ hown.id, hown.notFreed, hq.unmarked⟩ hk
      ⟨bs, hq.data.trans hbs, hlen⟩ hfile hsoft hc hmem ?_ ?_ (FileVar.entry_load hhas · _) ?_ ?_ hacc hkept,
      ?_, fun hcl => ?_⟩
    · exact fun c' q' hq' hkey' => h.own.unique _ _ _ _ hq' hp (hkey'.trans hkey.symm)
    · exact fun q' hq' => Option.some.inj (hp.symm.trans hq') ▸ hkey
    · exact h.own.level o
    · simp [hp, hne]
    · refine GcFrame.update (fun o' k x _ => ?_) (by simp [Obj.attrs]) ⟨rfl, rfl, rfl⟩ rfl
      have hcontent := content_swap h.own hc hp (hqkey.trans hkey.symm) (by rw [hq.data]) o' k x
      rw [← hkept] at hcontent
      exact hcontent
    · refine hcl.mono rfl fun o' ho' hs' => ⟨ho', ?_⟩
      have hoo : o' ≠ o := by
        rintro rfl
        simp [hsoft] at hs'
      simpa [Dev.modObj, Dev.mapBlocks, hoo] using hs'

end Copy

/-! ## Dropping chunks -/

section Drop

variable {d : Dev} {o old : ℕ} {p : Page}

theorem softOf_drop (K : Pages) (obj : ℕ → Obj) (c : ℕ) :
    softOf (Function.update K c none) obj = Function.update (softOf K obj) c false := by
  funext c'
  by_cases hcc : c' = c
  · subst hcc
    simp [softOf]
  · simp [softOf, hcc]

/-- A chunk that was counted as soft deleted is no longer. -/
theorem Accounts.unsoft {soft : ℕ → Bool} {d : BlockDev} {c : ℕ} (h : Accounts g T soft d)
    (hs : soft c = true) : Accounts g T (Function.update soft c false)
      { d.modBlock (c / g.chunksPerBlock) (fun bi => { bi with softDelPages := bi.softDelPages - 1 }) with
        nFreeChunks := d.nFreeChunks - 1 } := by
  have hbit := h.free.soft_bit c hs
  have hmem := h.blk.bit_mem c hbit
  have hserv := h.blk.bit_state c hbit
  set b := c / g.chunksPerBlock with hb
  have hblk := h.blk.flags (b := b) (f := fun bi => { bi with softDelPages := bi.softDelPages - 1 })
    (fun _ => rfl) (fun _ => rfl) (fun _ => rfl) (fun _ => rfl)
  refine ⟨{ hblk with }, ⟨h.opn.page_lt, h.opn.clear, fun b' hb' => ?_⟩, ⟨fun c' hc' => ?_, ?_, ?_⟩, ?_,
    h.programmed⟩
  · have := h.opn.noSummary b' hb'
    simp only [BlockDev.modBlock, Function.update_apply]
    split_ifs with hbb
    · exact hbb ▸ this
    · exact this
  · by_cases hcc : c' = c
    · simp [hcc] at hc'
    · exact h.free.soft_bit c' (by simpa [hcc] using hc')
  · intro b' hb'
    have := h.free.soft_pages b' hb'
    rw [countChunkBits_clear hs, ← hb, ← this]
    simp only [BlockDev.modBlock, Function.update_apply]
    by_cases hbb : b' = b
    · simp [hbb]
    · simp [hbb, Ne.symm hbb]
  · have := h.free.free
    change d.nFreeChunks - 1 = countFreeChunks g (Function.update d.blockInfo b _) + 0
    rw [this]
    have hup := countFreeChunks_update (t := d.blockInfo) hmem
      { d.blockInfo b with softDelPages := (d.blockInfo b).softDelPages - 1 }
    have hw : freeWeight g { d.blockInfo b with softDelPages := (d.blockInfo b).softDelPages - 1 } =
        freeWeight g (d.blockInfo b) - 1 := by
      cases hst : (d.blockInfo b).blockState <;> simp [hst, BlockState.inService] at hserv <;>
        simp [freeWeight, hst] <;> omega
    linarith
  · refine h.checkptInv.of_state rfl fun b' _ => ?_
    simp only [BlockDev.modBlock, Function.update_apply]
    split_ifs with hbb
    · rw [hbb]
    · rfl

/-- gc drops a chunk of a file that has been soft deleted. -/
theorem gcDropChunk_collected (h : Inv g T d) (hp : d.kept old = some p) (hpo : p.tags.objId = o)
    (hk : p.tags.chunkId ≠ 0) (hsoft : (d.obj o).softDel = true) :
    Collected g T [] [] d (gcDropChunk g e o old d) := by
  have hown := h.own.page old p hp
  rw [hpo] at hown
  have hkey : p.key = (o, p.tags.chunkId) := by rw [← hpo, Page.key]
  have hs : softOf d.kept d.obj old = true := by simp [softOf, hp, hpo, hk, hsoft]
  have hacc := h.acc.unsoft hs
  set bd : BlockDev :=
    { d.modBlock (old / g.chunksPerBlock) (fun bi => { bi with softDelPages := bi.softDelPages - 1 }) with
      nFreeChunks := d.nFreeChunks - 1 } with hbd
  have hbdkept : bd.kept = d.kept := rfl
  have hbit : bd.chunkBits old = true := Accounts.bit_of_kept hp
  have hdel := chunkDel_spec (e := e) hacc.blk hbit false
  have hacc' := hacc.delete (e := e) hbit (by simp) false
  have hkept : (chunkDel g e old false bd).kept = Function.update d.kept old none := by
    rw [hdel.kept, hbdkept]
  set ob : Obj := { d.obj o with nDataChunks := (d.obj o).nDataChunks - 1 } with hob
  set list := if ob.nDataChunks ≤ 0 then d.gcCleanupList ++ [o] else d.gcCleanupList with hlist
  have heq : gcDropChunk g e o old d = { d with
      toBlockDev := chunkDel g e old false bd
      obj := Function.update d.obj o ob
      gcCleanupList := list } := by
    unfold gcDropChunk
    simp only [Dev.mapBlocks, Dev.modObj, Function.update_self, ← hob, hlist, hbd]
    split_ifs <;> rfl
  rw [heq]
  have hsame : ∀ o', (Function.update d.obj o ob o').softDel = (d.obj o').softDel := by
    intro o'
    by_cases hoo : o' = o
    · subst hoo
      simp [hob]
    · simp [hoo]
  refine ⟨⟨?_, ?_⟩, ⟨⟨fun o' _ => hsame o', fun _ _ ho => ho, fun o' _ ho' => ?_, fun dir => ?_⟩,
    cacheKept_refl _ d _, rfl, rfl⟩,
    fun hcl => ?_⟩
  · change Accounts g T (softOf (chunkDel g e old false bd).kept (Function.update d.obj o ob)) _
    rw [softOf_congr hsame, hkept, softOf_drop]
    exact hacc'
  · change Own g (chunkDel g e old false bd).kept d.ids (Function.update d.obj o ob)
    rw [hkept]
    refine h.own.dropData (f := (d.obj o).file) hp hkey hk (fun k' => ?_) (h.own.level o)
    rw [(h.own.soft o hsoft).2 k', ite_self]
  · have hoo : o' ≠ o := by
      rintro rfl
      simp [hsoft] at ho'
    refine ⟨by simp [hoo], by simpa [hoo] using FileVar.SameFile.refl _, Iff.rfl, fun k x _ => ?_⟩
    change Content (chunkDel g e old false bd).kept o' k x ↔ _
    rw [hkept]
    refine content_drop_of_ne hp ?_
    rw [hkey]
    exact fun hoo' => hoo (Prod.mk.inj hoo').1.symm
  · unfold liveChildren
    simp only [hsame]
    by_cases hoo : dir = o
    · subst hoo
      simp [hob]
    · simp [hoo]
  · have hle : ∀ o', (Function.update d.obj o ob o').nDataChunks ≤ (d.obj o').nDataChunks := by
      intro o'
      by_cases hoo : o' = o
      · subst hoo
        simp [hob]
      · simp [hoo]
    have hold : ∀ o' ∈ d.gcCleanupList, o' ∈ d.ids ∧
        (Function.update d.obj o ob o').softDel = true ∧ (Function.update d.obj o ob o').nDataChunks ≤ 0 := by
      intro o' ho'
      obtain ⟨h1, h2, h3⟩ := hcl o' ho'
      exact ⟨h1, (hsame o').trans h2, (hle o').trans h3⟩
    intro o' ho'
    change o' ∈ list at ho'
    rw [hlist] at ho'
    split_ifs at ho' with hn
    · have hself : (Function.update d.obj o ob o).nDataChunks ≤ 0 := by
        rw [Function.update_self]
        exact hn
      rcases List.mem_append.mp ho' with ho' | ho'
      · exact hold o' ho'
      · rw [List.mem_singleton.mp ho']
        exact ⟨hpo ▸ hown.id, (hsame o).trans hsoft, hself⟩
    · exact hold o' ho'

end Drop

/-! ## One chunk -/

/-- A page in use that no object owns is a page of a block summary. -/
theorem gcProcessChunk_collected {d : Dev} {old : ℕ} (h : Inv g T d) (hc : d.chunkBits old = true) :
    Collected g T [] [] d (gcProcessChunk g e old d).1 := by
  obtain ⟨p, hp⟩ := Option.ne_none_iff_exists'.mp (h.acc.programmed old hc)
  unfold gcProcessChunk
  simp only [hp, Option.getD_some]
  by_cases hsum : p.tags.objId = objectIdSummary
  · have hnone : findByNumber d p.tags.objId = none := by
      unfold findByNumber
      rw [if_neg fun hid => h.own.ids_ne _ hid.1 hsum]
    have hkept : d.kept old = none := by
      cases hk : d.kept old with
      | none => rfl
      | some q =>
        obtain ⟨-, hq, hne⟩ := kept_eq_some.mp hk
        rw [hp] at hq
        exact absurd (Option.some.inj hq ▸ hsum) hne
    have hdel := chunkDel_spec (e := e) h.acc.blk hc true
    have hkept' : (chunkDel g e old true d.toBlockDev).kept = d.kept := by
      rw [hdel.kept, ← hkept, Function.update_eq_self]
    simp only [hnone]
    exact ⟨h.setBlocks (h.acc.delete hc (Own.softOf_none hkept) true) hkept', GcFrame.setBlocks hkept',
      fun hcl => hcl⟩
  · have hk : d.kept old = some p := kept_eq_some.mpr ⟨hc, hp, hsum⟩
    have hown := h.own.page old p hk
    have hfind : findByNumber d p.tags.objId = some p.tags.objId := by
      unfold findByNumber
      rw [if_pos ⟨hown.id, hown.notFreed⟩]
    simp only [hfind]
    split_ifs with hdrop hhdr
    · exact gcDropChunk_collected h hk rfl hdrop.2.2 hdrop.2.1
    · exact gcCopyHdr_collected h hk (Prod.ext rfl hhdr)
    · refine gcCopyData_collected h hk rfl hhdr ?_
      cases hs : (d.obj p.tags.objId).softDel with
      | false => rfl
      | true => exact absurd ⟨(h.own.soft _ hs).1, hs, hhdr⟩ hdrop

/-! ## A block -/

namespace Accounts

variable {soft : ℕ → Bool} {T' : ℕ → BlockState → Prop} {d d' : BlockDev} {b c : ℕ}

/-- The block info of `b` changes, but neither its pages nor its free chunks. -/
theorem modBlock (h : Accounts g T soft d) {f : BlockInfo → BlockInfo}
    (hblk : BlkInv g T' (d.modBlock b f)) (hb : b ∈ g.blocks)
    (hsoft : (f (d.blockInfo b)).softDelPages = (d.blockInfo b).softDelPages)
    (hw : freeWeight g (f (d.blockInfo b)) = freeWeight g (d.blockInfo b))
    (hsum : (f (d.blockInfo b)).hasSummary = (d.blockInfo b).hasSummary)
    (hck : (f (d.blockInfo b)).blockState = .checkpoint ↔ (d.blockInfo b).blockState = .checkpoint) :
    Accounts g T' soft (d.modBlock b f) where
  blk := hblk
  opn := ⟨h.opn.page_lt, h.opn.clear, fun b' hb' => by
    have := h.opn.noSummary b' hb'
    by_cases hbb : b' = b
    · rw [hbb] at this
      simp [BlockDev.modBlock, hbb, hsum, this]
    · simpa [BlockDev.modBlock, hbb] using this⟩
  free := (h.free.modBlock hb hsoft).cast (by rw [hw]; omega)
  checkptInv := h.checkptInv.of_state rfl fun b' _ => by
    by_cases hbb : b' = b
    · subst hbb
      simpa [BlockDev.modBlock] using hck
    · simp [BlockDev.modBlock, hbb]
  programmed := h.programmed

theorem release (h : Accounts g T soft d) (hc : d.chunkBits c = true) (hs : soft c = false) :
    Accounts g T soft (Yaffs.releaseChunk (c / g.chunksPerBlock) c d) where
  blk := h.blk.releaseChunk rfl hc
  opn := by
    refine ⟨h.opn.page_lt, fun b' hb' c' hc' hp => ?_, fun b' hb' => ?_⟩
    · have := h.opn.clear b' hb' c' hc' hp
      by_cases hcc : c' = c <;>
        simp [Yaffs.releaseChunk, BlockDev.clearChunkBit, BlockDev.modBlock, hcc, this]
    · have := h.opn.noSummary b' hb'
      by_cases hbb : b' = c / g.chunksPerBlock
      · rw [hbb] at this
        simp [Yaffs.releaseChunk, BlockDev.clearChunkBit, BlockDev.modBlock, hbb, this]
      · simpa [Yaffs.releaseChunk, BlockDev.clearChunkBit, BlockDev.modBlock, hbb] using this
  free := releaseChunk_free h.blk h.free hc hs
  checkptInv := releaseChunk_checkpt h.blk h.checkptInv hc
  programmed := by
    intro c' hc'
    by_cases hcc : c' = c
    · simp [Yaffs.releaseChunk, BlockDev.clearChunkBit, BlockDev.modBlock, hcc] at hc'
    · exact h.programmed c' (by
        simpa [Yaffs.releaseChunk, BlockDev.clearChunkBit, BlockDev.modBlock, hcc] using hc')

/-- A block without chunks in use has been erased. -/
theorem erased (h : Accounts g T soft d) (hb : b ∈ g.blocks)
    (hs : (d.blockInfo b).blockState.collectable = true) (hno : NoBits g b d.chunkBits) :
    Accounts g T soft (blockBecameDirty g e b d) ∧ (blockBecameDirty g e b d).kept = d.kept ∧
      ((blockBecameDirty g e b d).blockInfo b).blockState ≠ .collecting := by
  have hspec := blockBecameDirty_spec (e := e) h.blk hb hs hno
  have hlive : (blockBecameDirty g e b d).live = d.live := by
    refine hspec.quiet.live fun c hc => ?_
    rcases hc with hc | hc
    · exact h.blk.noBits (by rw [show (d.blockInfo _).blockState = .checkpoint from hc]; rfl) c rfl
    · exact hno c hc
  refine ⟨⟨hspec.blk, ?_, hspec.free _ _ h.free, (hspec.noCheckpt h.checkptInv).checkptInv, ?_⟩, ?_, ?_⟩
  · refine ⟨fun b' hb' => ?_, fun b' hb' c' hc' hp => ?_, fun b' hb' => ?_⟩ <;>
      rw [hspec.quiet.alloc] at hb'
    · rw [hspec.quiet.alloc]
      exact h.opn.page_lt b' hb'
    · rw [hspec.quiet.bits]
      exact h.opn.clear b' hb' c' hc' (hspec.quiet.alloc ▸ hp)
    · obtain ⟨-, hst, -⟩ := h.blk.alloc_block b' hb'
      rw [hspec.quiet.info b' (by
        rintro (hck | rfl)
        · exact absurd (hst.symm.trans hck) (by decide)
        · rw [hst] at hs
          exact absurd hs (by decide))]
      exact h.opn.noSummary b' hb'
  · intro c hc hnone
    have hcd : d.chunkBits c = true := hspec.quiet.bits ▸ hc
    have := congrFun hlive c
    simp only [BlockDev.live, hc, hcd, if_true] at this
    exact h.programmed c hcd (this ▸ hnone)
  · unfold BlockDev.kept
    rw [hlive]
  · rcases hspec.state with hst | hst <;> rw [hst] <;> decide

end Accounts

theorem releaseChunk_kept {d : BlockDev} {b c : ℕ} (hc : d.kept c = none) :
    (releaseChunk b c d).kept = d.kept := by
  funext c'
  unfold BlockDev.kept
  rw [releaseChunk_live]
  by_cases hcc : c' = c
  · subst hcc
    simpa [BlockDev.kept] using hc.symm
  · simp [hcc]

/-- The summary pages of a block that has a summary are released. -/
theorem summaryGc_spec {soft : ℕ → Bool} {d : BlockDev} {b : ℕ} (h : Accounts g T soft d)
    (hsoft : ∀ c, d.kept c = none → soft c = false) :
    Accounts g T soft (summaryGc g b d) ∧ (summaryGc g b d).kept = d.kept ∧
      (∀ b', ((summaryGc g b d).blockInfo b').blockState = (d.blockInfo b').blockState) ∧
      (summaryGc g b d).gc = d.gc := by
  unfold summaryGc
  split_ifs with hsum
  · have hfold : ∀ (l : List ℕ), (∀ i ∈ l, g.chunksPerSummary ≤ i ∧ i < g.chunksPerBlock) →
        ∀ x : BlockDev, Accounts g T soft x → (x.blockInfo b).hasSummary = true → x.kept = d.kept →
        (∀ b', (x.blockInfo b').blockState = (d.blockInfo b').blockState) → x.gc = d.gc →
        let y := l.foldl (fun d page =>
          if d.chunkBits (b * g.chunksPerBlock + page) then
            releaseChunk b (b * g.chunksPerBlock + page) d else d) x
        Accounts g T soft y ∧ y.kept = d.kept ∧
          (∀ b', (y.blockInfo b').blockState = (d.blockInfo b').blockState) ∧ y.gc = d.gc := by
      intro l
      induction l with
      | nil => exact fun _ x hx _ hk hst hgc => ⟨hx, hk, hst, hgc⟩
      | cons i l ih =>
        intro hl x hx hxsum hk hst hgc
        obtain ⟨hi, hi'⟩ := hl i (by simp)
        rw [List.foldl_cons]
        split_ifs with hbit
        · have hdiv := chunk_div (g := g) (b := b) hi'
          have hmod := chunk_mod (g := g) (b := b) hi'
          obtain ⟨p, hp, hid⟩ := hx.blk.summary _ hbit (by rwa [hdiv]) (by rwa [hmod])
          have hnone : x.kept (b * g.chunksPerBlock + i) = none := by
            cases hq : x.kept (b * g.chunksPerBlock + i) with
            | none => rfl
            | some q =>
              obtain ⟨-, hq, hne⟩ := kept_eq_some.mp hq
              rw [hp] at hq
              exact absurd (Option.some.inj hq ▸ hid) hne
          have hrel := hx.release hbit (hsoft _ (hk ▸ hnone))
          rw [hdiv] at hrel
          refine ih (fun j hj => hl j (by simp [hj])) _ hrel ?_ ?_ ?_ hgc
          · simpa [releaseChunk, BlockDev.clearChunkBit, BlockDev.modBlock] using hxsum
          · rw [releaseChunk_kept hnone, hk]
          · intro b'
            rw [← hst b']
            by_cases hbb : b' = b <;>
              simp [releaseChunk, BlockDev.clearChunkBit, BlockDev.modBlock, hbb]
        · exact ih (fun j hj => hl j (by simp [hj])) _ hx hxsum hk hst hgc
    refine hfold _ (fun i hi => ?_) d h hsum rfl (fun _ => rfl) rfl
    have := List.mem_range'_1.mp hi
    omega
  · exact ⟨h, rfl, fun _ => rfl, rfl⟩

/-- The transit states while `b` is collected. -/
def orCollecting (T : ℕ → BlockState → Prop) (b b' : ℕ) (s : BlockState) : Prop :=
  T b' s ∨ b' = b ∧ s = .collecting

/-- gc starts on a full block. -/
theorem gcBlockStart_collected {d : Dev} {b : ℕ} (h : Inv g T d) (hb : b ∈ g.blocks)
    (hs : (d.blockInfo b).blockState = .full) :
    Collected g (orCollecting T b) [] [] d (d.mapBlocks (gcBlockStart g b)) ∧
      ((d.mapBlocks (gcBlockStart g b)).blockInfo b).blockState = .collecting := by
  have hmono : BlkInv g (orCollecting T b) d.toBlockDev := h.acc.blk.mono fun _ _ ht => Or.inl ht
  have hacc : Accounts g (orCollecting T b) (softOf d.kept d.obj) (d.toBlockDev.setState b .collecting) :=
    h.acc.modBlock (hmono.setCollecting hb hs (Or.inr ⟨rfl, rfl⟩)) hb rfl (by simp [freeWeight, hs]) rfl
      (by simp [hs])
  have hacc := hacc.modBlock (f := fun bi => { bi with hasShrinkHdr := false })
    (hacc.blk.flags (b := b) (fun _ => rfl) (fun _ => rfl) (fun _ => rfl) (fun _ => rfl)) hb rfl rfl rfl Iff.rfl
  have hacc := hacc.setGc { d.gc with disable := true }
    fun b' hb' hc => hacc.blk.cands b' hb' (hc.imp id Or.inl)
  obtain ⟨hacc, hkept, hst, -⟩ := summaryGc_spec (b := b) hacc fun c hc => Own.softOf_none hc
  have heq : gcBlockStart g b d.toBlockDev = summaryGc g b
      { (d.toBlockDev.setState b .collecting).modBlock b fun bi => { bi with hasShrinkHdr := false } with
        gc := { d.gc with disable := true } } := by
    unfold gcBlockStart
    simp only [hs, if_true]
    rfl
  have hstate : ((gcBlockStart g b d.toBlockDev).blockInfo b).blockState = .collecting := by
    rw [heq, hst]
    simp [BlockDev.setState, BlockDev.modBlock]
  rw [← heq] at hacc hkept
  exact ⟨Collected.setBlocks h hacc hkept, hstate⟩

/-- The loop of gc over the chunks of a block. -/
theorem gcBlockLoop_collected {b : ℕ} (n : ℕ) : ∀ (maxCopies : ℕ) (d : Dev), Inv g T d →
    Collected g T [] [] d (gcBlockLoop g e b n maxCopies d).1 := by
  have hnext : ∀ d : Dev, Inv g T d →
      Collected g T [] [] d (d.mapBlocks fun b => { b with gc := { b.gc with chunk := b.gc.chunk + 1 } }) :=
    fun d h => Collected.setBlocks h
      (h.acc.setGc _ fun b' hb' hc => h.acc.blk.cands b' hb' (hc.imp id Or.inl)) rfl
  induction n with
  | zero => exact fun _ d h => Collected.refl h
  | succ n ih =>
    intro maxCopies d h
    rw [gcBlockLoop]
    split_ifs with hgo
    · by_cases hbit : d.chunkBits (b * g.chunksPerBlock + d.gc.chunk) = true
      · have hone := gcProcessChunk_collected (e := e) h hbit
        have hcol := hone.trans (hnext _ hone.inv)
        simp only [hbit, if_true]
        split_ifs with hok
        · exact hcol.trans (ih _ _ hcol.inv)
        · exact hcol
      · have hcol := hnext d h
        simp only [if_neg hbit]
        exact hcol.trans (ih _ _ hcol.inv)
    · exact Collected.refl h

end Yaffs
