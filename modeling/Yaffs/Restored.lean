import Yaffs.RestoringObjs

/-!
# A device saved and restored

`yaffs2_wr_checkpt_data` on one device and `yaffs2_rd_checkpt_data` on the next that finds its flash : the
second has the objects, the block table, the chunks in use and the counters the first had when it was closed.
-/

namespace Yaffs

open LittleEndian
open scoped Tnode

variable {g : Geometry} {e : Env} {d d' : Dev} {o q p c x : ℕ}

/-! ## Hard links -/

/-- Every link is put into the ring of the object it is a link to. -/
theorem foldl_linkFixupStep (l : List ℕ) (d : Dev) : (l.foldl linkFixupStep d).ids = d.ids ∧
    (l.foldl linkFixupStep d).toBlockDev = d.toBlockDev ∧ (l.foldl linkFixupStep d).nDeletedFiles =
    d.nDeletedFiles ∧
    ∀ x, (l.foldl linkFixupStep d).obj x = { d.obj x with
      equivObj := if x ∈ l then findNumber d (d.obj x).equivId else (d.obj x).equivObj
      hardLinks := (l.filter fun h => findNumber d (d.obj h).equivId = some x).reverse ++ (d.obj x).hardLinks } := by
  induction l generalizing d with
  | nil => exact ⟨rfl, rfl, rfl, fun x => by simp⟩
  | cons h l ih =>
    have hstep : (linkFixupStep d h).ids = d.ids ∧ (linkFixupStep d h).toBlockDev = d.toBlockDev ∧
        (linkFixupStep d h).nDeletedFiles = d.nDeletedFiles ∧ ∀ x, (linkFixupStep d h).obj x = { d.obj x with
          equivObj := if x = h then findNumber d (d.obj h).equivId else (d.obj x).equivObj
          hardLinks := if findNumber d (d.obj h).equivId = some x then h :: (d.obj x).hardLinks
            else (d.obj x).hardLinks } := by
      unfold linkFixupStep
      cases hf : findNumber d (d.obj h).equivId with
      | none =>
        refine ⟨rfl, rfl, rfl, fun x => ?_⟩
        by_cases hx : x = h
        · subst hx
          simp [Dev.modObj]
        · simp [Dev.modObj, hx]
      | some q =>
        refine ⟨rfl, rfl, rfl, fun x => ?_⟩
        by_cases hx : x = h <;> by_cases hq : x = q
        · subst hx
          subst hq
          simp [Dev.modObj]
        · subst hx
          simp [Dev.modObj, hq, Ne.symm hq]
        · subst hq
          simp [Dev.modObj, hx]
        · simp [Dev.modObj, hx, hq, Ne.symm hq]
    obtain ⟨hids, hblk, hdel, hobj⟩ := hstep
    have hfind : ∀ n, findNumber (linkFixupStep d h) n = findNumber d n := fun n => by
      unfold findNumber findByNumber
      rw [hids, hobj]
    have hequiv : ∀ x, ((linkFixupStep d h).obj x).equivId = (d.obj x).equivId := fun x => by rw [hobj]
    obtain ⟨h1, h2, h3, h4⟩ := ih (linkFixupStep d h)
    refine ⟨h1.trans hids, h2.trans hblk, h3.trans hdel, fun x => ?_⟩
    rw [List.foldl_cons, h4]
    simp only [hfind, hequiv]
    rw [hobj, List.filter_cons]
    by_cases hx : x = h
    · subst hx
      by_cases hq : findNumber d (d.obj x).equivId = some x <;> simp [hq]
    · by_cases hq : findNumber d (d.obj h).equivId = some x <;> simp [hq, hx]

/-- Directories and their children, links and what they are links to, agree among the objects that are stored. -/
structure LinkedObjs (d : Dev) : Prop where
  child : ∀ p ∈ savedIds d, ∀ c, c ∈ (d.obj p).children ↔ c ∈ savedIds d ∧ (d.obj c).parent = some p
  childNodup : ∀ p ∈ savedIds d, (d.obj p).children.Nodup
  link : ∀ l ∈ savedIds d, (d.obj l).variantType = .hardlink →
    (d.obj l).equivObj = some (d.obj l).equivId ∧ (d.obj l).equivId ∈ savedIds d
  ring : ∀ q ∈ savedIds d, ∀ l, l ∈ (d.obj q).hardLinks ↔
    l ∈ savedIds d ∧ (d.obj l).variantType = .hardlink ∧ (d.obj l).equivObj = some q
  ringNodup : ∀ q ∈ savedIds d, (d.obj q).hardLinks.Nodup

/-- The object `q` is what a checkpoint keeps of `ob`. -/
structure SameSaved (ob q : Obj) : Prop extends RecordRead ob q where
  tree : TreeRead ob q
  children : q.children.Perm ob.children
  equivObj : ob.variantType = .hardlink → q.equivObj = ob.equivObj
  hardLinks : q.hardLinks.Perm ob.hardLinks

theorem savedIds_nodup (h : d.ids.Nodup) : (savedIds d).Nodup :=
  (bucketOrder_nodup h).filter _

/-- With the rings of links mended, all objects are what they were. -/
theorem Reading.fixed {s₀ s : ScanDev} (hd : StorableObjs g d) (hlinks : LinkedObjs d)
    (h : Reading g d (savedIds d) s₀ s) : (linkFixup s).ids.Perm (savedIds d) ∧
    (∀ o ∈ savedIds d, SameSaved (d.obj o) ((linkFixup s).obj o)) ∧
    SameBooks s₀.toBlockDev (linkFixup s).toBlockDev ∧ (linkFixup s).nDeletedFiles = s₀.nDeletedFiles ∧
    (linkFixup s).toBlockDev = s.toBlockDev := by
  obtain ⟨hids, hblk, hdel, hobj⟩ := foldl_linkFixupStep s.hardList s.toDev
  have hmem : ∀ x, x ∈ s.ids ↔ x ∈ savedIds d := fun x => ⟨h.partly.known x, h.mem x⟩
  have hread : ∀ x ∈ savedIds d, RecordRead (d.obj x) (s.obj x) ∧ TreeRead (d.obj x) (s.obj x) := fun x hx =>
    (h.partly.what x (h.mem x hx)).1 hx
  have hlist : ∀ l, l ∈ s.hardList ↔ l ∈ savedIds d ∧ (d.obj l).variantType = .hardlink := fun l => by
    rw [h.hardList]
    simp
  have hfind : ∀ l ∈ savedIds d, (d.obj l).variantType = .hardlink →
      findNumber s.toDev (s.obj l).equivId = (d.obj l).equivObj := fun l hl ht => by
    obtain ⟨heq, hin⟩ := hlinks.link l hl ht
    rw [(hread l hl).1.equivId ht, heq]
    have hpos := (hd.range _ hin).1
    unfold findNumber findByNumber
    rw [if_neg (by omega), if_pos ⟨(hmem _).mpr hin, (h.partly.plain _).1⟩]
  refine ⟨?_, fun o ho => ?_, ?_, hdel.trans h.deletedFiles, hblk⟩
  · refine (List.perm_ext_iff_of_nodup ?_ (savedIds_nodup hd.nodup)).mpr fun x => ?_
    · change (s.hardList.foldl linkFixupStep s.toDev).ids.Nodup
      rw [hids]
      exact h.partly.nodup
    · change x ∈ (s.hardList.foldl linkFixupStep s.toDev).ids ↔ _
      rw [hids]
      exact hmem x
  · obtain ⟨hrec, htree⟩ := hread o ho
    change SameSaved (d.obj o) ((s.hardList.foldl linkFixupStep s.toDev).obj o)
    rw [hobj]
    refine ⟨⟨hrec.1, hrec.2, hrec.3, hrec.4, hrec.5, hrec.6, hrec.7, hrec.8, hrec.9, hrec.10, hrec.11, hrec.12⟩,
      htree,
      ?_, fun ht => ?_, ?_⟩
    · refine (List.perm_ext_iff_of_nodup (h.partly.homes.nodup o) (hlinks.childNodup o ho)).mpr fun c => ?_
      rw [hlinks.child o ho c]
      refine ⟨fun hc => ?_, fun ⟨hc, hpar⟩ => ?_⟩
      · obtain ⟨hci, hpar⟩ := h.partly.homes.child o c hc
        have hcs := (hmem c).mp hci
        rw [(hread c hcs).1.parent] at hpar
        exact ⟨hcs, hpar⟩
      · refine (h.partly.homes.listed c hc o ?_).2
        rw [(hread c hc).1.parent]
        exact hpar
    · change (if o ∈ s.hardList then _ else _) = _
      rw [if_pos ((hlist o).mpr ⟨ho, ht⟩)]
      exact hfind o ho ht
    · change ((s.hardList.filter fun l => findNumber s.toDev (s.obj l).equivId = some o).reverse ++
        (s.obj o).hardLinks).Perm (d.obj o).hardLinks
      rw [(h.partly.plain o).2.1, List.append_nil]
      have hnodup : s.hardList.Nodup := by
        rw [h.hardList]
        exact List.nodup_reverse.mpr ((savedIds_nodup hd.nodup).filter _)
      refine (List.perm_ext_iff_of_nodup (List.nodup_reverse.mpr (hnodup.filter _)) (hlinks.ringNodup o ho)).mpr fun l => ?_
      rw [hlinks.ring o ho l, List.mem_reverse, List.mem_filter, hlist, decide_eq_true_eq]
      refine ⟨fun ⟨⟨hl, ht⟩, heq⟩ => ⟨hl, ht, ?_⟩, fun ⟨hl, ht, heq⟩ => ⟨⟨hl, ht⟩, ?_⟩⟩
      · rw [← hfind l hl ht, heq]
      · rw [hfind l hl ht, heq]
  · change SameBooks s₀.toBlockDev (s.hardList.foldl linkFixupStep s.toDev).toBlockDev
    rw [hblk]
    exact h.books

/-! ## Closing the reader -/

/-- The blocks of `l` that were empty have become checkpoint blocks. -/
structure MarkedRead (g : Geometry) (l : List ℕ) (d d' : BlockDev) : Prop where
  rest : ∃ info, d' = { d with blockInfo := info }
  marked : ∀ b ∈ l, g.startBlock ≤ b → b ≤ g.endBlock → (d.blockInfo b).blockState = .empty →
    d'.blockInfo b = { d.blockInfo b with blockState := .checkpoint }
  same : ∀ b, b ∉ l ∨ (d.blockInfo b).blockState ≠ .empty → d'.blockInfo b = d.blockInfo b

theorem checkptMarkRead_marked (d : BlockDev) (a : ℕ) : MarkedRead g [a] d (checkptMarkRead g d a) := by
  unfold checkptMarkRead
  split_ifs with ha
  · refine ⟨⟨_, rfl⟩, fun b hb _ _ _ => ?_, fun b hb => ?_⟩
    · obtain rfl := List.mem_singleton.mp hb
      simp [BlockDev.setState, BlockDev.modBlock]
    · have hne : b ≠ a := by
        rintro rfl
        rcases hb with hb | hb
        · exact hb (by simp)
        · exact hb ha.2.2
      simp [BlockDev.setState, BlockDev.modBlock, hne]
  · refine ⟨⟨d.blockInfo, rfl⟩, fun b hb h1 h2 h3 => ?_, fun _ _ => rfl⟩
    obtain rfl := List.mem_singleton.mp hb
    exact absurd ⟨h1, h2, h3⟩ ha

/-- The blocks the reader has listed become checkpoint blocks, if they are empty. -/
theorem foldl_checkptMarkRead (l : List ℕ) (d : BlockDev) : MarkedRead g l d (l.foldl (checkptMarkRead g) d) := by
  induction l generalizing d with
  | nil => exact ⟨⟨d.blockInfo, rfl⟩, fun b hb => absurd hb List.not_mem_nil, fun _ _ => rfl⟩
  | cons a l ih =>
    have h1 := checkptMarkRead_marked (g := g) d a
    have h2 := ih (checkptMarkRead g d a)
    rw [List.foldl_cons]
    obtain ⟨i1, hi1⟩ := h1.rest
    obtain ⟨i2, hi2⟩ := h2.rest
    refine ⟨⟨i2, by rw [hi2, hi1]⟩, fun b hb hlo hhi hempty => ?_, fun b hb => ?_⟩
    · by_cases hba : b = a
      · have hmark := h1.marked b (by simp [hba]) hlo hhi hempty
        rw [h2.same b (Or.inr (by rw [hmark]; simp)), hmark]
      · have hsame := h1.same b (Or.inl (by simp [hba]))
        rw [h2.marked b ((List.mem_cons.mp hb).resolve_left hba) hlo hhi (by rw [hsame]; exact hempty), hsame]
    · have hsame := h1.same b (hb.imp (fun h => by simp at h; simp [h.1]) id)
      rw [h2.same b (hb.imp (fun h => by simp at h; exact h.2) fun h => by rwa [hsame]), hsame]

/-- Behind the last byte, the reader has found the blocks of all pages. -/
theorem Ahead.blocks {d₁ x : BlockDev} {W : List UInt8} (hh : HoldsStream g d₁ W) (h : Ahead g d₁ W [] x) :
    x.blocksInCheckpt = blocksFor g (pagesOf g W) := by
  have hp : 0 < g.chunksPerBlock := by
    have := g.two_le_chunksPerBlock
    omega
  obtain ⟨V, j, hV, hj⟩ := h.behind
  rw [List.append_nil] at hV
  subst hV
  have hlo := hj.lo
  have hhi := hj.hi
  have hpages : pagesOf g W = j := by
    refine Nat.le_antisymm (pagesOf_le hh.payload hlo) ?_
    have hle := length_le_pagesOf hh.payload W
    have hlt : j * g.payload < (pagesOf g W + 1) * g.payload := by
      rw [Nat.add_mul, Nat.one_mul]
      omega
    exact Nat.le_of_lt_succ (Nat.lt_of_mul_lt_mul_right hlt)
  rw [hpages, hj.blocks]
  cases j with
  | zero => exact (blocksFor_zero hp).symm
  | succ j => rw [if_neg (Nat.succ_ne_zero j), blocksFor_succ hp, Nat.add_sub_cancel]

/-! ## The whole -/

/-- A device that can be saved so that the next finds all of it. -/
structure Savable (g : Geometry) (e : Env) (d : Dev) : Prop where
  required : g.checkptRequired = true
  payload : 0 < g.payload
  marks : ∀ n, e.markOk n = true
  writes : ∀ n, e.writeOk n = true
  layout : Layout g d.toBlockDev
  opens : (checkptOpen g e d.toBlockDev).2 = true
  room : streamBytes g (d.onBlocks (checkptOpen g e)).1 ≤
    roomPages g (d.onBlocks (checkptOpen g e)).1.toBlockDev * g.payload
  reach : streamBytes g (d.onBlocks (checkptOpen g e)).1 ≤ g.checkptMaxBlocks * g.chunksPerBlock * g.payload
  counters : DevFits (d.onBlocks (checkptOpen g e)).1
  blocks : ∀ b, g.startBlock ≤ b → b ≤ g.endBlock → ((d.onBlocks (checkptOpen g e)).1.blockInfo b).Fits
  objs : StorableObjs g d
  links : LinkedObjs d

/-- The device `d'` is what a checkpoint keeps of `d`. -/
structure SameDev (g : Geometry) (d d' : Dev) : Prop extends SameCounters d d' where
  isCheckpointed : d'.isCheckpointed = d.isCheckpointed
  blocksInCheckpt : d'.blocksInCheckpt = d.blocksInCheckpt
  info : ∀ b, g.startBlock ≤ b → b ≤ g.endBlock → d'.blockInfo b = d.blockInfo b
  bits : ∀ b page, g.startBlock ≤ b → b ≤ g.endBlock → page < g.chunksPerBlock →
    d'.chunkBits (b * g.chunksPerBlock + page) = d.chunkBits (b * g.chunksPerBlock + page)
  ids : d'.ids.Perm (savedIds d)
  obj : ∀ o ∈ savedIds d, SameSaved (d.obj o) (d'.obj o)

theorem mountObj_cases (m : MountParam) (o : ℕ) : (mountObj m o).deferredFree = false ∧
    (mountObj m o).hardLinks = [] ∧
    (mountObj m o).equivObj = none ∧ (isInitialDir o → (mountObj m o).variantType = .directory) ∧
    (o = objectIdRoot ∨ o = objectIdUnlinked ∨ o = objectIdDeleted → (mountObj m o).parent = none) ∧
    ((mountObj m o).children = [] ∨ o = objectIdRoot ∧ (mountObj m o).children = [objectIdLostNFound]) := by
  by_cases h1 : o = objectIdRoot
  · subst h1
    by_cases hh : m.hideLostNFound = true <;> simp [mountObj, initialObj, hh]
  · by_cases h2 : o = objectIdLostNFound
    · subst h2
      simp [mountObj, initialObj, objectIdRoot, objectIdLostNFound, objectIdUnlinked, objectIdDeleted]
    · by_cases h3 : o = objectIdUnlinked ∨ o = objectIdDeleted
      · simp [mountObj, initialObj, h1, h2, h3]
      · simp [mountObj, initialObj, h1, h2, h3, isInitialDir]

/-- A device that is about to be mounted has no objects but the directories it is mounted with. -/
theorem mountDev_reading (hd : StorableObjs g d) (m : MountParam) {s₀ s : ScanDev} (hobj : s.obj = mountObj m)
    (hids : s.ids = [objectIdLostNFound, objectIdRoot, objectIdDeleted, objectIdUnlinked]) (hlist : s.hardList = [])
    (hbooks : SameBooks s₀.toBlockDev s.toBlockDev) (hdel : s.nDeletedFiles = s₀.nDeletedFiles) :
    Reading g d [] s₀ s := by
  have hmem : ∀ o, o ∈ s.ids ↔ isInitialDir o := fun o => by
    rw [hids]
    simp only [List.mem_cons, List.not_mem_nil, or_false, isInitialDir]
    tauto
  have hplain := mountObj_cases m
  refine ⟨⟨?_, fun o ho => (hd.initial o ((hmem o).mp ho)).1, fun o ho => (hmem o).mpr ho,
    ⟨fun p c hc => ?_, ?_, fun p => ?_⟩,
    fun o => ?_, fun o ho => ⟨fun h => absurd h List.not_mem_nil, fun _ => ?_⟩⟩, ?_, hlist, hbooks, hdel⟩
  · rw [hids]
    decide
  · rw [hobj] at hc ⊢
    rcases (hplain p).2.2.2.2.2 with hnil | ⟨hp, hone⟩
    · rw [hnil] at hc
      exact absurd hc List.not_mem_nil
    · rw [hone] at hc
      obtain rfl := List.mem_singleton.mp hc
      refine ⟨(hmem _).mpr (Or.inr (Or.inl rfl)), ?_⟩
      rw [hp]
      simp [mountObj, initialObj, objectIdRoot, objectIdLostNFound]
  · intro c hc
    exact absurd hc List.not_mem_nil
  · rw [hobj]
    rcases (hplain p).2.2.2.2.2 with hnil | ⟨-, hone⟩
    · rw [hnil]
      exact List.nodup_nil
    · rw [hone]
      exact List.nodup_singleton _
  · rw [hobj]
    exact ⟨(hplain o).1, (hplain o).2.1, (hplain o).2.2.1⟩
  · rw [hobj]
    have hinit := (hmem o).mp ho
    have htype := (hd.initial o hinit).2
    exact ⟨((hplain o).2.2.2.1 hinit).trans htype.symm, fun hf => absurd (htype.symm.trans hf) (by simp),
      (hplain o).2.2.2.2.1⟩
  · intro o ho
    exact absurd ho List.not_mem_nil

/-- What the reader has of the device `d₁` behind the last byte of its stream, on a device that was `s₀`. -/
structure ReadWhole (g : Geometry) (d₁ : Dev) (N : ℕ) (W : List UInt8) (s₀ s : ScanDev) : Prop where
  ahead : Ahead g d₁.toBlockDev W [] s.toBlockDev
  loaded : ∃ table bits,
    StoredTable g d₁.blockInfo (· ∈ (emptyBlocks g d₁.toBlockDev).take (blocksFor g (N / g.payload))) table ∧
    StoredBits g d₁.toBlockDev bits ∧ SameBooks (loadDev g (devCp d₁) table bits s₀).toBlockDev s.toBlockDev ∧
    s.nDeletedFiles = (loadDev g (devCp d₁) table bits s₀).nDeletedFiles
  ids : s.ids.Perm (savedIds d₁)
  obj : ∀ o ∈ savedIds d₁, SameSaved (d₁.obj o) (s.obj o)

theorem loadDev_info (c table bits : List UInt8) (s : ScanDev) :
    (loadDev g c table bits s).blockInfo = (loadBlockInfo g table s.toBlockDev).blockInfo := rfl

theorem loadDev_bits (c table bits : List UInt8) (s : ScanDev) :
    (loadDev g c table bits s).chunkBits = (loadChunkBits g bits s.toBlockDev).chunkBits := rfl

theorem loadDev_alloc (c table bits : List UInt8) (s : ScanDev) : (loadDev g c table bits s).alloc =
    { s.alloc with block := blockOfStored (rdWord c 2), page := rdWord c 3 } := rfl

/-- What is read does not depend on where the reader stands. -/
theorem loadDev_books (c table bits : List UInt8) {s s' : ScanDev} (h : SameBooks s.toBlockDev s'.toBlockDev) :
    SameBooks (loadDev g c table bits s).toBlockDev (loadDev g c table bits s').toBlockDev where
  info := by
    rw [loadDev_info, loadDev_info, loadBlockInfo, loadBlockInfo, h.info]
  bits := by
    rw [loadDev_bits, loadDev_bits, loadChunkBits, loadChunkBits, h.bits]
  erased := rfl
  free := rfl
  alloc := by
    rw [loadDev_alloc, loadDev_alloc, h.alloc]
  seqNumber := rfl
  flash := h.flash
  bad := h.bad

/-- Reading the stream of a saved device. -/
theorem rdCheckptData_reads {d₁ : Dev} {W W' : List UInt8} {N : ℕ} (hyaffs2 : g.isYaffs2 = true)
    (hskip : g.skipCheckptRd = false) (he : ∀ n, e.allocOk n = true) (hd : StorableObjs g d₁)
    (hlinks : LinkedObjs d₁)
    (hW' : W' = W ++ sumCp W) (hh : HoldsStream g d₁.toBlockDev W') (hW : StoredDev g N d₁ W) (m : MountParam)
    {old : BlockDev} (hread : Readable g d₁.toBlockDev W' (pagesOf g W') old.nand) :
    ∃ s : ScanDev, ReadWhole g d₁ N W' (mountDev g m old) s ∧ rdCheckptData g e (mountDev g m old) =
      (s.mapBlk fun b => { checkptClose g e b with isCheckpointed := true }, true) := by
  obtain ⟨table, bits, hbytes, htable, hbits⟩ := hW
  have hall : W' = validityCp 1 ++ (devCp d₁ ++ (table ++ (bits ++ ((savedIds d₁).flatMap
      (fun o => objStream g o (d₁.obj o)) ++ (endCp ++ (validityCp 0 ++ sumCp W)))))) := by
    rw [hW', hbytes, objsStream]
    simp only [List.append_assoc]
  have h0 := checkptOpenRead_ahead hh (d := (mountDev g m old).toBlockDev)
      ⟨hread.le, hread.page, hread.other, hread.bad⟩
  obtain ⟨s0, hs0⟩ : ∃ s0, s0 = (mountDev g m old).mapBlk (checkptOpenRead g) := ⟨_, rfl⟩
  have ha0 : Ahead g d₁.toBlockDev W' (validityCp 1 ++ (devCp d₁ ++ (table ++ (bits ++ ((savedIds d₁).flatMap
      (fun o => objStream g o (d₁.obj o)) ++ (endCp ++ (validityCp 0 ++ sumCp W))))))) s0.toBlockDev := by
    rw [← hall, hs0]
    exact h0
  obtain ⟨cp1, k1, h1, ha1⟩ := rdCheckptValidityMarker_ahead hh (by decide) ha0
  obtain ⟨cp2, k2, h2, ha2⟩ := rdCheckptDev_ahead hh (length_devCp d₁)
      (devWords d₁).structType htable.length hbits.length ha1
  obtain ⟨s2, hs2⟩ : ∃ s2, s2 = (loadDev g (devCp d₁) table bits (s0.atCursor cp1 k1)).atCursor cp2 k2 := ⟨_, rfl⟩
  rw [← hs2] at h2 ha2
  have hbooks2 : SameBooks (loadDev g (devCp d₁) table bits (mountDev g m old)).toBlockDev s2.toBlockDev := by
    rw [hs2, hs0]
    exact (loadDev_books (devCp d₁) table bits ⟨rfl, rfl, rfl, rfl, rfl, rfl, rfl, rfl⟩).trans
      ⟨rfl, rfl, rfl, rfl, rfl, rfl, rfl, rfl⟩
  have hstart : Reading g d₁ [] s2 s2 := by
    refine mountDev_reading hd m ?_ ?_ ?_ (SameBooks.refl _) rfl <;> rw [hs2, hs0] <;> rfl
  -- The objects.
  have hfuel : (savedIds d₁).length < checkptReadLimit g + 1 := by
    have hlen := ha2.length_le hh
    have hpos := length_le_flatMap (fun o => objStream g o (d₁.obj o)) (savedIds d₁) fun o _ => by
      rw [objStream, List.length_append, length_objCp, checkptObjSize]
      omega
    rw [List.length_append] at hlen
    omega
  obtain ⟨hok3, ha3, hreading⟩ := rdCheckptObjsLoop_reading hh he hd (savedIds d₁) (checkptReadLimit g + 1) [] s2
    hfuel (fun _ h => h) (by simpa using savedIds_nodup hd.nodup) hstart ha2
  have h3 : rdCheckptObjs g e s2 = (linkFixup (rdCheckptObjsLoop g e (checkptReadLimit g + 1) s2).1, true) := by
    unfold rdCheckptObjs
    dsimp only
    rw [if_pos hok3]
  generalize (rdCheckptObjsLoop g e (checkptReadLimit g + 1) s2).1 = s3 at h3 ha3 hreading
  rw [List.nil_append] at hreading
  obtain ⟨hids, hobj, hbooks3, hdel3, hblk3⟩ := hreading.fixed hd hlinks
  -- The end of the stream.
  have ha3' : Ahead g d₁.toBlockDev W' (validityCp 0 ++ sumCp W) (linkFixup s3).toBlockDev := by
    rw [hblk3]
    exact ha3
  obtain ⟨cp4, k4, h4, ha4⟩ := rdCheckptValidityMarker_ahead hh (by decide) ha3'
  obtain ⟨cp5, k5, h5, ha5⟩ := rdCheckptSum_ahead hh hW' ha4
  refine ⟨((linkFixup s3).atCursor cp4 k4).atCursor cp5 k5, ⟨ha5, ⟨table, bits, htable, hbits, ?_, ?_⟩, hids, hobj⟩,
    ?_⟩
  · exact (hbooks2.trans hbooks3).trans ⟨rfl, rfl, rfl, rfl, rfl, rfl, rfl, rfl⟩
  · refine hdel3.trans ?_
    rw [hs2]
    rfl
  · unfold rdCheckptData thenRead
    simp only [hyaffs2, hskip, Bool.not_false, Bool.and_self, if_true, ← hs0, h1, h2, h3, h4, h5]

/-- What the reader has when it has closed is what the writer has when it has closed. -/
theorem ReadWhole.same {d₁ : Dev} {N : ℕ} {W : List UInt8} {s₀ s : ScanDev} (hh : HoldsStream g d₁.toBlockDev W)
    (hN : N = W.length) (hblocks : d₁.blocksInCheckpt = 0) (hfits : DevFits d₁)
    (hinfo : ∀ b, g.startBlock ≤ b → b ≤ g.endBlock → (d₁.blockInfo b).Fits) (hr : ReadWhole g d₁ N W s₀ s)
    {dw : Dev} (hw : Written g d₁ W dw) :
    SameDev g dw (s.mapBlk fun b => { checkptClose g e b with isCheckpointed := true }).toDev := by
  obtain ⟨x, hx, rfl⟩ := hw.took
  obtain ⟨table, bits, htable, hbits, hbooks, hdel⟩ := hr.loaded
  have hcount := loadDev_counters (g := g) hfits rfl table bits s₀
  have hk := hr.ahead.blocks hh
  have hlist : s.checkpt.blockList = (emptyBlocks g d₁.toBlockDev).take (blocksFor g (pagesOf g W)) := by
    rw [← hk]
    exact hr.ahead.listed
  have hclose : checkptClose g e s.toBlockDev =
      let y := ((emptyBlocks g d₁.toBlockDev).take (blocksFor g (pagesOf g W))).foldl
        (checkptMarkRead g) s.toBlockDev
      { y with
        nFreeChunks := y.nFreeChunks - (y.blocksInCheckpt * g.chunksPerBlock : ℕ)
        nErasedBlocks := y.nErasedBlocks - y.blocksInCheckpt } := by
    have hclosed : ¬s.checkpt.openWrite = true := by
      rw [show s.checkpt.openWrite = false from hr.ahead.closed]
      exact Bool.false_ne_true
    unfold checkptClose
    dsimp only
    rw [if_neg hclosed, hlist, hk, List.take_take, Nat.min_self]
  have hmark := foldl_checkptMarkRead (g := g)
      ((emptyBlocks g d₁.toBlockDev).take (blocksFor g (pagesOf g W))) s.toBlockDev
  generalize ((emptyBlocks g d₁.toBlockDev).take (blocksFor g (pagesOf g W))).foldl
    (checkptMarkRead g) s.toBlockDev = y
    at hclose hmark
  obtain ⟨info, hy⟩ := hmark.rest
  have hblk : (s.mapBlk fun b => { checkptClose g e b with isCheckpointed := true }).toBlockDev =
      { y with
        nFreeChunks := y.nFreeChunks - (y.blocksInCheckpt * g.chunksPerBlock : ℕ)
        nErasedBlocks := y.nErasedBlocks - y.blocksInCheckpt
        isCheckpointed := true } := by
    change { checkptClose g e s.toBlockDev with isCheckpointed := true } = _
    rw [hclose]
  have hyk : y.blocksInCheckpt = x.blocksInCheckpt := by
    rw [hx.blocks, hblocks, Nat.zero_add, ← hk, hy]
  have hyinfo : ∀ b, g.startBlock ≤ b → b ≤ g.endBlock → y.blockInfo b = x.blockInfo b := by
    intro b hlo hhi
    obtain ⟨st, hst, hread⟩ := htable.read hlo hhi (hinfo b hlo hhi)
    have hsb : s.blockInfo b = { d₁.blockInfo b with blockState := st } := by
      rw [hbooks.info, loadDev_info, loadBlockInfo]
      dsimp only
      rw [if_pos ⟨hlo, hhi⟩, hread]
    have hsub : b ∈ (emptyBlocks g d₁.toBlockDev).take (blocksFor g (N / g.payload)) →
        b ∈ (emptyBlocks g d₁.toBlockDev).take (blocksFor g (pagesOf g W)) := fun h =>
      List.take_subset_take_left _ (blocksFor_mono (by rw [hN, pagesOf]; exact Nat.le_add_right _ _)) h
    rw [hx.info]
    by_cases hb : b ∈ (emptyBlocks g d₁.toBlockDev).take (blocksFor g (pagesOf g W))
    · have hempty : (d₁.blockInfo b).blockState = .empty := by
        obtain ⟨i, hi⟩ := List.getElem?_of_mem (List.mem_of_mem_take hb)
        exact (emptyBlocks_getElem hi).2.2
      rw [if_pos hb]
      rcases hst with rfl | ⟨-, rfl⟩
      · rw [hmark.marked b hb hlo hhi (by rw [hsb]; exact hempty), hsb]
      · rw [hmark.same b (Or.inr (by rw [hsb]; simp)), hsb]
    · rw [if_neg hb, hmark.same b (Or.inl hb), hsb]
      rcases hst with rfl | ⟨h, -⟩
      · rfl
      · exact absurd (hsub h) hb
  refine ⟨⟨?_, ?_, ?_, ?_, ?_, ?_⟩, ?_, ?_, fun b hlo hhi => ?_, fun b page hlo hhi hpage => ?_, hr.ids, hr.obj⟩
  · rw [hblk]
    change y.nErasedBlocks - (y.blocksInCheckpt : ℤ) = x.nErasedBlocks - (x.blocksInCheckpt : ℤ)
    rw [hyk, hx.erased, ← hcount.nErasedBlocks, ← hbooks.erased, hy]
  · rw [hblk]
    change y.nFreeChunks - ((y.blocksInCheckpt * g.chunksPerBlock : ℕ) : ℤ) =
      x.nFreeChunks - ((x.blocksInCheckpt * g.chunksPerBlock : ℕ) : ℤ)
    rw [hyk, hx.free, ← hcount.nFreeChunks, ← hbooks.free, hy]
  · exact hdel.trans hcount.nDeletedFiles
  · rw [hblk]
    change y.alloc.block = x.alloc.block
    rw [hx.alloc, ← hcount.allocBlock, ← hbooks.alloc, hy]
  · rw [hblk]
    change y.alloc.page = x.alloc.page
    rw [hx.alloc, ← hcount.allocPage, ← hbooks.alloc, hy]
  · rw [hblk]
    change y.seqNumber = x.seqNumber
    rw [hx.seqNumber, ← hcount.seqNumber, ← hbooks.seqNumber, hy]
  · rw [hblk]
  · rw [hblk]
    exact hyk
  · rw [hblk]
    exact hyinfo b hlo hhi
  · have hp : 0 < g.chunksPerBlock := by omega
    rw [hblk]
    change y.chunkBits _ = x.chunkBits _
    have hdiv : (b * g.chunksPerBlock + page) / g.chunksPerBlock = b := by
      rw [Nat.mul_comm, Nat.mul_add_div hp, Nat.div_eq_of_lt hpage, Nat.add_zero]
    have hmod : (b * g.chunksPerBlock + page) % g.chunksPerBlock = page := by
      rw [Nat.mul_comm, Nat.mul_add_mod, Nat.mod_eq_of_lt hpage]
    have hsy : y.chunkBits = s.chunkBits := by rw [hy]
    rw [hx.bits, hsy, hbooks.bits, loadDev_bits, loadChunkBits]
    dsimp only
    rw [hdiv, hmod, if_pos ⟨hlo, hhi⟩]
    exact chunkBitAt_stored hbits.length hbits.byte hlo hhi hpage

/-- The file `257` in the root, with one chunk, and the link `259` to it in the directory `262`, which is stored
behind the link; the chunks are in block 1. -/
def linkedDev : Dev :=
  let d := freshDev sampleGeometry fun _ => false
  { d with
    blockInfo := fun b => if b = 1 then { blockState := .allocating, pagesInUse := 4 } else d.blockInfo b
    chunkBits := fun c => decide (17 ≤ c ∧ c ≤ 20)
    nErasedBlocks := 63
    nFreeChunks := 1020
    alloc := ⟨some 1, 4, 0⟩
    ids := [262, 259, 257] ++ d.ids
    obj := fun o =>
      if o = 257 then
        { variantType := .file, parent := some objectIdRoot, hdrChunk := 17, nDataChunks := 1, hardLinks := [259]
          renameAllowed := true, unlinkAllowed := true
          file := { fileSize := 5, storedSize := 5, topLevel := 0, top := some fun i => if i = 1 then 18 else 0 } }
      else if o = 262 then
        { variantType := .directory, parent := some objectIdRoot, children := [259], hdrChunk := 19 }
      else if o = 259 then
        { variantType := .hardlink, parent := some 262, equivId := 257, equivObj := some 257, hdrChunk := 20 }
      else if o = objectIdRoot then { d.obj o with children := [262, 257, objectIdLostNFound] }
      else d.obj o }

theorem linkedDev_saved : savedIds linkedDev =
    [257, objectIdRoot, objectIdLostNFound, 259, objectIdUnlinked, objectIdDeleted, 262] := by
  decide +kernel

/-- A property of the objects of the device. -/
theorem linkedDev_all {P : ℕ → Prop} (h1 : P 257) (h2 : P objectIdRoot) (h3 : P objectIdLostNFound) (h4 : P 259)
    (h5 : P objectIdUnlinked) (h6 : P objectIdDeleted) (h7 : P 262) : ∀ o ∈ savedIds linkedDev, P o := by
  intro o ho
  rw [linkedDev_saved] at ho
  simp only [List.mem_cons, List.not_mem_nil, or_false] at ho
  rcases ho with rfl | rfl | rfl | rfl | rfl | rfl | rfl <;> assumption

theorem linkedDev_objs : StorableObjs sampleGeometry linkedDev where
  nodup := by decide
  range := by
    rw [linkedDev_saved]
    decide
  initial := by
    rw [linkedDev_saved]
    rintro o (rfl | rfl | rfl | rfl) <;> decide
  fits := by
    refine linkedDev_all ?_ ?_ ?_ ?_ ?_ ?_ ?_ <;>
      exact ⟨by simp [linkedDev, freshDev, initialObj, objectIdRoot, objectIdLostNFound, objectIdUnlinked,
        objectIdDeleted], by decide, by unfold IsInt; decide, by decide, by decide⟩
  level := by
    refine linkedDev_all ?_ ?_ ?_ ?_ ?_ ?_ ?_ <;> decide
  narrow := by
    refine linkedDev_all ?_ ?_ ?_ ?_ ?_ ?_ ?_ <;> unfold Tnode.Narrow <;> decide
  parent := by
    have h : ∀ o ∈ savedIds linkedDev, ∀ p ∈ (linkedDev.obj o).parent,
        p ∈ savedIds linkedDev ∧ (linkedDev.obj p).variantType = .directory := by
      decide +kernel
    exact h
  orphan := by
    refine linkedDev_all ?_ ?_ ?_ ?_ ?_ ?_ ?_ <;> decide

theorem linkedDev_links : LinkedObjs linkedDev where
  child := by
    have hdown : ∀ p ∈ savedIds linkedDev, ∀ c ∈ (linkedDev.obj p).children,
        c ∈ savedIds linkedDev ∧ (linkedDev.obj c).parent = some p := by
      decide +kernel
    have hup : ∀ p ∈ savedIds linkedDev, ∀ c ∈ savedIds linkedDev, (linkedDev.obj c).parent = some p →
        c ∈ (linkedDev.obj p).children := by
      decide +kernel
    exact fun p hp c => ⟨hdown p hp c, fun h => hup p hp c h.1 h.2⟩
  childNodup := by
    refine linkedDev_all ?_ ?_ ?_ ?_ ?_ ?_ ?_ <;> decide
  link := by
    rw [linkedDev_saved]
    decide
  ring := by
    have hin : ∀ q ∈ savedIds linkedDev, ∀ l ∈ (linkedDev.obj q).hardLinks,
        l ∈ savedIds linkedDev ∧ (linkedDev.obj l).variantType = .hardlink ∧ (linkedDev.obj l).equivObj = some q := by
      decide +kernel
    have hof : ∀ q ∈ savedIds linkedDev, ∀ l ∈ savedIds linkedDev, (linkedDev.obj l).variantType = .hardlink →
        (linkedDev.obj l).equivObj = some q → l ∈ (linkedDev.obj q).hardLinks := by
      decide +kernel
    exact fun q hq l => ⟨hin q hq l, fun h => hof q hq l h.1 h.2.1 h.2.2⟩
  ringNodup := by
    refine linkedDev_all ?_ ?_ ?_ ?_ ?_ ?_ ?_ <;> decide

theorem linkedDev_savable : Savable sampleGeometry okEnv linkedDev where
  required := by decide
  payload := by decide
  marks := fun _ => rfl
  writes := fun _ => rfl
  layout := ⟨fun _ _ _ _ => rfl, fun _ _ _ _ => rfl⟩
  opens := by decide +kernel
  room := by decide +kernel
  reach := by decide +kernel
  counters :=
    have halloc : ∀ b ∈ (linkedDev.onBlocks (checkptOpen sampleGeometry okEnv)).1.alloc.block, b < 2 ^ 32 - 1 := by
      decide +kernel
    { nErasedBlocks := by unfold IsInt; decide +kernel
      nFreeChunks := by unfold IsInt; decide +kernel
      nDeletedFiles := by unfold IsInt; decide +kernel
      nUnlinkedFiles := by unfold IsInt; decide +kernel
      allocBlock := halloc
      allocPage := by decide +kernel
      seqNumber := by decide +kernel }
  blocks := by
    have hfits : ∀ b ∈ List.range 65, (fun bi : BlockInfo => (0 ≤ bi.softDelPages ∧ bi.softDelPages < 2 ^ 10) ∧
        (0 ≤ bi.pagesInUse ∧ bi.pagesInUse < 2 ^ 10) ∧ bi.chunkErrorStrikes < 2 ^ 3 ∧ bi.seqNumber < 2 ^ 32)
        ((linkedDev.onBlocks (checkptOpen sampleGeometry okEnv)).1.blockInfo b) := by
      decide +kernel
    intro b _ hb
    obtain ⟨h1, h2, h3, h4⟩ := hfits b (List.mem_range.mpr (Nat.lt_succ_of_le hb))
    exact ⟨h1, h2, h3, h4⟩
  objs := linkedDev_objs
  links := linkedDev_links

end Yaffs
