import Yaffs.Forwards
import Yaffs.Placing
import Yaffs.DataWrite

/-!
# Overwriting a chunk on yaffs1

`yaffs_wr_data_obj` gives the new page of a chunk the serial number behind that of the old page, and
deletes the old page once the new one has been programmed. When power is lost in between there are
two pages of the chunk, and `yaffs1_scan` is to keep the new one. With chunk groups of one page
`yaffs_find_chunk_in_file` reads no tags, and the serial number is that of no page.
-/

namespace Yaffs

variable {g : Geometry} {o k : ℕ}

/-! ## Overwrites -/

/-- A device with the serial numbers in the tags of its pages. -/
structure SerialDev extends Dev where
  serial : ℕ → ℕ

/-- `new_tags.serial_number` in `yaffs_wr_data_obj`, when the chunk is found in `prev`. With chunk
groups of one page `prev_tags` has no value, and its serial number is `stale`. -/
def newSerial (p : Param) (stale : ℕ) (prev : Option ℕ) (serial : ℕ → ℕ) : ℕ :=
  match prev with
  | some c => (if p.chunkGrpSize = 1 then stale else serial c % 4) + 1
  | none => 1

/-- An overwrite of the chunk `k` of `o`, which finds the chunk in the page `old` and programs the
page `new`. -/
structure Overwrite (g : Geometry) (o k : ℕ) (s : SerialDev) where
  gcEnv : Env
  e : Env
  data : List UInt8
  nBytes : ℕ
  useReserve : Bool
  /-- The serial number of a chunk `yaffs_find_chunk_in_file` does not read. -/
  stale : ℕ
  /-- The device behind the gc, whose copies have serial numbers of their own. -/
  before : SerialDev
  /-- The device between the programming of the new page and the deletion of the old one. -/
  cut : SerialDev
  old : ℕ
  new : ℕ
  length : data.length = g.dataBytesPerChunk
  collected : before.toDev = checkGc g gcEnv false s.toDev
  found : findChunkInFile g before.toDev o k = some old
  programmed : programData g e o k data nBytes useReserve before.toDev = (cut.toDev, some new)
  serial_new : cut.serial new = newSerial g.toParam stale (some old) before.serial
  /-- No page in use is programmed. -/
  serial_others : ∀ c, before.chunkBits c = true → cut.serial c = before.serial c

namespace Overwrite

variable {s : SerialDev}

/-- The device behind the overwrite. -/
def after (w : Overwrite g o k s) : SerialDev where
  toDev := replaceChunk g w.e o k (some w.old) w.new w.cut.toDev
  serial := w.cut.serial

theorem after_eq (w : Overwrite g o k s) :
    wrDataChunk g w.e o k w.data w.nBytes w.useReserve w.before.toDev = (w.after.toDev, some w.new) := by
  have h := w.programmed
  rw [wrDataChunk_of_programData (by rw [h]), h, w.found]
  rfl

end Overwrite

/-- Runs of overwrites of a chunk, some of which find no space. -/
inductive OverwriteRun (g : Geometry) (o k : ℕ) : SerialDev → Prop
  | start {s : SerialDev} : Settled g s.toDev → OverwriteRun g o k s
  | overwrite {s : SerialDev} (w : Overwrite g o k s) : OverwriteRun g o k s → OverwriteRun g o k w.after
  | noSpace {s s' : SerialDev} (gcEnv e : Env) (data : List UInt8) (nBytes : ℕ) (useReserve : Bool) :
      OverwriteRun g o k s → (findChunkInFile g (checkGc g gcEnv false s.toDev) o k).isSome = true →
      programData g e o k data nBytes useReserve (checkGc g gcEnv false s.toDev) = (s'.toDev, none) →
      OverwriteRun g o k s'

/-- When power is lost before the old page is deleted, the scan keeps the new page, and not the old one. -/
def Overwrite.Survives {s : SerialDev} (w : Overwrite g o k s) : Prop :=
  ∀ (e : Env) (m : MountParam), (∀ n, e.allocOk n = true) →
    m.reader = compatReader g.toParam w.cut.nand.flash w.cut.serial →
    m.query = compatQuery g.toParam w.cut.nand.flash w.cut.nand.markedBad →
    let r := scanForwards g e m (mountDev g m w.cut.toBlockDev)
    r.2 = true ∧ findChunkInFile g r.1.toDev o k = some w.new ∧ r.1.chunkBits w.new = true ∧
      r.1.nand.flash w.new = w.cut.nand.flash w.new ∧ r.1.chunkBits w.old = false

/-- Every overwrite for which `ok` holds is written with the next serial number, and survives. -/
def OverwritesSurvive (g : Geometry) (o k : ℕ) (ok : ∀ s, Overwrite g o k s → Prop) : Prop :=
  ∀ s, OverwriteRun g o k s → ∀ w : Overwrite g o k s, ok s w →
    w.cut.serial w.new % 4 = (w.before.serial w.old + 1) % 4 ∧ w.Survives

/-! ## The condition -/

/-- Behind the gc the old page is the only one that carries the chunk, and the device is one that can
be written on and scanned. -/
structure Overwrite.Recoverable {s : SerialDev} (w : Overwrite g o k s) : Prop where
  group : g.chunkGrpSize ≠ 1
  programs : w.e.Programs
  writable : Writable g w.before.toBlockDev
  typed : ∃ ty, Typed g w.before.nand.flash ty
  fits : FitTags g w.before.nand.flash
  unshadowed : Unshadowed g w.before.nand.flash
  only : ∀ c ∈ g.chunks, ((w.before.nand.flash c).any fun p => tagsMatch p.tags o k) = true → c = w.old

/-! ## Two copies -/

section

variable {flash : ℕ → Option Page} {serial : ℕ → ℕ} {old new : ℕ}

/-- Behind the new page the scan goes on with it. -/
theorem foldl_keptNext_new (hser : (serial old + 1) % 4 = serial new % 4) (l : List ℕ)
    (honly : ∀ c ∈ l, ((flash c).any fun p => tagsMatch p.tags o k) = true → c = old ∨ c = new) :
    l.foldl (keptNext flash serial o k) (some new) = some new := by
  induction l with
  | nil => rfl
  | cons c l ih =>
    have hnext : keptNext flash serial o k (some new) c = some new := by
      unfold keptNext
      split_ifs with hm
      · unfold laterPage
        dsimp only
        rcases honly c List.mem_cons_self hm with rfl | rfl
        · rw [if_neg (by omega)]
        · rw [ite_self]
      · rfl
    rw [List.foldl_cons, hnext]
    exact ih fun c' hc' => honly c' (List.mem_cons_of_mem c hc')

/-- In whatever order the two pages are met, the new one is taken. -/
theorem foldl_keptNext_two (hser : (serial old + 1) % 4 = serial new % 4)
    (hnew : ((flash new).any fun p => tagsMatch p.tags o k) = true) (l : List ℕ) :
    ∀ kept, kept = none ∨ kept = some old → new ∈ l →
      (∀ c ∈ l, ((flash c).any fun p => tagsMatch p.tags o k) = true → c = old ∨ c = new) →
      l.foldl (keptNext flash serial o k) kept = some new := by
  induction l with
  | nil => exact fun _ _ hmem => absurd hmem List.not_mem_nil
  | cons c l ih =>
    intro kept hkept hmem honly
    have hrest : ∀ c' ∈ l, ((flash c').any fun p => tagsMatch p.tags o k) = true → c' = old ∨ c' = new :=
      fun c' hc' => honly c' (List.mem_cons_of_mem c hc')
    rw [List.foldl_cons]
    by_cases hc : c = new
    · have hnext : keptNext flash serial o k kept c = some new := by
        unfold keptNext laterPage
        rw [hc, if_pos hnew]
        rcases hkept with rfl | rfl
        · rfl
        · exact if_pos hser
      rw [hnext]
      exact foldl_keptNext_new hser l hrest
    · have hmem' : new ∈ l := (List.mem_cons.mp hmem).resolve_left (Ne.symm hc)
      refine ih _ ?_ hmem' hrest
      unfold keptNext
      split_ifs with hm
      · obtain rfl := (honly c List.mem_cons_self hm).resolve_right hc
        unfold laterPage
        rcases hkept with rfl | rfl
        · exact .inr rfl
        · dsimp only
          rw [ite_self]
          exact .inr rfl
      · exact hkept

theorem mem_upToErased {c n : ℕ} : ∀ {a : ℕ}, a ≤ c → c < a + n → (∀ x, a ≤ x → x ≤ c → flash x ≠ none) →
    c ∈ upToErased flash (List.range' a n) := by
  induction n with
  | zero =>
    intro a h1 h2
    omega
  | succ n ih =>
    intro a h1 h2 hall
    have ha : (flash a).isSome = true := Option.isSome_iff_ne_none.mpr (hall a le_rfl h1)
    unfold upToErased
    rw [List.range'_succ, List.takeWhile_cons, ha, if_pos rfl]
    rcases h1.eq_or_lt with rfl | hlt
    · exact List.mem_cons_self
    · exact List.mem_cons_of_mem a (ih hlt (by omega) fun x hx => hall x (by omega))

/-- A page behind programmed pages of a good block is met. -/
theorem mem_pagesMet {markedBad : ℕ → Bool} {c : ℕ} (hc : c ∈ g.chunks) (hgood : markedBad (c / g.chunksPerBlock) = false)
    (hbehind : ∀ x, x / g.chunksPerBlock = c / g.chunksPerBlock → x ≤ c → flash x ≠ none) :
    c ∈ pagesMet g.toParam flash markedBad := by
  refine List.mem_flatMap.mpr ⟨c / g.chunksPerBlock, mem_chunks.mp hc, ?_⟩
  rw [hgood, if_neg Bool.false_ne_true]
  have hlt := Nat.lt_div_mul_add (a := c) (chunksPerBlock_pos (g := g))
  refine mem_upToErased (Nat.div_mul_le_self _ _) hlt fun x h1 h2 => hbehind x ?_ h2
  exact (Nat.div_eq_iff chunksPerBlock_pos).mpr ⟨h1, by omega⟩

theorem pagesMet_mem {markedBad : ℕ → Bool} {c : ℕ} (hc : c ∈ pagesMet g.toParam flash markedBad) : c ∈ g.chunks := by
  obtain ⟨b, hb, hc⟩ := List.mem_flatMap.mp hc
  split_ifs at hc
  · simp at hc
  · have hmem : c ∈ g.chunksOf b := (List.takeWhile_sublist _).subset hc
    rw [mem_chunks, mem_chunksOf.mp hmem]
    exact hb

end

/-! ## One overwrite -/

section

variable {s : SerialDev} {w : Overwrite g o k s} {T : ℕ → BlockState → Prop}

/-- The page of a chunk that is found. -/
structure FoundPage (g : Geometry) (o k c : ℕ) (d : Dev) (p : Page) : Prop where
  kept : d.kept c = some p
  key : p.key = (o, k)
  pos : k ≠ 0
  entry : (d.obj o).file.entry k = groupOf g c
  owned : PageOwned g d.ids (d.obj o) c p
  notSoft : (d.obj o).softDel = false

theorem foundPage {d : Dev} (h : Inv g T d) {c : ℕ} (hc : findChunkInFile g d o k = some c) :
    ∃ p, FoundPage g o k c d p := by
  rcases findChunkInFile_cases h.own o k with ⟨c', p, hc', hp, hkey, hk, hentry⟩ | ⟨hnone, -⟩
  · obtain rfl : c' = c := Option.some.inj (hc'.symm.trans hc)
    have hown := h.own.page c' p hp
    have hpo : p.tags.objId = o := (Prod.mk.inj hkey).1
    refine ⟨p, hp, hkey, hk, hentry, hpo ▸ hown, ?_⟩
    by_contra hs
    have hzero := (h.own.soft o (by simpa using hs)).2 k
    exact groupOf_ne_zero hown.mem (hentry ▸ hzero)
  · simp [hnone] at hc

theorem OverwriteRun.behindGc (h : Settled g s.toDev) (e : Env) : Settled g (checkGc g e false s.toDev) := by
  have hcol := checkGc_collects (e := e) notCollecting_noTransit false s.toDev h.inv h.clean
  exact ⟨hcol.inv, hcol.clean h.clean⟩

theorem Overwrite.written (w : Overwrite g o k s) :
    writeNewChunk g w.e (.bytes w.data) (dataTags o k w.nBytes) w.useReserve w.before.toBlockDev =
      (w.cut.toBlockDev, some w.new) := by
  have h := w.programmed
  unfold programData at h
  simp only [w.found, Option.isNone_some, Bool.false_eq_true, if_false, if_true] at h
  obtain ⟨h1, h2⟩ := Prod.mk.inj h
  refine Prod.ext ?_ h2
  rw [← h1]
  rfl

/-- The new page, and the old one. -/
structure Overwrite.Pages (w : Overwrite g o k s) (T : ℕ → BlockState → Prop) (p q : Page) : Prop where
  found : FoundPage g o k w.old w.before.toDev p
  unused : w.before.kept w.new = none
  page : PageOf (.bytes w.data) (dataTags o k w.nBytes) q
  wrote : Wrote g T anyBlock w.before.toBlockDev w.cut.toBlockDev (Function.update w.before.kept w.new (some q))

theorem Overwrite.pages (w : Overwrite g o k s) (h : Inv g T w.before.toDev) : ∃ p q, w.Pages T p q := by
  obtain ⟨p, hp⟩ := foundPage h w.found
  have hpo : p.tags.objId = o := (Prod.mk.inj hp.key).1
  have hid : o ≠ objectIdSummary := h.own.ids_ne o (hpo ▸ hp.owned.id)
  have hspec := writeNewChunk_spec (e := w.e) h.acc.ready (.bytes w.data) (t := dataTags o k w.nBytes) rfl hid w.useReserve
  rw [w.written] at hspec
  obtain ⟨hunused, -, q, hq, hw⟩ := hspec
  exact ⟨p, q, hp, hunused, hq, hw⟩

theorem FoundPage.live {d : Dev} {c : ℕ} {p : Page} (h : FoundPage g o k c d p) : LiveFile d o := by
  obtain ⟨hpo, hpk⟩ := Prod.mk.inj h.key
  exact ⟨hpo ▸ h.owned.id, h.owned.notFreed, (h.owned.data (hpk.trans_ne h.pos)).1, h.notSoft⟩

/-- An overwrite keeps the invariant. -/
theorem Overwrite.after_settled (w : Overwrite g o k s) (h : Settled g w.before.toDev) : Settled g w.after.toDev := by
  obtain ⟨p, hp⟩ := foundPage h.inv w.found
  have hset : Settled g (wrDataChunk g w.e o k w.data w.nBytes w.useReserve w.before.toDev).1 :=
    wrDataChunk_settled h hp.live hp.pos fun _ _ => w.length
  rwa [w.after_eq] at hset

/-! ## Runs -/

/-- In a run of overwrites the core is between two calls. -/
theorem OverwriteRun.settled (h : OverwriteRun g o k s) : Settled g s.toDev := by
  induction h with
  | start hs => exact hs
  | overwrite w _ ih =>
    refine w.after_settled ?_
    rw [w.collected]
    exact OverwriteRun.behindGc ih w.gcEnv
  | @noSpace s s' gcEnv e data nBytes useReserve _ hfound hnone ih =>
    have hset := OverwriteRun.behindGc ih gcEnv
    obtain ⟨c, hc⟩ := Option.isSome_iff_exists.mp hfound
    obtain ⟨p, hp⟩ := foundPage hset.inv hc
    have hres : (programData g e o k data nBytes useReserve (checkGc g gcEnv false s.toDev)).2 = none := by rw [hnone]
    have hwrite : Settled g (wrDataChunk g e o k data nBytes useReserve (checkGc g gcEnv false s.toDev)).1 :=
      wrDataChunk_settled hset hp.live hp.pos fun c' hc' => absurd (hres.symm.trans hc') (by simp)
    rwa [wrDataChunk_of_noPage hres, hnone] at hwrite

/-- What the flash has when power is lost. -/
structure Overwrite.CutPages (w : Overwrite g o k s) (p q : Page) : Prop where
  pages : w.Pages noTransit p q
  key : q.key = (o, k)
  lands : Lands g w.new w.before.toBlockDev w.cut.toBlockDev
  flash_new : w.cut.nand.flash w.new = some q
  flash_old : w.before.nand.flash w.old = some p
  inUse : w.before.chunkBits w.old = true
  ne : w.old ≠ w.new
  mem : w.new ∈ g.chunks

theorem Overwrite.cutPages (w : Overwrite g o k s) (h : Settled g w.before.toDev) (hy : g.isYaffs2 = false)
    (hw : w.Recoverable) : ∃ p q, w.CutPages p q := by
  obtain ⟨p, q, hpages⟩ := w.pages h.inv
  have hpo : p.tags.objId = o := (Prod.mk.inj hpages.found.key).1
  have hid : o ≠ objectIdSummary := h.inv.own.ids_ne o (hpo ▸ hpages.found.owned.id)
  have hlands := writeNewChunk_lands hw.programs hy h.inv.acc.ready hw.writable (.bytes w.data)
    (t := dataTags o k w.nBytes) rfl hid w.useReserve
  rw [w.written] at hlands
  have hnew : w.cut.kept w.new = some q := by
    rw [hpages.wrote.kept]
    simp
  obtain ⟨hbit, hflash, -⟩ := kept_eq_some.mp hpages.found.kept
  refine ⟨p, q, hpages, Prod.ext hpages.page.objId hpages.page.chunkId, hlands, (kept_eq_some.mp hnew).2.1, hflash,
    hbit, ?_, hpages.wrote.mem_chunks (c := w.new) (p := q) (by simp)⟩
  intro heq
  have := hpages.unused
  rw [← heq, hpages.found.kept] at this
  simp at this

theorem Overwrite.CutPages.flash_cases {w : Overwrite g o k s} {p q : Page} (h : w.CutPages p q) {c : ℕ} {p' : Page}
    (hp : w.cut.nand.flash c = some p') (hlive : p'.tags.isDeleted = false) :
    c = w.new ∧ p' = q ∨ w.before.nand.flash c = some p' := by
  by_cases hc : c = w.new
  · rw [hc, h.flash_new] at hp
    exact .inl ⟨hc, (Option.some.inj hp).symm⟩
  · exact .inr (h.lands.pages c p' hc hp hlive)

/-- The new page is one of the chunk, as the old one was. -/
theorem Overwrite.CutPages.typed {w : Overwrite g o k s} {p q : Page} (h : w.CutPages p q) {ty : ℕ → ObjType}
    (hty : Typed g w.before.nand.flash ty) : Typed g w.cut.nand.flash ty := by
  have hfound := h.pages.found
  have hmem := hfound.owned.mem
  have hlive := hfound.owned.unmarked
  have hpo : p.tags.objId = q.tags.objId := (Prod.mk.inj (hfound.key.trans h.key.symm)).1
  have hpk : p.tags.chunkId = q.tags.chunkId := (Prod.mk.inj (hfound.key.trans h.key.symm)).2
  have hqk : q.tags.chunkId ≠ 0 := by
    rw [(Prod.mk.inj h.key).2]
    exact hfound.pos
  refine ⟨hty.fake, fun c hc p' hp' hl => ?_, fun c hc p' hp' hl hdata => ?_, fun c hc p' hp' hl hhdr => ?_,
    fun c hc p' hp' hl hhdr => ?_⟩
  all_goals rcases h.flash_cases hp' hl with ⟨-, rfl⟩ | hbefore
  · rw [← hpo]
    exact hty.id w.old hmem p h.flash_old hlive
  · exact hty.id c hc p' hbefore hl
  · rw [← hpo]
    exact hty.data w.old hmem p h.flash_old hlive (hpk ▸ hqk)
  · exact hty.data c hc p' hbefore hl hdata
  · exact absurd hhdr hqk
  · exact hty.hdr c hc p' hbefore hl hhdr
  · exact absurd hhdr hqk
  · exact hty.parent c hc p' hbefore hl hhdr

theorem Overwrite.CutPages.fits {w : Overwrite g o k s} {p q : Page} (h : w.CutPages p q)
    (hfit : FitTags g w.before.nand.flash) : FitTags g w.cut.nand.flash := by
  intro c hc p' hp' hl
  rcases h.flash_cases hp' hl with ⟨-, rfl⟩ | hbefore
  · have hkey := h.pages.found.key.trans h.key.symm
    rw [← (Prod.mk.inj hkey).1, ← (Prod.mk.inj hkey).2]
    exact hfit w.old h.pages.found.owned.mem p h.flash_old h.pages.found.owned.unmarked
  · exact hfit c hc p' hbefore hl

theorem Overwrite.CutPages.unshadowed {w : Overwrite g o k s} {p q : Page} (h : w.CutPages p q)
    (hun : Unshadowed g w.before.nand.flash) : Unshadowed g w.cut.nand.flash := by
  intro c hc p' hp' hl hhdr
  rcases h.flash_cases hp' hl with ⟨-, rfl⟩ | hbefore
  · exact absurd ((Prod.mk.inj h.key).2.symm.trans hhdr) h.pages.found.pos
  · exact hun c hc p' hbefore hl hhdr

/-- With chunk groups of more than one page the serial number is the next one. -/
theorem Overwrite.serial_next (w : Overwrite g o k s) (hgrp : g.chunkGrpSize ≠ 1) :
    w.cut.serial w.new % 4 = (w.before.serial w.old + 1) % 4 := by
  rw [w.serial_new]
  unfold newSerial
  dsimp only
  rw [if_neg hgrp]
  omega

/-- The scan takes the new page. -/
theorem Overwrite.CutPages.keptPage_eq {w : Overwrite g o k s} {p q : Page} (h : w.CutPages p q) (hw : w.Recoverable) :
    keptPage g.toParam w.cut.nand.flash w.cut.serial w.cut.nand.markedBad o k = some w.new := by
  have hser : (w.cut.serial w.old + 1) % 4 = w.cut.serial w.new % 4 := by
    rw [w.serial_others w.old h.inUse, w.serial_next hw.group]
  refine foldl_keptNext_two hser ?_ _ none (.inl rfl) (mem_pagesMet h.mem h.lands.good h.lands.behind) fun c hc hm => ?_
  · rw [h.flash_new, Option.any_some]
    simp [tagsMatch, (Prod.mk.inj h.key).1, (Prod.mk.inj h.key).2, h.pages.page.unmarked]
  · cases hp' : w.cut.nand.flash c with
    | none => simp [hp'] at hm
    | some p' =>
      have hmp : tagsMatch p'.tags o k = true := by simpa [hp'] using hm
      have hl : p'.tags.isDeleted = false := by
        simp only [tagsMatch, Bool.and_eq_true, Bool.not_eq_true'] at hmp
        exact hmp.2
      rcases h.flash_cases hp' hl with ⟨rfl, -⟩ | hbefore
      · exact .inr rfl
      · refine .inl (hw.only c (pagesMet_mem hc) ?_)
        rw [hbefore, Option.any_some]
        exact hmp

/-- Power may be lost during an overwrite that is recoverable. -/
theorem Overwrite.CutPages.survives {w : Overwrite g o k s} {p q : Page} (h : w.CutPages p q) (hw : w.Recoverable) :
    w.Survives := by
  intro e m halloc hreader hquery
  obtain ⟨ty, hty⟩ := hw.typed
  have hscan : Scannable g m w.cut.nand.flash w.cut.serial ty :=
    ⟨hw.group, hreader, h.typed hty, h.fits hw.fits⟩
  have hgoes := scanForwards_goes (e := e) hscan (h.unshadowed hw.unshadowed) h.pages.found.pos hquery
    (b := w.cut.toBlockDev) rfl (o := o)
  rw [h.keptPage_eq hw] at hgoes
  rcases hgoes with ⟨hok, hrec⟩ | ⟨-, n, hn⟩
  · obtain ⟨hbit, hflash⟩ := hrec.used w.new rfl
    refine ⟨hok, hrec.found, hbit, hflash, eq_false_of_ne_true fun hold => h.ne ?_⟩
    refine (Option.some.inj (hrec.only w.old hold ?_)).symm
    have hcut : w.cut.nand.flash w.old = some p := by
      have hkept : w.cut.kept w.old = some p := by
        rw [h.pages.wrote.kept, Function.update_of_ne h.ne]
        exact h.pages.found.kept
      exact (kept_eq_some.mp hkept).2.1
    have hkey := h.pages.found.key
    rw [hcut, Option.any_some]
    simp [tagsMatch, (Prod.mk.inj hkey).1, (Prod.mk.inj hkey).2, h.pages.found.owned.unmarked]
  · exact absurd hn (by simp [halloc n])

/-- In every run each recoverable overwrite is written with the next serial number, and survives. -/
theorem overwrites_survive (hy : g.isYaffs2 = false) : OverwritesSurvive g o k fun _ w => w.Recoverable := by
  intro s hrun w hw
  have hset : Settled g w.before.toDev := by
    rw [w.collected]
    exact OverwriteRun.behindGc hrun.settled w.gcEnv
  obtain ⟨p, q, hcut⟩ := w.cutPages hset hy hw
  exact ⟨w.serial_next hw.group, hcut.survives hw⟩

end

/-! ## Groups of one page -/

/-- A yaffs1 device of 6 blocks of 2 chunks, whose chunk groups have one page. -/
def yaffs1Geometry : Geometry where
  toParam := { tinyGeometry.toParam with isYaffs2 := false }
  two_le_chunksPerBlock := by decide
  two_le_nReservedBlocks := by decide
  startBlock_pos := by decide
  endBlock_gt := by decide
  chunkGrpSize_le := by decide
  objHdrSize_le := by decide
  chunks_lt := by decide

/-- A fresh device, on which the file `257` has been made. -/
def fileDev (g : Geometry) : Dev :=
  (updateOh g okEnv 257 (some ['a']) true false 0 (setupObj 257 objectIdRoot .file ['a'] 0 none
    (newObj g okEnv .file (freshDev g fun _ => false)).1)).1

/-- Its chunk 1 has been written as well. -/
def chunkDev (g : Geometry) : Dev :=
  (wrDataChunk g okEnv 257 1 (List.replicate g.dataBytesPerChunk 0) g.dataBytesPerChunk false (fileDev g)).1

theorem chunkDev_settled (hnew : (newObj g okEnv .file (freshDev g fun _ => false)).2 = some 257) :
    Settled g (chunkDev g) := by
  have hfresh : Settled g (freshDev g fun _ => false) :=
    ⟨freshDev_inv g _ _, fun o ho => absurd ho (by simp [freshDev])⟩
  obtain ⟨hset, hlive⟩ := newObj_settled hfresh hnew
  obtain ⟨hset, hlive⟩ := setupObj_settled hset hlive objectIdRoot ['a'] 0 none
  obtain ⟨hset, hlive⟩ := updateOh_settled (e := okEnv) hset hlive (some ['a']) true false 0
  exact wrDataChunk_settled hset hlive (by decide) fun _ _ => List.length_replicate ..

/-- What writing the chunk again programs. -/
def secondWrite (g : Geometry) (d : Dev) : Dev × Option ℕ :=
  programData g okEnv 257 1 (List.replicate g.dataBytesPerChunk 1) g.dataBytesPerChunk false (checkGc g okEnv false d)

/-- That overwrite, of the page `old` by the page `new`. -/
def sampleOverwrite (g : Geometry) (d : Dev) (stale old new : ℕ)
    (hfound : findChunkInFile g (checkGc g okEnv false d) 257 1 = some old) (hnew : (secondWrite g d).2 = some new)
    (hfree : (checkGc g okEnv false d).chunkBits new = false) : Overwrite g 257 1 ⟨d, fun _ => 1⟩ where
  gcEnv := okEnv
  e := okEnv
  data := List.replicate g.dataBytesPerChunk 1
  nBytes := g.dataBytesPerChunk
  useReserve := false
  stale := stale
  before := ⟨checkGc g okEnv false d, fun _ => 1⟩
  cut := ⟨(secondWrite g d).1, Function.update (fun _ => 1) new (newSerial g.toParam stale (some old) fun _ => 1)⟩
  old := old
  new := new
  length := List.length_replicate ..
  collected := rfl
  found := hfound
  programmed := Prod.ext rfl hnew
  serial_new := Function.update_self new _ fun _ => 1
  serial_others c hc := by
    have hne : c ≠ new := by
      rintro rfl
      exact Bool.false_ne_true (hfree.symm.trans hc)
    exact Function.update_of_ne hne _ (fun _ => 1)

/-- With chunk groups of one page the serial number need not be the next one. -/
theorem overwrites_lost : ¬∀ g : Geometry, g.isYaffs2 = false → ∀ o k, OverwritesSurvive g o k fun _ _ => True := by
  intro h
  have hrun : OverwriteRun yaffs1Geometry 257 1 ⟨chunkDev yaffs1Geometry, fun _ => 1⟩ :=
    .start (chunkDev_settled (by decide +kernel))
  have hnext := (h yaffs1Geometry rfl 257 1 _ hrun (sampleOverwrite yaffs1Geometry _ 3 3 4 (by decide +kernel)
    (by decide +kernel) (by decide +kernel)) trivial).1
  exact absurd hnext (by decide +kernel)

/-! ## Groups of two pages -/

/-- A device whose chunk numbers take 17 bits, so that its chunk groups have two pages. -/
def pairGeometry : Geometry where
  toParam := { yaffs1Geometry.toParam with wideTnodesDisabled := true, startBlock := 32768, endBlock := 32774 }
  two_le_chunksPerBlock := by decide
  two_le_nReservedBlocks := by decide
  startBlock_pos := by decide
  endBlock_gt := by decide
  chunkGrpSize_le := by decide
  objHdrSize_le := by decide
  chunks_lt := by decide

/-- The overwrite of the page `65537` by the page `65538`. -/
def pairOverwrite : Overwrite pairGeometry 257 1 ⟨chunkDev pairGeometry, fun _ => 1⟩ :=
  sampleOverwrite pairGeometry (chunkDev pairGeometry) 0 65537 65538 (by decide +kernel) (by decide +kernel)
    (by decide +kernel)

/-- The header of the file and its chunk. -/
theorem pairOverwrite_pages {c : ℕ} {p : Page} (hp : pairOverwrite.before.nand.flash c = some p) :
    c = 65536 ∧ p.key = (257, 0) ∧ p.data.objHdr = { type := .file, parentObjId := 1, name := ['a'], equivId := 2 ^ 32 - 1 } ∨
      c = 65537 ∧ p.key = (257, 1) := by
  have hflash : pairOverwrite.before.nand.flash = Function.update (Function.update (fun _ => none)
      65536 (pairOverwrite.before.nand.flash 65536)) 65537 (pairOverwrite.before.nand.flash 65537) := rfl
  rw [hflash] at hp
  rcases eq_or_ne c 65537 with rfl | h1
  · rw [Function.update_self] at hp
    obtain rfl : _ = p := Option.some.inj hp
    exact .inr ⟨rfl, rfl⟩
  rw [Function.update_of_ne h1] at hp
  rcases eq_or_ne c 65536 with rfl | h0
  · rw [Function.update_self] at hp
    obtain rfl : _ = p := Option.some.inj hp
    exact .inl ⟨rfl, rfl, rfl⟩
  rw [Function.update_of_ne h0] at hp
  simp at hp

theorem pairOverwrite_recoverable : pairOverwrite.Recoverable where
  group := by decide
  programs := ⟨fun _ => rfl, fun _ => rfl, fun _ => rfl⟩
  writable := by
    refine ⟨fun b _ => ?_, fun b hb => ?_⟩
    · exact congrFun (show pairOverwrite.before.nand.markedBad = fun _ => false from rfl) b
    · have hnone : pairOverwrite.before.alloc.block = none := rfl
      exact absurd (hnone.symm.trans hb) (by simp)
  typed := by
    refine ⟨fun x => if x = 257 then .file else .directory, by decide, fun c _ p hp _ => ?_, fun c _ p hp _ hk => ?_,
      fun c _ p hp _ hk => ?_, fun c _ p hp _ hk _ => ?_⟩
    all_goals rcases pairOverwrite_pages hp with ⟨rfl, hkey, hdata⟩ | ⟨rfl, hkey⟩
    all_goals obtain ⟨hpo, hpk⟩ := Prod.mk.inj hkey
    · rw [hpo]
      decide
    · rw [hpo]
      decide
    · exact absurd hpk hk
    · rw [hpo]
      rfl
    · rw [hpo, hdata]
      rfl
    · exact absurd (hpk.symm.trans hk) (by decide)
    · rw [hdata]
      decide
    · exact absurd (hpk.symm.trans hk) (by decide)
  fits c _ p hp _ := by
    rcases pairOverwrite_pages hp with ⟨rfl, hkey, -⟩ | ⟨rfl, hkey⟩
    all_goals
      obtain ⟨hpo, hpk⟩ := Prod.mk.inj hkey
      rw [hpo, hpk]
      decide
  unshadowed c _ p hp _ hk := by
    rcases pairOverwrite_pages hp with ⟨rfl, -, hdata⟩ | ⟨rfl, hkey⟩
    · rw [hdata]
      decide
    · exact absurd ((Prod.mk.inj hkey).2.symm.trans hk) (by decide)
  only c _ hm := by
    cases hp : pairOverwrite.before.nand.flash c with
    | none => simp [hp] at hm
    | some p =>
      rw [hp, Option.any_some] at hm
      rcases pairOverwrite_pages hp with ⟨rfl, hkey, -⟩ | ⟨rfl, hkey⟩
      · simp [tagsMatch, (Prod.mk.inj hkey).2] at hm
      · rfl

/-- It is written with the next serial number, and survives. -/
theorem pairOverwrite_survives : pairOverwrite.cut.serial 65538 % 4 = 2 ∧ pairOverwrite.Survives := by
  have hrun : OverwriteRun pairGeometry 257 1 ⟨chunkDev pairGeometry, fun _ => 1⟩ :=
    .start (chunkDev_settled (by decide +kernel))
  exact overwrites_survive rfl _ hrun pairOverwrite pairOverwrite_recoverable

end Yaffs
