import Yaffs.Evolve
import Yaffs.Progress

/-!
# Writing a chunk of a file

`yaffs_wr_data_obj` behind its gc : the tnode of the chunk, the new page, and the deletion of the old
page if there is one. The core is between two calls before and after (`wrDataChunk_settled`).
-/

namespace Yaffs

open Tally

variable {g : Geometry} {e : Env} {o k : ℕ}

/-- A file that may be written. -/
structure LiveFile (d : Dev) (o : ℕ) : Prop where
  id : o ∈ d.ids
  notFreed : (d.obj o).deferredFree = false
  isFile : (d.obj o).variantType = .file
  notSoft : (d.obj o).softDel = false

/-- `yaffs_wr_data_obj` behind its gc, up to the programming of the new page. -/
def programData (g : Geometry) (e : Env) (o k : ℕ) (data : List UInt8) (nBytes : ℕ) (useReserve : Bool) (d : Dev) :
    Dev × Option ℕ :=
  let r := if (findChunkInFile g d o k).isNone then putChunkInFile g e o k 0 d else (d, true)
  if r.2 then
    (r.1.modFile o (raiseStoredSize g k nBytes)).onBlocks
      (writeNewChunk g e (.bytes data) (dataTags o k nBytes) useReserve)
  else (r.1, none)

/-- What is left of `yaffs_wr_data_obj` once the page has been programmed ... -/
theorem wrDataChunk_of_programData {data : List UInt8} {nBytes c : ℕ} {useReserve : Bool} {d : Dev}
    (h : (programData g e o k data nBytes useReserve d).2 = some c) :
    wrDataChunk g e o k data nBytes useReserve d =
      (replaceChunk g e o k (findChunkInFile g d o k) c (programData g e o k data nBytes useReserve d).1, some c) := by
  unfold wrDataChunk
  unfold programData at h ⊢
  dsimp only at h ⊢
  generalize (if (findChunkInFile g d o k).isNone then putChunkInFile g e o k 0 d else (d, true)) = r at h ⊢
  cases hr : r.2 with
  | false => simp [hr] at h
  | true =>
    simp only [hr, if_true] at h ⊢
    rw [h]

/-- ... and when there is none. -/
theorem wrDataChunk_of_noPage {data : List UInt8} {nBytes : ℕ} {useReserve : Bool} {d : Dev}
    (h : (programData g e o k data nBytes useReserve d).2 = none) :
    (wrDataChunk g e o k data nBytes useReserve d).1 = (programData g e o k data nBytes useReserve d).1 := by
  unfold wrDataChunk
  unfold programData at h ⊢
  dsimp only at h ⊢
  generalize (if (findChunkInFile g d o k).isNone then putChunkInFile g e o k 0 d else (d, true)) = r at h ⊢
  cases hr : r.2 with
  | false => rfl
  | true =>
    simp only [hr, if_true] at h ⊢
    rw [h]

/-! ## The file -/

theorem raiseStoredSize_file (p : Param) (k nBytes : ℕ) (f : FileVar) :
    (∀ k', (raiseStoredSize p k nBytes f).find k' = f.find k') ∧
      (raiseStoredSize p k nBytes f).topLevel = f.topLevel := by
  unfold raiseStoredSize
  dsimp only
  split_ifs <;> exact ⟨fun _ => rfl, rfl⟩

section

variable {d : Dev} {bd : BlockDev}

/-- The tree of the file changes, and holds what it held. -/
theorem Settled.setFile (h : Settled g d) (hb : CountsOnly d.toBlockDev bd) (hlive : LiveFile d o) {f : FileVar}
    (hentry : ∀ k', f.entry k' = (d.obj o).file.entry k')
    (hlevel : (d.obj o).file.topLevel ≤ tnodesMaxLevel → f.topLevel ≤ tnodesMaxLevel) :
    Settled g ({ d with toBlockDev := bd }.modFile o fun _ => f) ∧
      LiveFile ({ d with toBlockDev := bd }.modFile o fun _ => f) o := by
  refine ⟨⟨(h.inv.countsOnly hb).modObj ⟨rfl, rfl, rfl, rfl, rfl, fun hd => hd, hentry, hlevel⟩, ?_⟩, ?_⟩
  · refine h.clean.mono rfl fun o' ho' hs' => ⟨ho', ?_⟩
    have hoo : o' ≠ o := by
      rintro rfl
      simp [hlive.notSoft] at hs'
    simpa [Dev.modFile, Dev.modObj, hoo] using hs'
  · obtain ⟨h1, h2, h3, h4⟩ := hlive
    exact ⟨h1, by simpa [Dev.modFile, Dev.modObj] using h2, by simpa [Dev.modFile, Dev.modObj] using h3,
      by simpa [Dev.modFile, Dev.modObj] using h4⟩

theorem Settled.wrote (h : Settled g d) (hw : Wrote g noTransit anyBlock d.toBlockDev bd d.kept) :
    Settled g { d with toBlockDev := bd } :=
  ⟨h.inv.wrote hw, h.clean⟩

/-- The tnode of a chunk is added. -/
theorem putChunkInFile_tnode (h : Settled g d) (hlive : LiveFile d o) (k : ℕ) :
    let r := putChunkInFile g e o k 0 d
    Settled g r.1 ∧ LiveFile r.1 o ∧ r.1.kept = d.kept ∧ (∀ k', (r.1.obj o).file.entry k' = (d.obj o).file.entry k') ∧
      (r.2 = true → (r.1.obj o).file.Has k) := by
  obtain ⟨hcounts, hadd, hhas⟩ := FileVar.addFind_spec (e := e) (d.obj o).file k d.toBlockDev
  unfold putChunkInFile
  rw [if_neg (by simp [hlive.isFile])]
  generalize (d.obj o).file.addFind e k d.toBlockDev = r at hcounts hadd hhas ⊢
  obtain ⟨bd, f, ok⟩ := r
  obtain ⟨hset, hlive'⟩ := h.setFile hcounts hlive hadd.entry hadd.level
  have hfile : ((({ d with toBlockDev := bd } : Dev).modFile o fun _ => f).obj o).file = f := by
    simp [Dev.modFile, Dev.modObj]
  cases ok with
  | false =>
    refine ⟨hset, hlive', hcounts.kept, fun k' => ?_, fun hok => absurd hok Bool.false_ne_true⟩
    exact (congrArg (FileVar.entry · k') hfile).trans (hadd.entry k')
  | true =>
    refine ⟨hset, hlive', hcounts.kept, fun k' => ?_, fun _ => ?_⟩
    · exact (congrArg (FileVar.entry · k') hfile).trans (hadd.entry k')
    · exact (congrArg (FileVar.Has · k) hfile).mpr (hhas rfl)

/-- A new page gets into the file, and the old one is deleted. -/
theorem replaceChunk_settled (h : Settled g d) (hlive : LiveFile d o) (hk : k ≠ 0) (hhas : (d.obj o).file.Has k)
    {data : List UInt8} (hlen : data.length = g.dataBytesPerChunk) {nBytes c : ℕ} {q : Page}
    (hq : PageOf (.bytes data) (dataTags o k nBytes) q) (hunused : d.kept c = none)
    (hw : Wrote g noTransit anyBlock d.toBlockDev bd (Function.update d.kept c (some q))) :
    Settled g (replaceChunk g e o k (findChunkInFile g d o k) c { d with toBlockDev := bd }) := by
  have hmem := hw.mem_chunks (c := c) (p := q) (by simp)
  have hc : c ≠ 0 := fun h0 => zero_not_mem_chunks (h0 ▸ hmem)
  have hqkey : q.key = (o, k) := Prod.ext hq.objId hq.chunkId
  have hclean : ∀ (bd : BlockDev) (f : FileVar) (n : ℤ), CleanList { d with
      toBlockDev := bd, obj := Function.update d.obj o { d.obj o with file := f, nDataChunks := n } } := by
    intro bd f n
    refine h.clean.mono rfl fun o' ho' hs' => ⟨ho', ?_⟩
    have hoo : o' ≠ o := by
      rintro rfl
      simp [hlive.notSoft] at hs'
    simpa [hoo] using hs'
  have hown : Ownable d o k q := ⟨hqkey, hlive.id, hlive.notFreed, hq.unmarked⟩
  have hdata : ∃ bs, q.data = .bytes bs ∧ bs.length = g.dataBytesPerChunk := ⟨data, hq.data, hlen⟩
  unfold replaceChunk
  rw [putChunkInFile_has (d := { d with toBlockDev := bd }) hlive.isFile hhas hc]
  rcases findChunkInFile_cases h.inv.own o k with ⟨old, p, hfound, hp, hkey, -, hentry⟩ | ⟨hnone, hentry⟩
  · have hpage := h.inv.own.page old p hp
    have hne : (d.obj o).file.entry k ≠ 0 := hentry ▸ groupOf_ne_zero hpage.mem
    have hpo : p.tags.objId = o := (Prod.mk.inj hkey).1
    have hs : softOf d.kept d.obj old = false := by simp [softOf, hp, hpo, hlive.notSoft]
    obtain ⟨hacc, hkept⟩ := h.inv.acc.swap (e := e) hw hunused hp hs true
    rw [hfound]
    refine ⟨h.inv.swapData (p := q) hown hk hdata hlive.isFile hlive.notSoft hunused hmem ?_ ?_
      (FileVar.entry_load hhas · _) (h.inv.own.level o) ?_ hacc hkept, hclean _ _ _⟩
    · exact fun c' q' hq' hkey' => h.inv.own.unique _ _ _ _ hq' hp (hkey'.trans hkey.symm)
    · exact fun q' hq' => Option.some.inj (hp.symm.trans hq') ▸ hkey
    · simp [hp, hne]
  · rw [hnone]
    have hzero := h.inv.own.zero_none
    have hkept : bd.kept = replacePage d.kept 0 c q := by rw [hw.kept, replacePage_zero hzero]
    refine ⟨h.inv.swapData (p := q) hown hk hdata hlive.isFile hlive.notSoft hunused hmem ?_ ?_
      (FileVar.entry_load hhas · _) (h.inv.own.level o) ?_ (h.inv.acc.wrote hw) hkept, hclean _ _ _⟩
    · intro c' q' hq' hkey'
      have hpage := h.inv.own.page c' q' hq'
      rw [(Prod.mk.inj hkey').1] at hpage
      have hgroup := (hpage.data ((Prod.mk.inj hkey').2 ▸ hk)).2.2 hlive.notSoft
      rw [(Prod.mk.inj hkey').2, hentry] at hgroup
      exact absurd hgroup.symm (groupOf_ne_zero hpage.mem)
    · exact fun q' hq' => absurd (hzero.symm.trans hq') (by simp)
    · simp [hzero, hentry]

/-- The device for which the page is programmed : the file has a tnode for the chunk, and its stored size
is raised. -/
structure TnodeReady (g : Geometry) (o k : ℕ) (d d' : Dev) : Prop where
  settled : Settled g d'
  live : LiveFile d' o
  found : findChunkInFile g d' o k = findChunkInFile g d o k
  has : (d'.obj o).file.Has k

theorem TnodeReady.raise {d' : Dev} (h : TnodeReady g o k d d') (nBytes : ℕ) :
    TnodeReady g o k d (d'.modFile o (raiseStoredSize g k nBytes)) := by
  obtain ⟨hfind, hlevel⟩ := raiseStoredSize_file g.toParam k nBytes (d'.obj o).file
  obtain ⟨hset, hlive⟩ := h.settled.setFile (CountsOnly.refl _) h.live
    (fun k' => congrArg (Option.getD · 0) (hfind k')) fun hl => hlevel.trans_le hl
  have hfile : ((d'.modFile o (raiseStoredSize g k nBytes)).obj o).file = raiseStoredSize g k nBytes (d'.obj o).file := by
    simp [Dev.modFile, Dev.modObj]
  have hkeep : ((d'.modFile o (raiseStoredSize g k nBytes)).obj o).file.find k = (d'.obj o).file.find k := by
    rw [hfile, hfind]
  refine ⟨hset, hlive, ?_, hkeep.trans_ne h.has⟩
  rw [← h.found]
  exact congrArg (Option.bind · fun v => findChunkInGroup g d'.toBlockDev (groupBase g v) o k) hkeep

theorem withTnode_ready (h : Settled g d) (hlive : LiveFile d o) (k : ℕ) {r : Dev × Bool}
    (hr : (if (findChunkInFile g d o k).isNone then putChunkInFile g e o k 0 d else (d, true)) = r) :
    Settled g r.1 ∧ (r.2 = true → TnodeReady g o k d r.1) := by
  subst hr
  rcases findChunkInFile_cases h.inv.own o k with ⟨old, p, hfound, hp, hkey, -, hentry⟩ | ⟨hnone, hentry⟩
  · rw [hfound]
    refine ⟨h, fun _ => ⟨h, hlive, rfl, FileVar.has_of_entry ?_⟩⟩
    exact hentry ▸ groupOf_ne_zero (h.inv.own.page old p hp).mem
  · rw [hnone]
    obtain ⟨h1, h2, h3, h4, h5⟩ := putChunkInFile_tnode (e := e) h hlive k
    exact ⟨h1, fun hok => ⟨h1, h2, (findChunkInFile_eq_none ((h4 k).trans hentry)).trans hnone.symm, h5 hok⟩⟩

/-- Writing a chunk of a file, whether there is an old page or not, and whether there is space or not. -/
theorem wrDataChunk_settled (h : Settled g d) (hlive : LiveFile d o) (hk : k ≠ 0) {data : List UInt8} {nBytes : ℕ}
    {useReserve : Bool} (hlen : ∀ c, (programData g e o k data nBytes useReserve d).2 = some c →
      data.length = g.dataBytesPerChunk) : Settled g (wrDataChunk g e o k data nBytes useReserve d).1 := by
  have htnode := fun r => withTnode_ready (e := e) h hlive k (r := r)
  have hid : o ≠ objectIdSummary := h.inv.own.ids_ne o hlive.id
  cases hres : (programData g e o k data nBytes useReserve d).2 with
  | none =>
    rw [wrDataChunk_of_noPage hres]
    unfold programData at hres ⊢
    dsimp only at hres ⊢
    generalize (if (findChunkInFile g d o k).isNone then putChunkInFile g e o k 0 d else (d, true)) = r at hres htnode ⊢
    obtain ⟨hset, hready⟩ := htnode r rfl
    cases hok : r.2 with
    | false => exact hset
    | true =>
      simp only [hok, if_true] at hres ⊢
      have hraised := (hready hok).raise nBytes
      have hspec := writeNewChunk_spec (e := e) hraised.settled.inv.acc.ready (.bytes data) (t := dataTags o k nBytes) rfl
        hid useReserve
      rw [show (writeNewChunk g e _ _ useReserve (Dev.toBlockDev _)).2 = none from hres] at hspec
      exact hraised.settled.wrote hspec
  | some c =>
    have hlen := hlen c hres
    rw [wrDataChunk_of_programData hres]
    unfold programData at hres ⊢
    dsimp only at hres ⊢
    generalize (if (findChunkInFile g d o k).isNone then putChunkInFile g e o k 0 d else (d, true)) = r at hres htnode ⊢
    obtain ⟨hset, hready⟩ := htnode r rfl
    cases hok : r.2 with
    | false => simp [hok] at hres
    | true =>
      simp only [hok, if_true] at hres ⊢
      have hraised := (hready hok).raise nBytes
      have hspec := writeNewChunk_spec (e := e) hraised.settled.inv.acc.ready (.bytes data) (t := dataTags o k nBytes) rfl
        hid useReserve
      rw [show (writeNewChunk g e _ _ useReserve (Dev.toBlockDev _)).2 = some c from hres] at hspec
      obtain ⟨hunused, -, q, hq, hw⟩ := hspec
      rw [← hraised.found]
      exact replaceChunk_settled hraised.settled hraised.live hk hraised.has hlen hq hunused hw

/-! ## A new file -/

/-- An object that owns nothing. -/
structure Obj.Plain (ob : Obj) : Prop where
  hdrChunk : ob.hdrChunk = 0
  nDataChunks : ob.nDataChunks = 0
  notSoft : ob.softDel = false
  entry : ∀ k, ob.file.entry k = 0
  level : ob.file.topLevel ≤ tnodesMaxLevel

/-- An object that is not in the hash table has no page, and may become one that owns nothing. -/
theorem Own.setUnhashed {K : Pages} {ids : List ℕ} {obj obj' : ℕ → Obj} (h : Own g K ids obj) (hid : o ∉ ids)
    (hob : (obj' o).Plain) (hother : ∀ o', o' ≠ o → obj' o' = obj o') : Own g K ids obj' := by
  have hpage : ∀ c p, K c = some p → p.tags.objId ≠ o := fun c p hp ho => hid (ho ▸ (h.page c p hp).id)
  refine ⟨h.nodup, h.ids_ne, fun c p hp => hother _ (hpage c p hp) ▸ h.page c p hp, h.unique, fun o' => ?_,
    fun o' k => ?_, fun o' => ?_, fun o' => ?_, fun o' => ?_⟩
  all_goals rcases eq_or_ne o' o with rfl | ho'
  · exact fun hne => absurd hob.hdrChunk hne
  · exact hother o' ho' ▸ h.hdr o'
  · exact fun hne => absurd (hob.entry k) hne
  · exact hother o' ho' ▸ h.entry o' k
  · exact fun hs => absurd (hob.notSoft.symm.trans hs) Bool.false_ne_true
  · exact hother o' ho' ▸ h.soft o'
  · refine hob.nDataChunks.trans (tally_zero fun c _ => ?_).symm
    cases hp : K c with
    | none => rfl
    | some p => simp [dataWeight, hpage c p hp]
  · exact hother o' ho' ▸ h.count o'
  · exact hob.level
  · exact hother o' ho' ▸ h.level o'

theorem Settled.setUnhashed (h : Settled g d) (hid : o ∉ d.ids) {f : Obj → Obj} (hf : (f (d.obj o)).Plain) :
    Settled g (d.modObj o f) := by
  have hother : ∀ o', o' ≠ o → (d.modObj o f).obj o' = d.obj o' := fun o' ho' => Function.update_of_ne ho' ..
  have hself : ((d.modObj o f).obj o).Plain := by simpa [Dev.modObj] using hf
  have hsoft : softOf d.kept (d.modObj o f).obj = softOf d.kept d.obj := by
    funext c
    unfold softOf
    cases hp : d.kept c with
    | none => rfl
    | some p =>
      have hne : p.tags.objId ≠ o := fun ho => hid (ho ▸ (h.inv.own.page c p hp).id)
      rw [Option.any_some, Option.any_some, hother _ hne]
  refine ⟨⟨?_, h.inv.own.setUnhashed hid hself hother⟩, fun o' ho' => ?_⟩
  · change Accounts g noTransit (softOf d.kept (d.modObj o f).obj) d.toBlockDev
    rw [hsoft]
    exact h.inv.acc
  · have hmem := h.clean o' ho'
    rw [hother o' fun hoo => hid (hoo ▸ hmem.1)]
    exact hmem

theorem Settled.setNObj (h : Settled g d) (n : ℕ) : Settled g { d with nObj := n } := by
  obtain ⟨⟨hblk, hopn, hfree, hcheckpt, hprog⟩, hown⟩ := h.inv
  exact ⟨⟨⟨{ hblk with }, { hopn with }, { hfree with }, hcheckpt, hprog⟩, hown⟩, h.clean⟩

theorem Settled.hashObj (h : Settled g d) (hid : o ∉ d.ids) (hne : o ≠ objectIdSummary) : Settled g (hashObj o d) := by
  have hown := h.inv.own
  refine ⟨⟨h.inv.acc, { hown with nodup := ?_, ids_ne := ?_, page := ?_ }⟩, ?_⟩
  · exact List.nodup_cons.mpr ⟨hid, hown.nodup⟩
  · exact List.forall_mem_cons.mpr ⟨hne, hown.ids_ne⟩
  · exact fun c p hp => { hown.page c p hp with id := List.mem_cons_of_mem o (hown.page c p hp).id }
  · exact h.clean.mono rfl fun o' ho' hs => ⟨List.mem_cons_of_mem o ho', hs, le_rfl⟩

theorem Moved.settled {d' : Dev} (hm : Moved o d d') (h : Settled g d) : Settled g d' :=
  ⟨hm.inv h.inv, hm.clean h.clean⟩

theorem Settled.countsOnly (h : Settled g d) (hd : CountsOnly d.toBlockDev bd) : Settled g { d with toBlockDev := bd } :=
  ⟨h.inv.countsOnly hd, h.clean⟩

theorem findNiceBucketLoop_eq (n : ℕ) : ∀ (lowest l : ℕ) (d : Dev),
    ∃ b, (findNiceBucketLoop n lowest l d).1 = { d with bucketFinder := b } := by
  induction n with
  | zero => exact fun _ _ d => ⟨d.bucketFinder, rfl⟩
  | succ n ih =>
    intro lowest l d
    unfold findNiceBucketLoop
    dsimp only
    split_ifs
    · exact ih _ _ _
    · exact ih _ _ _
    · exact ⟨d.bucketFinder, rfl⟩

theorem nObjectBuckets_le_newObjIdLoop (ids : List ℕ) (fuel : ℕ) : ∀ n, nObjectBuckets ≤ newObjIdLoop ids fuel n := by
  induction fuel with
  | zero => exact fun n => Nat.le_add_left _ _
  | succ fuel ih =>
    intro n
    unfold newObjIdLoop
    split_ifs
    · exact ih _
    · exact Nat.le_add_left _ _

/-- A number for a new object : the device has no object of that number. -/
theorem newObjId_settled (h : Settled g d) : Settled g (newObjId d).1 ∧ (newObjId d).1.ids = d.ids ∧
    (newObjId d).2 ∉ d.ids ∧ (newObjId d).2 ≠ objectIdSummary := by
  obtain ⟨b, hb⟩ := findNiceBucketLoop_eq 10 999999 999 d
  have hdev : (newObjId d).1 = { d with bucketFinder := b } := hb
  have hnot := newObjId_notMem d
  rw [hdev] at hnot ⊢
  refine ⟨⟨⟨h.inv.acc, h.inv.own⟩, h.clean⟩, rfl, hnot, ?_⟩
  have := nObjectBuckets_le_newObjIdLoop (newObjId d).1.ids (newObjId d).1.ids.length (findNiceBucket d).2
  change nObjectBuckets ≤ (newObjId d).2 at this
  intro heq
  rw [heq] at this
  exact absurd this (by decide)

/-- A new object owns nothing. -/
theorem emptyObj_settled (h : Settled g d) (hid : o ∉ d.ids) :
    let x := d.modObj o fun _ => { parent := some objectIdRoot }
    let y := x.modObj objectIdRoot fun ob => { ob with children := o :: ob.children }
    let z := addObjToDir objectIdLostNFound o { y with nObj := y.nObj + 1 }
    Settled g z ∧ z.ids = d.ids ∧ ({ parent := some objectIdRoot } : Obj).SameOwner (z.obj o) := by
  intro x y z
  have hx : Settled g x := h.setUnhashed (f := fun _ => { parent := some objectIdRoot }) hid
    ⟨rfl, rfl, rfl, fun _ => by simp [FileVar.entry, FileVar.find], Nat.zero_le _⟩
  have hself : x.obj o = { parent := some objectIdRoot } := by simp [x, Dev.modObj]
  have hroot : Moved o x y := Moved.modChildren (by simp)
  have hdir : Moved o { y with nObj := y.nObj + 1 } z := addObjToDir_moved objectIdLostNFound o _
  exact ⟨hdir.settled ((hroot.settled hx).setNObj _), hdir.ids.trans hroot.ids,
    hself ▸ Moved.sameOwner_trans (hroot.same o) (hdir.same o)⟩

theorem allocEmptyObj_settled (h : Settled g d) (hid : o ∉ d.ids) :
    Settled g (allocEmptyObj e o d).1 ∧ (allocEmptyObj e o d).1.ids = d.ids ∧
      ((allocEmptyObj e o d).2 = true →
        ({ parent := some objectIdRoot } : Obj).SameOwner ((allocEmptyObj e o d).1.obj o)) := by
  have hset : Settled g (d.mapBlocks fun b => { b with nand := { b.nand with calls := b.nand.calls + 1 } }) :=
    h.countsOnly ⟨_, _, rfl⟩
  unfold allocEmptyObj
  dsimp only
  cases e.allocOk d.nand.calls with
  | false => exact ⟨hset, rfl, fun hf => absurd hf Bool.false_ne_true⟩
  | true =>
    obtain ⟨h1, h2, h3⟩ := emptyObj_settled hset hid
    exact ⟨h1, h2, fun _ => h3⟩

/-- A new file may be written. -/
theorem newObj_settled {n : ℕ} (h : Settled g d) (hn : (newObj g e .file d).2 = some n) :
    Settled g (newObj g e .file d).1 ∧ LiveFile (newObj g e .file d).1 n := by
  obtain ⟨hnum, hids, hnot, hne⟩ := newObjId_settled h
  unfold newObj at hn ⊢
  simp only [if_true] at hn ⊢
  generalize newObjId d = r at hnum hids hnot hne hn ⊢
  have htnode : Settled g (r.1.onBlocks (getTnode e)).1 := hnum.countsOnly CountsOnly.getTnode
  have hid : r.2 ∉ (r.1.onBlocks (getTnode e)).1.ids := fun hm => hnot (hids ▸ hm)
  obtain ⟨hset, hids', hown⟩ := allocEmptyObj_settled (e := e) htnode hid
  split_ifs at hn ⊢ with h1 h2
  · obtain rfl : r.2 = n := Option.some.inj hn
    have hid' : r.2 ∉ (allocEmptyObj e r.2 (r.1.onBlocks (getTnode e)).1).1.ids := hids' ▸ hid
    have hown := hown h2
    generalize (allocEmptyObj e r.2 (r.1.onBlocks (getTnode e)).1).1 = x at hset hid' hown
    unfold initObj
    refine ⟨(hset.setUnhashed hid' ⟨hown.hdrChunk, hown.nDataChunks, hown.softDel, fun k => ?_, Nat.zero_le _⟩).hashObj
      hid' hne, List.mem_cons_self, ?_, ?_, ?_⟩
    · simp only [if_true, FileVar.entry, FileVar.find]
      split_ifs <;> simp [Tnode.find_empty]
    · simpa [hashObj, Dev.modObj] using hown.deferredFree
    · simp [hashObj, Dev.modObj]
    · simpa [hashObj, Dev.modObj] using hown.softDel

/-- A file gets its name and its directory. -/
theorem setupObj_settled (h : Settled g d) (hlive : LiveFile d o) (parent : ℕ) (name : Name) (equiv : ℕ)
    (str : Option Name) : Settled g (setupObj o parent .file name equiv str d) ∧
      LiveFile (setupObj o parent .file name equiv str d) o := by
  have hmoved := (setObjName_moved o name d).trans (addObjToDir_moved parent o _)
  have hsame := hmoved.same o
  obtain ⟨hid, hfreed, hfile, hsoft⟩ := hlive
  exact ⟨hmoved.settled h, hmoved.ids ▸ hid, hsame.deferredFree.trans hfreed, hsame.variantType.trans hfile,
    hsame.softDel.trans hsoft⟩

/-- The header of a file is written. -/
theorem updateOh_settled (h : Settled g d) (hlive : LiveFile d o) (name : Option Name) (force isShrink : Bool)
    (shadows : ℕ) : Settled g (updateOh g e o name force isShrink shadows d).1 ∧
      LiveFile (updateOh g e o name force isShrink shadows d).1 o := by
  have hcol := updateOh_collected (e := e) notCollecting_noTransit h.inv h.clean hlive.notSoft ⟨hlive.id, hlive.notFreed⟩
    name force isShrink shadows
  have hsoft := (hcol.frame.soft o (by simp)).trans hlive.notSoft
  obtain ⟨hid, hfreed⟩ := hcol.frame.held ⟨hlive.id, hlive.notFreed⟩ (by simp) hlive.notSoft
  have htype := congrArg Obj.variantType (hcol.frame.same o (by simp) hlive.notSoft).attrs
  exact ⟨⟨hcol.inv, hcol.clean h.clean⟩, hid, hfreed, htype.trans hlive.isFile, hsoft⟩

end

end Yaffs
