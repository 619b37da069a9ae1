import Yaffs.Serial

/-!
# What the chunks of files hold

A file store is a map from the chunks of files to bytes, zeros where nothing has been written. Writing a chunk,
pruning one, writing a header and collecting garbage do to the flash what they do to the map : `fileRun_refines`,
over every run of them, whatever the driver and the allocator answer.
-/

namespace Yaffs

variable {g : Geometry} {e : Env} {d d' : Dev} {o o' k k' c : ℕ} {x : PageData}

/-! ## Contents -/

/-- A chunk is kept with one content. -/
theorem Own.content_unique {K : Pages} {ids : List ℕ} {obj : ℕ → Obj} {y : PageData} (h : Own g K ids obj)
    (hx : Content K o k x) (hy : Content K o k y) : x = y := by
  obtain ⟨c, p, hp, hkey, rfl⟩ := hx
  obtain ⟨c', p', hp', hkey', rfl⟩ := hy
  obtain rfl := h.unique _ _ _ _ hp hp' (hkey.trans hkey'.symm)
  rw [Option.some.inj (hp.symm.trans hp')]

/-- A chunk of a file that is not in its tree is not kept. -/
theorem Own.no_content {K : Pages} {ids : List ℕ} {obj : ℕ → Obj} (h : Own g K ids obj) (hk : k ≠ 0)
    (hs : (obj o).softDel = false) (hentry : (obj o).file.entry k = 0) : ¬Content K o k x := by
  rintro ⟨c, p, hp, hkey, -⟩
  obtain ⟨rfl, rfl⟩ := Prod.mk.inj hkey
  have hpage := h.page c p hp
  exact groupOf_ne_zero hpage.mem (((hpage.data hk).2.2 hs).symm.trans hentry)

/-- What is read of a chunk of a file is what is kept for it, or zeros. -/
theorem rdDataObj_cases (h : Own g d.kept d.ids d.obj) (hk : k ≠ 0) (hs : (d.obj o).softDel = false) :
    Content d.kept o k (.bytes (rdDataObj g o k d)) ∨
      (∀ x, ¬Content d.kept o k x) ∧ rdDataObj g o k d = zeroChunk g := by
  unfold rdDataObj
  rcases findChunkInFile_cases h o k with ⟨c, p, hfound, hp, hkey, -, -⟩ | ⟨hnone, hentry⟩
  · obtain ⟨bs, hbs, -⟩ := ((h.page c p hp).data ((Prod.mk.inj hkey).2.trans_ne hk)).2.1
    have hflash : d.nand.flash c = some p := (kept_eq_some.mp hp).2.1
    refine Or.inl ⟨c, p, hp, hkey, ?_⟩
    rw [hfound]
    obtain ⟨t, data⟩ := p
    obtain rfl : data = .bytes bs := hbs
    simp only [hflash, pageBytes]
    rfl
  · rw [hnone]
    exact Or.inr ⟨fun x => h.no_content hk hs hentry, rfl⟩

theorem rdDataObj_of_content (h : Own g d.kept d.ids d.obj) (hk : k ≠ 0) (hs : (d.obj o).softDel = false)
    {bs : List UInt8} (hc : Content d.kept o k (.bytes bs)) : rdDataObj g o k d = bs := by
  rcases rdDataObj_cases h hk hs with hread | ⟨hno, -⟩
  · exact PageData.bytes.inj (h.content_unique hread hc)
  · exact absurd hc (hno _)

theorem rdDataObj_of_no_content (h : Own g d.kept d.ids d.obj) (hk : k ≠ 0) (hs : (d.obj o).softDel = false)
    (hno : ∀ x, ¬Content d.kept o k x) : rdDataObj g o k d = zeroChunk g := by
  rcases rdDataObj_cases h hk hs with hread | ⟨-, hzero⟩
  · exact absurd hread (hno _)
  · exact hzero

/-- What is read depends on what is kept alone. -/
theorem rdDataObj_congr (h : Own g d.kept d.ids d.obj) (h' : Own g d'.kept d'.ids d'.obj) (hk : k ≠ 0)
    (hs : (d.obj o).softDel = false) (hs' : (d'.obj o).softDel = false)
    (hiff : ∀ x, Content d'.kept o k x ↔ Content d.kept o k x) : rdDataObj g o k d' = rdDataObj g o k d := by
  rcases rdDataObj_cases h hk hs with hread | ⟨hno, hzero⟩
  · exact rdDataObj_of_content h' hk hs' ((hiff _).mpr hread)
  · rw [hzero]
    exact rdDataObj_of_no_content h' hk hs' fun x hx => hno x ((hiff x).mp hx)

/-! ## Writing a chunk -/

section Write

variable {data : List UInt8} {nBytes : ℕ} {useReserve : Bool}

/-- A chunk has been written : not for want of space or memory. -/
def chunkWritten (r : Option ℕ) : Bool :=
  r.any fun c => c != 0

theorem withTnode_kept (h : Settled g d) (hlive : LiveFile d o) (k : ℕ) :
    (if (findChunkInFile g d o k).isNone then putChunkInFile g e o k 0 d else (d, true)).1.kept = d.kept := by
  split_ifs
  · exact (putChunkInFile_tnode h hlive k).2.2.1
  · rfl

/-- The page of a chunk has been programmed, and is not in its file yet. -/
structure NewPage (g : Geometry) (o k : ℕ) (data : List UInt8) (nBytes c : ℕ) (d x y : Dev) (q : Page) :
    Prop where
  ready : TnodeReady g o k d x
  kept : x.kept = d.kept
  page : PageOf (.bytes data) (dataTags o k nBytes) q
  unused : x.kept c = none
  eq : y = { x with toBlockDev := y.toBlockDev }
  wrote : Wrote g noTransit anyBlock x.toBlockDev y.toBlockDev (Function.update x.kept c (some q))

theorem programData_none (h : Settled g d) (hlive : LiveFile d o)
    (hres : (programData g e o k data nBytes useReserve d).2 = none) :
    (programData g e o k data nBytes useReserve d).1.kept = d.kept ∧
      chunkWritten (wrDataChunk g e o k data nBytes useReserve d).2 = false := by
  have hkept := withTnode_kept (e := e) h hlive k
  have htnode := fun r => withTnode_ready (e := e) h hlive k (r := r)
  unfold wrDataChunk
  unfold programData at hres ⊢
  dsimp only at hres ⊢
  generalize (if (findChunkInFile g d o k).isNone then putChunkInFile g e o k 0 d else (d, true)) = r at *
  obtain ⟨hset, hready⟩ := htnode r rfl
  cases hok : r.2 with
  | false => exact ⟨hkept, rfl⟩
  | true =>
    simp only [hok, if_true] at hres ⊢
    have hraised := (hready hok).raise nBytes
    have hspec := writeNewChunk_spec (e := e) hraised.settled.inv.acc.ready (.bytes data)
      (t := dataTags o k nBytes) rfl (h.inv.own.ids_ne o hlive.id) useReserve
    rw [show (writeNewChunk g e _ _ useReserve (Dev.toBlockDev _)).2 = none from hres] at hspec
    rw [hres]
    exact ⟨hspec.kept.trans hkept, rfl⟩

theorem programData_some (h : Settled g d) (hlive : LiveFile d o)
    (hres : (programData g e o k data nBytes useReserve d).2 = some c) :
    ∃ x q, NewPage g o k data nBytes c d x (programData g e o k data nBytes useReserve d).1 q := by
  have hkept := withTnode_kept (e := e) h hlive k
  have htnode := fun r => withTnode_ready (e := e) h hlive k (r := r)
  unfold programData at hres ⊢
  dsimp only at hres ⊢
  generalize (if (findChunkInFile g d o k).isNone then putChunkInFile g e o k 0 d else (d, true)) = r at *
  obtain ⟨hset, hready⟩ := htnode r rfl
  cases hok : r.2 with
  | false => simp [hok] at hres
  | true =>
    simp only [hok, if_true] at hres ⊢
    have hraised := (hready hok).raise nBytes
    have hspec := writeNewChunk_spec (e := e) hraised.settled.inv.acc.ready (.bytes data)
      (t := dataTags o k nBytes) rfl (h.inv.own.ids_ne o hlive.id) useReserve
    rw [show (writeNewChunk g e _ _ useReserve (Dev.toBlockDev _)).2 = some c from hres] at hspec
    obtain ⟨hunused, -, q, hq, hw⟩ := hspec
    exact ⟨_, q, hraised, hkept, hq, hunused, rfl, hw⟩

theorem replaceChunk_kept {bd : BlockDev} {q : Page} (h : Settled g d) (hlive : LiveFile d o)
    (hhas : (d.obj o).file.Has k) (hunused : d.kept c = none)
    (hw : Wrote g noTransit anyBlock d.toBlockDev bd (Function.update d.kept c (some q))) :
    (replaceChunk g e o k (findChunkInFile g d o k) c { d with toBlockDev := bd }).kept =
      replacePage d.kept ((findChunkInFile g d o k).getD 0) c q := by
  have hmem := hw.mem_chunks (c := c) (p := q) (by simp)
  have hc : c ≠ 0 := fun h0 => zero_not_mem_chunks (h0 ▸ hmem)
  unfold replaceChunk
  rw [putChunkInFile_has (d := { d with toBlockDev := bd }) hlive.isFile hhas hc]
  rcases findChunkInFile_cases h.inv.own o k with ⟨old, p, hfound, hp, hkey, -, -⟩ | ⟨hnone, -⟩
  · have hs : softOf d.kept d.obj old = false := by simp [softOf, hp, (Prod.mk.inj hkey).1, hlive.notSoft]
    rw [hfound]
    exact (h.inv.acc.swap (e := e) hw hunused hp hs true).2
  · rw [hnone]
    exact hw.kept.trans (replacePage_zero h.inv.own.zero_none).symm

/-- A chunk that has been written is kept with its bytes, and the others as before; one that has not changes
nothing. -/
theorem wrDataChunk_content (h : Settled g d) (hlive : LiveFile d o) (hk : k ≠ 0) (data : List UInt8) (nBytes : ℕ)
    (useReserve : Bool) (o' k' : ℕ) (x : PageData) :
    Content (wrDataChunk g e o k data nBytes useReserve d).1.kept o' k' x ↔
      if chunkWritten (wrDataChunk g e o k data nBytes useReserve d).2 = true ∧ (o', k') = (o, k)
      then PageData.bytes data = x else Content d.kept o' k' x := by
  cases hres : (programData g e o k data nBytes useReserve d).2 with
  | none =>
    obtain ⟨hkept, hnot⟩ := programData_none h hlive hres
    rw [wrDataChunk_of_noPage hres, hkept, hnot]
    simp
  | some c =>
    obtain ⟨y, q, hprog⟩ := programData_some h hlive hres
    have hmem := hprog.wrote.mem_chunks (c := c) (p := q) (by simp)
    have hc : c ≠ 0 := fun h0 => zero_not_mem_chunks (h0 ▸ hmem)
    have hwritten : chunkWritten (some c) = true := by simp [chunkWritten, hc]
    have hown := hprog.ready.settled.inv.own
    have hqkey : q.key = (o, k) := Prod.ext hprog.page.objId hprog.page.chunkId
    rw [wrDataChunk_of_programData hres, hprog.eq, ← hprog.ready.found]
    dsimp only
    rw [replaceChunk_kept hprog.ready.settled hprog.ready.live hprog.ready.has hprog.unused hprog.wrote, hwritten,
      ← hprog.kept]
    -- the chunk in which the old page is, if there is one
    have hold : ∀ c' q', y.kept c' = some q' → q'.key = (o, k) → c' = (findChunkInFile g y o k).getD 0 := by
      intro c' q' hq' hkey'
      rcases findChunkInFile_cases hown o k with ⟨old, p, hfound, hp, hkey, -, -⟩ | ⟨hnone, hentry⟩
      · rw [hfound]
        exact hown.unique _ _ _ _ hq' hp (hkey'.trans hkey.symm)
      · exact absurd ⟨c', q', hq', hkey', rfl⟩ (hown.no_content hk hprog.ready.live.notSoft hentry)
    have hprev : ∀ q', y.kept ((findChunkInFile g y o k).getD 0) = some q' → q'.key = q.key := by
      intro q' hq'
      rcases findChunkInFile_cases hown o k with ⟨old, p, hfound, hp, hkey, -, -⟩ | ⟨hnone, -⟩
      · rw [hfound] at hq'
        rw [← Option.some.inj (hp.symm.trans hq'), hkey, hqkey]
      · rw [hnone] at hq'
        exact absurd (hown.zero_none.symm.trans hq') (by simp)
    split_ifs with hsame
    · obtain ⟨rfl, rfl⟩ := Prod.mk.inj hsame.2
      rw [content_replace_self (fun c' q' hq' hkey' => hold c' q' hq' (hkey'.trans hqkey)) hqkey, hprog.page.data]
      rfl
    · exact content_replace_of_ne hprog.unused hprev fun hkey => hsame ⟨rfl, hkey.symm.trans hqkey⟩

end Write

/-! ## Pruning a chunk -/

/-- A chunk that is found is taken out of its file and deleted. -/
theorem pruneChunk_found {p : Page} (hfound : findChunkInFile g d o k = some c)
    (hp : FoundPage g o k c d p) : pruneChunk g e o d k =
      { d with
        toBlockDev := chunkDel g e c true d.toBlockDev
        obj := Function.update d.obj o { d.obj o with
          file := (d.obj o).file.load k 0
          nDataChunks := (d.obj o).nDataChunks - 1 } } := by
  obtain ⟨hlow, hhigh⟩ := mem_blocks.mp (mem_chunks.mp hp.owned.mem)
  have hpos := chunksPerBlock_pos (g := g)
  have hc : c ≠ 0 := fun h0 => zero_not_mem_chunks (h0 ▸ hp.owned.mem)
  rw [Nat.le_div_iff_mul_le hpos] at hlow
  have hend : c < (g.endBlock + 1) * g.chunksPerBlock := (Nat.div_lt_iff_lt_mul hpos).mp (Nat.lt_succ_of_le hhigh)
  have hrange : ¬(c < g.startBlock * g.chunksPerBlock ∨ (g.endBlock + 1) * g.chunksPerBlock ≤ c) := by omega
  unfold pruneChunk findDelFileChunk
  rw [hfound]
  dsimp only
  rw [if_neg (by omega), if_neg hrange]
  simp [Dev.mapBlocks, Dev.modFile, Dev.modObj]

theorem pruneChunk_not_found (hnone : findChunkInFile g d o k = none) : pruneChunk g e o d k = d := by
  unfold pruneChunk findDelFileChunk
  rw [hnone]

/-- A chunk that is pruned is not kept, and the others are kept as before. -/
theorem pruneChunk_settled (h : Settled g d) (hlive : LiveFile d o) (hk : k ≠ 0) :
    Settled g (pruneChunk g e o d k) ∧ ∀ o' k' x,
      Content (pruneChunk g e o d k).kept o' k' x ↔ (o', k') ≠ (o, k) ∧ Content d.kept o' k' x := by
  cases hfound : findChunkInFile g d o k with
  | none =>
    have hentry : (d.obj o).file.entry k = 0 := by
      rcases findChunkInFile_cases h.inv.own o k with ⟨c, -, hc, -⟩ | ⟨-, hentry⟩
      · simp [hfound] at hc
      · exact hentry
    rw [pruneChunk_not_found hfound]
    refine ⟨h, fun o' k' x => ⟨fun hx => ⟨fun hsame => ?_, hx⟩, And.right⟩⟩
    obtain ⟨rfl, rfl⟩ := Prod.mk.inj hsame
    exact h.inv.own.no_content hk hlive.notSoft hentry hx
  | some c =>
    obtain ⟨p, hp⟩ := foundPage h.inv hfound
    have hhas : (d.obj o).file.Has k := FileVar.has_of_entry (hp.entry ▸ groupOf_ne_zero hp.owned.mem)
    have hs : softOf d.kept d.obj c = false := by
      simp [softOf, hp.kept, (Prod.mk.inj hp.key).1, hlive.notSoft]
    have hbit := Accounts.bit_of_kept hp.kept
    have hkept := (chunkDel_spec (e := e) h.inv.acc.blk hbit true).kept
    have hsoft : ∀ f n q, (Function.update d.obj o { d.obj o with file := f, nDataChunks := n } q).softDel =
        (d.obj q).softDel := by
      intro f n q
      rcases eq_or_ne q o with rfl | hq
      · simp
      · simp [hq]
    rw [pruneChunk_found hfound hp]
    refine ⟨⟨⟨?_, ?_⟩, ?_⟩, fun o' k' x => ?_⟩
    · change Accounts g noTransit (softOf (chunkDel g e c true d.toBlockDev).kept _)
        (chunkDel g e c true d.toBlockDev)
      rw [softOf_congr (hsoft _ _), hkept, softOf_update hs (by simp)]
      exact h.inv.acc.delete hbit hs true
    · change Own g (chunkDel g e c true d.toBlockDev).kept d.ids _
      rw [hkept]
      exact h.inv.own.dropData hp.kept hp.key hk (FileVar.entry_load hhas · 0) (h.inv.own.level o)
    · refine h.clean.mono rfl fun q hq hqs => ⟨hq, ?_⟩
      have hqo : q ≠ o := by
        rintro rfl
        simp [hlive.notSoft] at hqs
      simpa [hqo] using hqs
    · change Content (chunkDel g e c true d.toBlockDev).kept o' k' x ↔ _
      rw [hkept]
      by_cases hsame : (o', k') = (o, k)
      · refine ⟨?_, fun hx => absurd hsame hx.1⟩
        rintro ⟨c', q, hq, hkey, -⟩
        by_cases hcc : c' = c
        · simp [hcc] at hq
        · rw [Function.update_of_ne hcc] at hq
          exact absurd (h.inv.own.unique _ _ _ _ hq hp.kept (hkey.trans (hsame.trans hp.key.symm))) hcc
      · rw [content_drop_of_ne hp.kept fun hkey => hsame (hkey.symm.trans hp.key)]
        exact ⟨fun hx => ⟨hsame, hx⟩, And.right⟩

/-! ## Runs -/

/-- What the chunks of files are to hold. -/
abbrev FileStore : Type :=
  ℕ → ℕ → List UInt8

/-- The store with `bs` for the chunk `k` of `o`. -/
def FileStore.put (m : FileStore) (o k : ℕ) (bs : List UInt8) : FileStore :=
  fun o' k' => if (o', k') = (o, k) then bs else m o' k'

/-- What is called on the files of a device. -/
inductive FileCall
  | write (o k : ℕ) (data : List UInt8) (nBytes : ℕ) (useReserve : Bool)
  | prune (o k : ℕ)
  | pruneTree (o : ℕ)
  | header (o : ℕ) (name : Option Name) (force isShrink : Bool) (shadows : ℕ)
  | collect (background : Bool)

namespace FileCall

/-- The call, on the device : whether a chunk has been written. -/
def exec (g : Geometry) (e : Env) : FileCall → Dev → Dev × Bool
  | write o k data nBytes useReserve, d =>
    let r := wrDataObj g e o k data nBytes useReserve d
    (r.1, chunkWritten r.2)
  | prune o k, d => (pruneChunk g e o d k, false)
  | pruneTree o, d => (Yaffs.pruneTree o d, false)
  | header o name force isShrink shadows, d => ((updateOh g e o name force isShrink shadows d).1, false)
  | collect background, d => (checkGc g e background d, false)

/-- The call, on what the chunks are to hold. -/
def spec (g : Geometry) (m : FileStore) : FileCall × Bool → FileStore
  | (write o k data _ _, true) => m.put o k data
  | (prune o k, _) => m.put o k (zeroChunk g)
  | _ => m

theorem spec_write (m : FileStore) (o k : ℕ) (data : List UInt8) (nBytes : ℕ) (useReserve written : Bool) :
    spec g m (write o k data nBytes useReserve, written) = if written then m.put o k data else m := by
  cases written <;> rfl

/-- The file is live, and a buffer for its chunk is as long as a chunk. -/
def Allowed (g : Geometry) (d : Dev) : FileCall → Prop
  | write o k data nBytes _ => LiveFile d o ∧ k ≠ 0 ∧ data.length = g.dataBytesPerChunk ∧
      1 ≤ nBytes ∧ nBytes ≤ g.dataBytesPerChunk
  | prune o k => LiveFile d o ∧ k ≠ 0
  | pruneTree o => LiveFile d o
  | header o _ _ _ _ => LiveFile d o
  | collect _ => True

end FileCall

/-- Runs of calls on the files, with whether a chunk has been written. The driver and the allocator answer every call
as they please. -/
inductive FileRun (g : Geometry) (d : Dev) : List (FileCall × Bool) → Dev → Prop
  | start : FileRun g d [] d
  | call {ls : List (FileCall × Bool)} {d' : Dev} (e : Env) (c : FileCall) : FileRun g d ls d' → c.Allowed g d' →
      FileRun g d (ls ++ [(c, (c.exec g e d').2)]) (c.exec g e d').1

/-- The device is settled, and the files `L` are live and hold what they are to hold. -/
structure Stores (g : Geometry) (L : ℕ → Prop) (m : FileStore) (d : Dev) : Prop where
  settled : Settled g d
  live : ∀ o, L o → LiveFile d o
  read : ∀ o k, L o → k ≠ 0 → rdDataObj g o k d = m o k

/-- What the flash holds for the chunks of files. -/
def flashStore (g : Geometry) (d : Dev) : FileStore :=
  fun o k => rdDataObj g o k d

theorem stores_flash (h : Settled g d) : Stores g (LiveFile d) (flashStore g d) d :=
  ⟨h, fun _ ho => ho, fun _ _ _ _ => rfl⟩

section Stores

variable {L : ℕ → Prop} {m : FileStore}

/-- What leaves the contents of the files leaves what is read of them. -/
theorem Stores.congr (h : Stores g L m d) (hset : Settled g d') (hlive : ∀ o, LiveFile d o → LiveFile d' o)
    (hiff : ∀ o k x, LiveFile d o → k ≠ 0 → (Content d'.kept o k x ↔ Content d.kept o k x)) :
    Stores g L m d' := by
  refine ⟨hset, fun o ho => hlive o (h.live o ho), fun o k ho hk => ?_⟩
  have hold := h.live o ho
  rw [← h.read o k ho hk]
  exact rdDataObj_congr h.settled.inv.own hset.inv.own hk hold.notSoft (hlive o hold).notSoft fun x =>
    hiff o k x hold hk

/-- gc, and what writes headers. -/
theorem Stores.collected (h : Stores g L m d) {X : List (ℕ × ℕ)} (hcol : Collected g noTransit [] X d d')
    (hX : ∀ y ∈ X, y.2 = 0) : Stores g L m d' := by
  refine h.congr ⟨hcol.inv, hcol.clean h.settled.clean⟩ (fun o hlive => ?_) fun o k x hlive hk => ?_
  · obtain ⟨hid, hfreed⟩ := hcol.frame.held ⟨hlive.id, hlive.notFreed⟩ (by simp) hlive.notSoft
    have htype := Obj.variantType_eq (hcol.frame.same o (by simp) hlive.notSoft).attrs
    exact ⟨hid, hfreed, htype.trans hlive.isFile, (hcol.frame.soft o (by simp)).trans hlive.notSoft⟩
  · exact (hcol.frame.same o (by simp) hlive.notSoft).content k x fun hmem => hk (hX _ hmem)

theorem SameTies.liveFile (h : SameTies d d') (hlive : LiveFile d o) : LiveFile d' o :=
  ⟨h.ids ▸ hlive.id, (h.get Obj.deferredFree o).trans hlive.notFreed,
    (h.get Obj.variantType o).trans hlive.isFile, (h.get Obj.softDel o).trans hlive.notSoft⟩

theorem Stores.wrDataChunk (h : Stores g L m d) (hlive : LiveFile d o) (hk : k ≠ 0) {data : List UInt8}
    (hlen : data.length = g.dataBytesPerChunk) (nBytes : ℕ) (useReserve : Bool) :
    Stores g L (if chunkWritten (wrDataChunk g e o k data nBytes useReserve d).2 then m.put o k data else m)
      (wrDataChunk g e o k data nBytes useReserve d).1 := by
  have hset : Settled g (Yaffs.wrDataChunk g e o k data nBytes useReserve d).1 :=
    wrDataChunk_settled h.settled hlive hk fun _ _ => hlen
  have hties := wrDataChunk_sameTies (g := g) (e := e) o k data nBytes useReserve d
  have hcontent := wrDataChunk_content (e := e) h.settled hlive hk data nBytes useReserve
  generalize Yaffs.wrDataChunk g e o k data nBytes useReserve d = r at *
  cases hw : chunkWritten r.2 with
  | false =>
    refine h.congr hset (fun q hq => hties.liveFile hq) fun q j x _ _ => ?_
    rw [hcontent, hw]
    simp
  | true =>
    refine ⟨hset, fun q hq => hties.liveFile (h.live q hq), fun q j hq hj => ?_⟩
    have hold := h.live q hq
    have hnew := hties.liveFile hold
    rw [if_pos rfl]
    unfold FileStore.put
    split_ifs with hsame
    · exact rdDataObj_of_content hset.inv.own hj hnew.notSoft ((hcontent q j _).mpr (by rw [if_pos ⟨hw, hsame⟩]))
    · rw [← h.read q j hq hj]
      refine rdDataObj_congr h.settled.inv.own hset.inv.own hj hold.notSoft hnew.notSoft fun x => ?_
      rw [hcontent, if_neg fun hboth => hsame hboth.2]

theorem Stores.pruneChunk (h : Stores g L m d) (hlive : LiveFile d o) (hk : k ≠ 0) :
    Stores g L (m.put o k (zeroChunk g)) (pruneChunk g e o d k) := by
  obtain ⟨hset, hcontent⟩ := pruneChunk_settled (e := e) h.settled hlive hk
  have hties := pruneChunk_sameTies (g := g) (e := e) o k d
  refine ⟨hset, fun q hq => hties.liveFile (h.live q hq), fun q j hq hj => ?_⟩
  have hold := h.live q hq
  have hnew := hties.liveFile hold
  unfold FileStore.put
  split_ifs with hsame
  · exact rdDataObj_of_no_content hset.inv.own hj hnew.notSoft fun x hx => ((hcontent q j x).mp hx).1 hsame
  · rw [← h.read q j hq hj]
    exact rdDataObj_congr h.settled.inv.own hset.inv.own hj hold.notSoft hnew.notSoft fun x =>
      (hcontent q j x).trans (and_iff_right hsame)

/-- The tnodes that hold nothing are pruned. -/
theorem Stores.pruneTree (h : Stores g L m d) (hlive : LiveFile d o) : Stores g L m (pruneTree o d) := by
  obtain ⟨hcounts, hadd⟩ := FileVar.prune_spec (d.obj o).file (h.settled.inv.own.level o) d.toBlockDev
  obtain ⟨hset, -⟩ := h.settled.setFile hcounts hlive hadd.entry hadd.level
  have hties : SameTies d (Yaffs.pruneTree o d) := by
    unfold Yaffs.pruneTree
    exact (SameTies.setBlocks d _).trans (SameTies.modFile _ o _)
  refine h.congr hset (fun q hq => hties.liveFile hq) fun q j x _ _ => ?_
  rw [← hcounts.kept]
  exact Iff.rfl

/-- What a call does to the flash, it does to the store. -/
theorem Stores.exec (h : Stores g L m d) (e : Env) {c : FileCall} (hc : c.Allowed g d) :
    Stores g L (FileCall.spec g m (c, (c.exec g e d).2)) (c.exec g e d).1 := by
  have hgc : ∀ background, Collected g noTransit [] [] d (checkGc g e background d) := fun background =>
    checkGc_collects notCollecting_noTransit background d h.settled.inv h.settled.clean
  cases c with
  | write o k data nBytes useReserve =>
    obtain ⟨hlive, hk, hlen, -⟩ := hc
    -- the file is still live behind the gc
    have hbehind := ((stores_flash h.settled).collected (hgc false) (by simp)).live o hlive
    have hwrite := (h.collected (hgc false) (by simp)).wrDataChunk (e := e) hbehind hk hlen nBytes useReserve
    rw [FileCall.spec_write]
    exact hwrite
  | prune o k => exact h.pruneChunk hc.1 hc.2
  | pruneTree o => exact h.pruneTree hc
  | header o name force isShrink shadows =>
    exact h.collected (updateOh_collected notCollecting_noTransit h.settled.inv h.settled.clean hc.notSoft
      ⟨hc.id, hc.notFreed⟩ name force isShrink shadows) (by simp)
  | collect background => exact h.collected (hgc background) (by simp)

theorem FileRun.stores {ls : List (FileCall × Bool)} (hrun : FileRun g d ls d') (h : Stores g L m d) :
    Stores g L (ls.foldl (FileCall.spec g) m) d' := by
  induction hrun with
  | start => exact h
  | call e c _ hc ih =>
    rw [List.foldl_append]
    exact ih.exec e hc

end Stores

end Yaffs
