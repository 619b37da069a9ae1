import Yaffs.CachedStore
import Yaffs.Chunked
import Yaffs.Offset

/-!
# Reading and writing files

`yaffs_file_rd` and `yaffs_do_file_wr` go through the chunks of a file one by one. Over every run of them, with
flushes, headers and gc in between, a file reads as the bytes that have been written last (`byteRun_refines`).
-/

namespace Yaffs

open Chunked

variable {g : Geometry} {e : Env} {m : FileStore} {d d' : Dev} {o : ℕ} {β : ℕ → ℕ → UInt8}

/-! ## Places -/

/-- The addresses below `n` are split into chunks and places in them. -/
structure InReach (g : Geometry) (n : ℕ) : Prop where
  size : g.dataBytesPerChunk < 2 ^ 32
  fits : ∀ addr < n, AddrFits g.toParam addr

theorem InReach.mono {n k : ℕ} (h : InReach g n) (hk : k ≤ n) : InReach g k :=
  ⟨h.size, fun addr haddr => h.fits addr (haddr.trans_le hk)⟩

/-- An address in reach is a place `r` in a chunk `q`. -/
theorem InReach.split {n addr : ℕ} (h : InReach g n) (haddr : addr < n) : ∃ q r, addrToChunk g addr = (q, r) ∧
    r < g.dataBytesPerChunk ∧ q * g.dataBytesPerChunk + r = addr := by
  have hfits := h.fits addr haddr
  refine ⟨addr / g.dataBytesPerChunk, addr % g.dataBytesPerChunk, ?_, Nat.mod_lt addr hfits.size_pos,
    Nat.div_add_mod' addr g.dataBytesPerChunk⟩
  refine Prod.ext ?_ ((splitsAddr_iff h.size).mpr hfits).offset
  rw [addrToChunk_fst, Nat.mod_eq_of_lt hfits.quotient]
  exact shiftRight_div hfits.size_pos h.size addr

/-- A round copies something, and no more than there is and than the chunk has room for. -/
theorem chunkCopy_spec {start n : ℕ} (hstart : start < g.dataBytesPerChunk) (hn : n ≠ 0) :
    0 < chunkCopy g start n ∧ chunkCopy g start n ≤ n ∧ start + chunkCopy g start n ≤ g.dataBytesPerChunk := by
  unfold chunkCopy
  split_ifs <;> omega

/-- The bytes of a file. -/
def fileBytes (g : Geometry) (m : FileStore) (o : ℕ) : ℕ → UInt8 :=
  elemAt 0 g.dataBytesPerChunk fun q => m o (q + 1)

/-- A part of a chunk is written. -/
theorem fileBytes_put {q r : ℕ} {src : List UInt8} (hlen : (m o (q + 1)).length = g.dataBytesPerChunk)
    (hfit : r + src.length ≤ g.dataBytesPerChunk) (hpos : 0 < g.dataBytesPerChunk) :
    fileBytes g (m.put o (q + 1) (patch (m o (q + 1)) r src)) o =
      overlay (fileBytes g m o) (q * g.dataBytesPerChunk + r) src :=
  elemAt_patch (f := fun q => m o (q + 1)) (fun _ hj => if_neg fun hsame => hj (Nat.succ.inj (Prod.mk.inj hsame).2))
    hlen hfit (if_pos rfl) hpos

/-! ## Loops -/

/-- What a read writes back is written. -/
def FileRdKeeps (g : Geometry) (e : Env) (o : ℕ) : ℕ → ℕ → ℕ → Dev → Prop
  | 0, _, _, _ => True
  | fuel + 1, offset, n, d =>
    n ≠ 0 →
      let a := addrToChunk g offset
      let nCopy := chunkCopy g a.2 n
      ReadKeeps g e o (a.1 + 1) nCopy d ∧
        FileRdKeeps g e o fuel (offset + nCopy) (n - nCopy) (fileRdChunk g e o (a.1 + 1) a.2 nCopy d).1

instance decideFileRdKeeps : ∀ (fuel offset n : ℕ) (d : Dev), Decidable (FileRdKeeps g e o fuel offset n d)
  | 0, _, _, _ => inferInstanceAs (Decidable True)
  | fuel + 1, offset, n, d =>
    let a := addrToChunk g offset
    let nCopy := chunkCopy g a.2 n
    @instDecidableForall _ _ (inferInstanceAs (Decidable (n ≠ 0)))
      (@instDecidableAnd _ _ (inferInstanceAs (Decidable (ReadKeeps g e o (a.1 + 1) nCopy d)))
        (decideFileRdKeeps fuel (offset + nCopy) (n - nCopy) (fileRdChunk g e o (a.1 + 1) a.2 nCopy d).1))

/-- What a write writes back is written, and what it writes at once. -/
def FileWrKeeps (g : Geometry) (e : Env) (o : ℕ) (writeThrough : Bool) : ℕ → List UInt8 → ℕ → Dev → Prop
  | 0, _, _, _ => True
  | fuel + 1, buffer, offset, d =>
    buffer.length ≠ 0 →
      let a := addrToChunk g offset
      let nCopy := chunkCopy g a.2 buffer.length
      let writeback := nWriteback g (d.obj o).file (a.1 + 1) a.2 buffer.length
      let r := wrChunk g e o (a.1 + 1) a.2 (buffer.take nCopy) writeback writeThrough d
      WriteKeeps g e o (a.1 + 1) a.2 (buffer.take nCopy) writeback writeThrough d ∧
        (r.2 = true → FileWrKeeps g e o writeThrough fuel (buffer.drop nCopy) (offset + nCopy) r.1)

instance decideFileWrKeeps {writeThrough : Bool} : ∀ (fuel : ℕ) (buffer : List UInt8) (offset : ℕ) (d : Dev),
    Decidable (FileWrKeeps g e o writeThrough fuel buffer offset d)
  | 0, _, _, _ => inferInstanceAs (Decidable True)
  | fuel + 1, buffer, offset, d =>
    let a := addrToChunk g offset
    let nCopy := chunkCopy g a.2 buffer.length
    let writeback := nWriteback g (d.obj o).file (a.1 + 1) a.2 buffer.length
    let r := wrChunk g e o (a.1 + 1) a.2 (buffer.take nCopy) writeback writeThrough d
    @instDecidableForall _ _ (inferInstanceAs (Decidable (buffer.length ≠ 0)))
      (@instDecidableAnd _ _
        (inferInstanceAs (Decidable (WriteKeeps g e o (a.1 + 1) a.2 (buffer.take nCopy) writeback writeThrough d)))
        (@instDecidableForall _ _ (inferInstanceAs (Decidable (r.2 = true)))
          (decideFileWrKeeps fuel (buffer.drop nCopy) (offset + nCopy) r.1)))

namespace CachedStore

theorem fileRdLoop (fuel : ℕ) : ∀ (offset n : ℕ) (d : Dev), CachedStore g m d → LiveFile d o →
    InReach g (offset + n) → n ≤ fuel → FileRdKeeps g e o fuel offset n d →
    Serves g m d (fileRdLoop g e o fuel offset n d).1 ∧
      (Yaffs.fileRdLoop g e o fuel offset n d).2 = window (fileBytes g m o) offset n := by
  induction fuel with
  | zero =>
    intro offset n d h _ _ hn _
    obtain rfl : n = 0 := by omega
    exact ⟨Serves.refl h, rfl⟩
  | succ fuel ih =>
    intro offset n d h hlive hreach hn hkeeps
    unfold Yaffs.fileRdLoop
    by_cases hzero : n = 0
    · subst hzero
      exact ⟨Serves.refl h, rfl⟩
    · obtain ⟨hround, hrest⟩ := hkeeps hzero
      obtain ⟨q, r, hsplit, hmod, hplace⟩ := hreach.split (show offset < offset + n by omega)
      rw [if_neg hzero]
      rw [hsplit] at hround hrest ⊢
      dsimp only at hround hrest ⊢
      obtain ⟨hpos, hle, hfit⟩ := chunkCopy_spec hmod hzero
      generalize chunkCopy g r n = nCopy at *
      obtain ⟨hread, hbytes⟩ := h.fileRdChunk hlive (Nat.succ_ne_zero q) hfit hround
      generalize Yaffs.fileRdChunk g e o (q + 1) r nCopy d = y at *
      obtain ⟨hloop, hmore⟩ := ih (offset + nCopy) (n - nCopy) y.1 hread.store ((hread.live o).mpr hlive)
        (hreach.mono (by omega)) (by omega) hrest
      refine ⟨hread.trans hloop, ?_⟩
      have hchunk : ((m o (q + 1)).drop r).take nCopy = window (fileBytes g m o) offset nCopy := by
        have hwindow := window_chunk (z := 0) (f := fun q => m o (q + 1))
          (h.store_length hlive (Nat.succ_ne_zero q)) hfit
        rw [hplace] at hwindow
        exact hwindow
      rw [hbytes, hmore, hchunk, ← window_add, Nat.add_sub_cancel' hle]

theorem doFileWrLoop (writeThrough : Bool) (fuel : ℕ) : ∀ (buffer : List UInt8) (offset : ℕ) (m : FileStore)
    (d : Dev), CachedStore g m d → LiveFile d o → InReach g (offset + buffer.length) → buffer.length ≤ fuel →
    FileWrKeeps g e o writeThrough fuel buffer offset d →
    let r := doFileWrLoop g e o writeThrough fuel buffer offset d
    ∃ m', Serves g m' d r.1 ∧ r.2 ≤ buffer.length ∧ (∀ q, q ≠ o → m' q = m q) ∧
      fileBytes g m' o = overlay (fileBytes g m o) offset (buffer.take r.2) := by
  have hnone : ∀ (buffer : List UInt8) (offset : ℕ) (m : FileStore) (d : Dev), CachedStore g m d →
      ∃ m', Serves g m' d d ∧ 0 ≤ buffer.length ∧ (∀ q, q ≠ o → m' q = m q) ∧
        fileBytes g m' o = overlay (fileBytes g m o) offset (buffer.take 0) := fun buffer offset m d h =>
    ⟨m, Serves.refl h, Nat.zero_le _, fun _ _ => rfl, (overlay_nil _ _).symm⟩
  induction fuel with
  | zero => exact fun buffer offset m d h _ _ _ _ => hnone buffer offset m d h
  | succ fuel ih =>
    intro buffer offset m d h hlive hreach hn hkeeps
    unfold Yaffs.doFileWrLoop
    by_cases hzero : buffer.length = 0
    · rw [if_pos hzero]
      exact hnone buffer offset m d h
    · obtain ⟨hround, hrest⟩ := hkeeps hzero
      obtain ⟨q, r, hsplit, hmod, hplace⟩ := hreach.split (show offset < offset + buffer.length by omega)
      rw [if_neg hzero]
      rw [hsplit] at hround hrest ⊢
      dsimp only at hround hrest ⊢
      obtain ⟨hpos, hle, hfit⟩ := chunkCopy_spec hmod hzero
      generalize chunkCopy g r buffer.length = nCopy at *
      generalize nWriteback g (d.obj o).file (q + 1) r buffer.length = writeback at *
      have htake : (buffer.take nCopy).length = nCopy := by
        rw [List.length_take]
        omega
      have hwrite := h.wrChunk (e := e) hlive (Nat.succ_ne_zero q) (htake.symm ▸ hfit) hround
      dsimp only at hwrite
      generalize Yaffs.wrChunk g e o (q + 1) r (buffer.take nCopy) writeback writeThrough d = w at *
      obtain ⟨y, ok⟩ := w
      cases ok with
      | false => exact ⟨m, hwrite, Nat.zero_le _, fun _ _ => rfl, (overlay_nil _ _).symm⟩
      | true =>
        have hwrite : Serves g (m.put o (q + 1) (patch (m o (q + 1)) r (buffer.take nCopy))) d y := hwrite
        have hput := fileBytes_put (h.store_length hlive (Nat.succ_ne_zero q)) (htake.symm ▸ hfit)
          (Nat.zero_lt_of_lt hmod)
        rw [hplace] at hput
        obtain ⟨m', hloop, hcount, hothers, hbytes⟩ := ih (buffer.drop nCopy) (offset + nCopy) _ y hwrite.store
          ((hwrite.live o).mpr hlive) (hreach.mono (by rw [List.length_drop]; omega))
          (by rw [List.length_drop]; omega) (hrest rfl)
        dsimp only
        rw [if_pos rfl]
        generalize Yaffs.doFileWrLoop g e o writeThrough fuel (buffer.drop nCopy) (offset + nCopy) y = w at *
        rw [List.length_drop] at hcount
        refine ⟨m', hwrite.trans hloop, by omega, fun p hp => (hothers p hp).trans ?_, ?_⟩
        · funext j
          exact if_neg fun hsame => hp (Prod.mk.inj hsame).1
        · have hoffset : offset + nCopy = offset + (buffer.take nCopy).length := by rw [htake]
          rw [hbytes, hput, hoffset, overlay_append, ← List.take_add]

/-- The object changes, and owns what it owned. -/
theorem modObj (h : CachedStore g m d) {f : Obj → Obj} (hf : (d.obj o).SameOwner (f (d.obj o))) :
    Serves g m d (d.modObj o f) := by
  have hsame : ∀ q, (d.obj q).SameOwner ((d.modObj o f).obj q) := by
    intro q
    rcases eq_or_ne q o with rfl | hq
    · simpa [Dev.modObj] using hf
    · simpa [Dev.modObj, hq] using Obj.SameOwner.refl _
  have hlive : ∀ q, LiveFile (d.modObj o f) q ↔ LiveFile d q := by
    intro q
    have hq := hsame q
    refine ⟨fun hl => ⟨hl.id, ?_, ?_, ?_⟩, fun hl => ⟨hl.id, ?_, ?_, ?_⟩⟩
    · exact hq.deferredFree.symm.trans hl.notFreed
    · exact hq.variantType.symm.trans hl.isFile
    · exact hq.softDel.symm.trans hl.notSoft
    · exact hq.deferredFree.trans hl.notFreed
    · exact hq.variantType.trans hl.isFile
    · exact hq.softDel.trans hl.notSoft
  have hset : Settled g (d.modObj o f) := by
    refine ⟨h.settled.inv.modObj hf, h.settled.clean.mono rfl fun q hq hs => ⟨hq, ?_, ?_⟩⟩
    · exact (hsame q).softDel.trans hs
    · exact (hsame q).nDataChunks.le
  have hstep : FlashStep g (flashStore g d) d (d.modObj o f) :=
    ⟨hset, hlive, fun q => (hsame q).softDel, cacheKept_refl _ _ _, fun q j hq hj =>
      rdDataObj_congr h.settled.inv.own hset.inv.own hj hq.notSoft ((hlive q).mpr hq).notSoft fun _ => Iff.rfl⟩
  exact ⟨h.flash hstep fun _ _ _ _ => Or.inl rfl, hlive⟩

theorem doFileWr (h : CachedStore g m d) (hlive : LiveFile d o) {buffer : List UInt8} {offset : ℕ}
    {writeThrough : Bool} (hreach : InReach g (offset + buffer.length))
    (hkeeps : FileWrKeeps g e o writeThrough buffer.length buffer offset d) :
    let r := doFileWr g e o buffer offset writeThrough d
    ∃ m', Serves g m' d r.1 ∧ r.2 ≤ buffer.length ∧ (∀ q, q ≠ o → m' q = m q) ∧
      fileBytes g m' o = overlay (fileBytes g m o) offset (buffer.take r.2) := by
  obtain ⟨m', hloop, hcount, hothers, hbytes⟩ :=
    doFileWrLoop writeThrough buffer.length buffer offset m d h hlive hreach le_rfl hkeeps
  unfold Yaffs.doFileWr
  dsimp only
  generalize Yaffs.doFileWrLoop g e o writeThrough buffer.length buffer offset d = r at *
  refine ⟨m', hloop.trans (hloop.store.modObj ?_), hcount, hothers, hbytes⟩
  exact ⟨rfl, rfl, rfl, rfl, rfl, fun hd => hd, fun _ => rfl, fun hl => hl⟩

end CachedStore

/-! ## Runs -/

/-- What is called on the files of a device. -/
inductive ByteCall
  | read (o offset n : ℕ)
  | write (o : ℕ) (buffer : List UInt8) (offset : ℕ) (writeThrough : Bool)
  | flush (o : ℕ) (discard : Bool)
  | flushAll (discard : Bool)
  | header (o : ℕ) (name : Option Name) (force isShrink : Bool) (shadows : ℕ)
  | collect (background : Bool)

/-- The bytes that have been read, and the number of bytes that have been written. -/
structure ByteReply where
  bytes : List UInt8 := []
  count : ℕ := 0
deriving DecidableEq

namespace ByteCall

/-- The call, on the device. -/
def exec (g : Geometry) (e : Env) : ByteCall → Dev → Dev × ByteReply
  | read o offset n, d =>
    let r := fileRd g e o offset n d
    (r.1, { bytes := r.2 })
  | write o buffer offset writeThrough, d =>
    let r := doFileWr g e o buffer offset writeThrough d
    (r.1, { count := r.2 })
  | flush o discard, d => (flushFileCache g e o discard d, {})
  | flushAll discard, d => (flushWholeCache g e discard d, {})
  | header o name force isShrink shadows, d => ((updateOh g e o name force isShrink shadows d).1, {})
  | collect background, d => (checkGc g e background d, {})

/-- The file is live, and its bytes can be addressed. -/
def Allowed (g : Geometry) (d : Dev) : ByteCall → Prop
  | read o offset n => LiveFile d o ∧ InReach g (offset + n)
  | write o buffer offset _ => LiveFile d o ∧ InReach g (offset + buffer.length)
  | header o _ _ _ _ => LiveFile d o
  | _ => True

/-- What the call writes back is written. -/
def Keeps (g : Geometry) (e : Env) (d : Dev) : ByteCall → Prop
  | read o offset n => FileRdKeeps g e o n offset n d
  | write o buffer offset writeThrough => FileWrKeeps g e o writeThrough buffer.length buffer offset d
  | flush o discard => FlushFileWrites g e o discard (List.range g.nCaches) d
  | flushAll discard => FlushWholeWrites g e discard g.nCaches d
  | _ => True

/-- The call, on the bytes of files. -/
def spec (β : ℕ → ℕ → UInt8) : ByteCall × ByteReply → ℕ → ℕ → UInt8
  | (write o buffer offset _, r) => Function.update β o (overlay (β o) offset (buffer.take r.count))
  | _ => β

/-- The call has been answered by the bytes of files. -/
def Right (β : ℕ → ℕ → UInt8) : ByteCall × ByteReply → Prop
  | (read o offset n, r) => r.bytes = window (β o) offset n
  | (write _ buffer _ _, r) => r.count ≤ buffer.length
  | _ => True

/-- All calls have been answered so. -/
def AllRight (β : ℕ → ℕ → UInt8) : List (ByteCall × ByteReply) → Prop
  | [] => True
  | l :: ls => Right β l ∧ AllRight (spec β l) ls

end ByteCall

/-- Runs of calls on files, with what they answer. The driver and the allocator answer every call as they please, but
what is written back is written. -/
inductive ByteRun (g : Geometry) : Dev → List (ByteCall × ByteReply) → Dev → Prop
  | done (d : Dev) : ByteRun g d [] d
  | call {d d' : Dev} {ls : List (ByteCall × ByteReply)} (e : Env) (c : ByteCall) : c.Allowed g d → c.Keeps g e d →
      ByteRun g (c.exec g e d).1 ls d' → ByteRun g d ((c, (c.exec g e d).2) :: ls) d'

/-- The files of the device hold these bytes, in the cache or on the flash. -/
def HoldsBytes (g : Geometry) (β : ℕ → ℕ → UInt8) (d : Dev) : Prop :=
  ∃ m, CachedStore g m d ∧ ∀ o, LiveFile d o → fileBytes g m o = β o

/-- With nothing in the cache, the bytes of files are on the flash. -/
theorem holdsBytes_flash (hd : Settled g d) (hlen : d.cache.length = g.nCaches)
    (hempty : ∀ c ∈ d.cache, c.object = none) : HoldsBytes g (fun o => fileBytes g (flashStore g d) o) d := by
  refine ⟨flashStore g d, ⟨⟨hd, hlen, fun i j c c' hi _ hsome _ _ => ?_, fun c hc o ho => ?_, fun c hc o ho _ => ?_⟩,
    fun _ _ _ _ _ => rfl⟩, fun _ _ => rfl⟩
  · rw [hempty c (List.mem_of_getElem? hi)] at hsome
    simp at hsome
  · exact absurd ((hempty c hc).symm.trans ho) (by simp)
  · exact absurd ((hempty c hc).symm.trans ho) (by simp)

/-- Without dirty entries of a file, its bytes are on the flash. -/
theorem HoldsBytes.clean (h : HoldsBytes g β d) (hlive : LiveFile d o)
    (hclean : ∀ c ∈ d.cache, c.object = some o → c.dirty = false) : fileBytes g (flashStore g d) o = β o := by
  obtain ⟨m, hm, hbytes⟩ := h
  rw [← hbytes o hlive]
  refine congrArg (elemAt 0 g.dataBytesPerChunk) (funext fun q => ?_)
  exact hm.rest o (q + 1) hlive (Nat.succ_ne_zero q) fun c hc ho _ => hclean c hc ho

theorem HoldsBytes.of_serves (hbytes : ∀ o, LiveFile d o → fileBytes g m o = β o) (h : Serves g m d d') :
    HoldsBytes g β d' ∧ ∀ q, LiveFile d' q ↔ LiveFile d q :=
  ⟨⟨m, h.store, fun o ho => hbytes o ((h.live o).mp ho)⟩, h.live⟩

/-- What a call does to the device, it does to the bytes of files. -/
theorem HoldsBytes.exec (h : HoldsBytes g β d) (e : Env) {c : ByteCall} (hc : c.Allowed g d) (hk : c.Keeps g e d) :
    ByteCall.Right β (c, (c.exec g e d).2) ∧ HoldsBytes g (ByteCall.spec β (c, (c.exec g e d).2)) (c.exec g e d).1 ∧
      ∀ q, LiveFile (c.exec g e d).1 q ↔ LiveFile d q := by
  obtain ⟨m, hm, hbytes⟩ := h
  have hcollected : ∀ {X : List (ℕ × ℕ)} {y : Dev}, Collected g noTransit [] X d y → (∀ x ∈ X, x.2 = 0) →
      Serves g m d y := fun hcol hX => ⟨hm.collected hcol hX, (collected_flash hm.settled hcol hX).live⟩
  cases c with
  | read o offset n =>
    obtain ⟨hread, hwindow⟩ := CachedStore.fileRdLoop n offset n d hm hc.1 hc.2 le_rfl hk
    refine ⟨?_, HoldsBytes.of_serves hbytes hread⟩
    rw [hbytes o hc.1] at hwindow
    exact hwindow
  | write o buffer offset writeThrough =>
    obtain ⟨m', hwrite, hcount, hothers, hnew⟩ := hm.doFileWr hc.1 hc.2 hk
    refine ⟨hcount, HoldsBytes.of_serves (fun q hq => ?_) hwrite⟩
    change _ = Function.update β o _ q
    rcases eq_or_ne q o with rfl | hqo
    · rw [Function.update_self, hnew, hbytes q hq]
      rfl
    · rw [Function.update_of_ne hqo, ← hbytes q hq]
      unfold fileBytes
      rw [hothers q hqo]
  | flush o discard => exact ⟨trivial, HoldsBytes.of_serves hbytes (hm.flushFileCache o discard hk).serves⟩
  | flushAll discard => exact ⟨trivial, HoldsBytes.of_serves hbytes (hm.flushWholeCache discard hk).serves⟩
  | header o name force isShrink shadows =>
    exact ⟨trivial, HoldsBytes.of_serves hbytes (hcollected (updateOh_collected notCollecting_noTransit hm.settled.inv
      hm.settled.clean hc.notSoft ⟨hc.id, hc.notFreed⟩ name force isShrink shadows) (by simp))⟩
  | collect background =>
    exact ⟨trivial, HoldsBytes.of_serves hbytes (hcollected (checkGc_collects notCollecting_noTransit background d
      hm.settled.inv hm.settled.clean) (by simp))⟩

theorem ByteRun.holds {ls : List (ByteCall × ByteReply)} (hrun : ByteRun g d ls d') :
    ∀ β, HoldsBytes g β d → ByteCall.AllRight β ls ∧ HoldsBytes g (ls.foldl ByteCall.spec β) d' ∧
      ∀ q, LiveFile d' q ↔ LiveFile d q := by
  induction hrun with
  | done d => exact fun β h => ⟨trivial, h, fun _ => Iff.rfl⟩
  | call e c hc hk _ ih =>
    intro β h
    obtain ⟨hright, hstep, hlive⟩ := h.exec e hc hk
    obtain ⟨hall, hend, hlive'⟩ := ih _ hstep
    exact ⟨⟨hright, hall⟩, hend, fun q => (hlive' q).trans (hlive q)⟩

/-- The device of `yaffs1Geometry`, with a cache. -/
def cachedGeometry : Geometry where
  toParam := { yaffs1Geometry.toParam with nCaches := 2 }
  two_le_chunksPerBlock := by decide
  two_le_nReservedBlocks := by decide
  startBlock_pos := by decide
  endBlock_gt := by decide
  chunkGrpSize_le := by decide
  objHdrSize_le := by decide
  chunks_lt := by decide

theorem cachedGeometry_inReach : InReach cachedGeometry 512 := by
  refine ⟨by decide, fun addr haddr => ⟨by decide, ?_, ?_⟩⟩
  · exact (Nat.shiftRight_le addr _).trans_lt (haddr.trans (by decide))
  · exact (Nat.div_le_self addr _).trans_lt (haddr.trans (by decide))

end Yaffs
