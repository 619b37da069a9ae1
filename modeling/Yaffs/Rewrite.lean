import Yaffs.Serial
import Yaffs.Nameval

/-!
# Rewriting a header

`yaffs_update_oh` reads the old header into a temporary buffer, puts the fields it knows over it, and
writes the buffer back : the name, when it is given none, and the extended attributes behind the header
come from what was read. The result of the read is looked at, but a read that fails does not end the
call : the name is then "silly old name", and behind the header stands what the driver or an earlier use
left in the buffer.
-/

namespace Yaffs

open Memory

/-! ## Pages with their attributes -/

/-- A device, with what stands behind the object headers. -/
structure AttrDev extends Dev where
  /-- The bytes behind the header in the page of a chunk. -/
  attrs : ℕ → Mem

/-- The driver's answer to the read of a header. A read that succeeds yields what the page holds. -/
structure HdrRead where
  ok : Bool
  ecc : EccResult
  /-- What a read that fails leaves in the buffer behind the header. -/
  left : Mem

/-- The temporary buffer of `yaffs_update_oh`, as far as it is written back as it was read. -/
structure HdrBuffer where
  oldName : Name
  area : Mem

/-- `struct yaffs_xattr_mod`. -/
structure XattrMod where
  set : Bool
  name : List UInt8
  data : List UInt8
  /-- `XATTR_CREATE` and `XATTR_REPLACE` in `flags`. -/
  create : Bool
  replace : Bool

/-- How a call of `yaffs_update_oh` ends : with `0` for a fake object, without a chunk, or with a chunk
and what was written to it. -/
inductive HdrWrite where
  | skipped
  | failed
  | written (c : ℕ) (oh : ObjHdr) (area : Mem)

/-- What the call returns. -/
def HdrWrite.result : HdrWrite → Option ℕ
  | .skipped => some 0
  | .failed => none
  | .written c _ _ => some c

variable (g : Geometry) (e : Env) (a : AttrArea) (rd : ℕ → ℕ → HdrRead)

/-- `yaffs_apply_xattrib_mod`. -/
def applyXattribMod (xmod : Option XattrMod) (area : Mem) : Mem :=
  match xmod with
  | none => area
  | some x => if x.set then (nvalSet a area x.name x.data x.create x.replace).1 else (nvalDel a area x.name).1

/-- The name the buffer for the old name starts with. -/
def sillyOldName : Name := "silly old name".toList

/-- The part of `yaffs_update_oh` that reads the old header. -/
def readOldHdr (prev : ℕ) (d : AttrDev) : AttrDev × HdrBuffer :=
  if 0 < prev then
    let r := rd d.nand.calls prev
    let d := { d with toDev := d.mapBlocks fun b => { b with nand := { b.nand with calls := b.nand.calls + 1 } } }
    let d :=
      if r.ecc = .fixed ∨ r.ecc = .unfixed then
        { d with toDev := d.mapBlocks (handleChunkError (prev / g.chunksPerBlock)) }
      else d
    if r.ok then (d, ⟨hdrName d.toDev prev, d.attrs prev⟩) else (d, ⟨sillyOldName, r.left⟩)
  else (d, ⟨[], fun _ => 0xff⟩)

/-- The object header, with the old name if there is no new one. -/
def newHdr (d : Dev) (o : ℕ) (name : Option Name) (isShrink : Bool) (shadows : ℕ) (oldName : Name) : ObjHdr :=
  { objHdr d o name isShrink shadows with
    name :=
      match name with
      | some (c :: cs) => (c :: cs).take (maxNameLength - 1)
      | _ => if 0 < (d.obj o).hdrChunk then oldName else [] }

/-- What `yaffs_update_oh` does with the chunk it has written. -/
def installHdr (o prev c : ℕ) (isShrink : Bool) (d : Dev) : Dev :=
  let d := replaceHdr g e o prev c d
  let d := if objCacheDirty d o then d else d.modObj o fun ob => { ob with dirty := false }
  if isShrink then
    d.mapBlocks fun b => b.modBlock (c / g.chunksPerBlock) fun bi => { bi with hasShrinkHdr := true }
  else d

/-- `yaffs_update_oh` from the buffer on : the header is filled in and written. -/
def writeHdr (o : ℕ) (name : Option Name) (isShrink : Bool) (shadows : ℕ) (xmod : Option XattrMod) (prev : ℕ)
    (buf : HdrBuffer) (d : AttrDev) : AttrDev × HdrWrite :=
  let oh := newHdr d.toDev o name isShrink shadows buf.oldName
  let area := applyXattribMod a xmod buf.area
  let w := d.toDev.onBlocks (writeNewChunk g e (.hdr oh) (hdrTags o oh) (decide (0 < prev)))
  match w.2 with
  | none => ({ d with toDev := w.1 }, .failed)
  | some c =>
    ({ toDev := installHdr g e o prev c isShrink w.1, attrs := Function.update d.attrs c area }, .written c oh area)

/-- `yaffs_update_oh`, with the gc it runs first. -/
def updateOhAttr (gc : AttrDev → AttrDev) (o : ℕ) (name : Option Name) (force isShrink : Bool) (shadows : ℕ)
    (xmod : Option XattrMod) (d : AttrDev) : AttrDev × HdrWrite :=
  if (d.obj o).fake ∧ o ≠ objectIdRoot ∧ force = false ∧ xmod.isNone then (d, .skipped)
  else
    let d := gc d
    let prev := (d.obj o).hdrChunk
    let r := readOldHdr g rd prev d
    writeHdr g e a o name isShrink shadows xmod prev r.2 r.1

variable {g e a rd} {gc : AttrDev → AttrDev} {d : AttrDev} {o prev : ℕ} {name : Option Name}
  {force isShrink : Bool} {shadows : ℕ}

/-! ## The old header -/

/-- Reading counts a call of the driver and may flag the block. -/
theorem readOldHdr_same : (readOldHdr g rd prev d).1.obj = d.obj ∧ (readOldHdr g rd prev d).1.attrs = d.attrs := by
  unfold readOldHdr
  dsimp only
  split_ifs <;> exact ⟨rfl, rfl⟩

theorem handleChunkError_flash (b : ℕ) (x : BlockDev) : (handleChunkError b x).nand.flash = x.nand.flash := by
  unfold handleChunkError
  split_ifs <;> rfl

theorem readOldHdr_flash : (readOldHdr g rd prev d).1.nand.flash = d.nand.flash := by
  unfold readOldHdr
  dsimp only
  split_ifs <;> simp only [Dev.mapBlocks, handleChunkError_flash]

theorem readOldHdr_ok (hprev : 0 < prev) (hok : (rd d.nand.calls prev).ok = true) :
    (readOldHdr g rd prev d).2 = ⟨hdrName d.toDev prev, d.attrs prev⟩ := by
  unfold readOldHdr hdrName
  dsimp only
  rw [if_pos hprev, if_pos hok]
  split_ifs
  · simp only [Dev.mapBlocks, handleChunkError_flash]
  · rfl

theorem readOldHdr_failed (hprev : 0 < prev) (hok : (rd d.nand.calls prev).ok = false) :
    (readOldHdr g rd prev d).2 = ⟨sillyOldName, (rd d.nand.calls prev).left⟩ := by
  unfold readOldHdr
  simp [hprev, hok]

/-! ## The write -/

section Write

variable {buf : HdrBuffer} {xmod : Option XattrMod} {c : ℕ} {oh : ObjHdr} {area : Mem}

theorem writeHdr_failed (h : (writeNewChunk g e (.hdr (newHdr d.toDev o name isShrink shadows buf.oldName))
    (hdrTags o (newHdr d.toDev o name isShrink shadows buf.oldName)) (decide (0 < prev)) d.toBlockDev).2 = none) :
    (writeHdr g e a o name isShrink shadows xmod prev buf d).2 = .failed ∧
      (writeHdr g e a o name isShrink shadows xmod prev buf d).1.obj = d.obj := by
  unfold writeHdr
  dsimp only [Dev.onBlocks]
  rw [h]
  exact ⟨rfl, rfl⟩

theorem writeHdr_written (h : (writeNewChunk g e (.hdr (newHdr d.toDev o name isShrink shadows buf.oldName))
    (hdrTags o (newHdr d.toDev o name isShrink shadows buf.oldName)) (decide (0 < prev)) d.toBlockDev).2 = some c) :
    (writeHdr g e a o name isShrink shadows xmod prev buf d).2 =
      .written c (newHdr d.toDev o name isShrink shadows buf.oldName) (applyXattribMod a xmod buf.area) := by
  unfold writeHdr
  dsimp only [Dev.onBlocks]
  rw [h]

theorem writeHdr_eq_written (h : (writeHdr g e a o name isShrink shadows xmod prev buf d).2 = .written c oh area) :
    oh = newHdr d.toDev o name isShrink shadows buf.oldName ∧ area = applyXattribMod a xmod buf.area := by
  unfold writeHdr at h
  dsimp only at h
  split at h
  · exact HdrWrite.noConfusion h
  · obtain ⟨-, rfl, rfl⟩ := HdrWrite.written.inj h
    exact ⟨rfl, rfl⟩

/-- What the call says it has written is on the device. -/
theorem writeHdr_page {T : ℕ → BlockState → Prop} {S : ℕ → Prop} (hid : o ≠ objectIdSummary)
    (hready : Ready g T S d.toBlockDev)
    (h : (writeHdr g e a o name isShrink shadows xmod prev buf d).2 = .written c oh area) :
    (writeHdr g e a o name isShrink shadows xmod prev buf d).1.attrs c = area ∧
      ∃ x p, (writeHdr g e a o name isShrink shadows xmod prev buf d).1.toDev = installHdr g e o prev c isShrink x ∧
        PageOf (.hdr oh) (hdrTags o oh) p ∧ x.kept c = some p := by
  have hspec := writeNewChunk_spec (e := e) hready (.hdr (newHdr d.toDev o name isShrink shadows buf.oldName))
    (t := hdrTags o (newHdr d.toDev o name isShrink shadows buf.oldName)) rfl hid (decide (0 < prev))
  cases hw : (writeNewChunk g e (.hdr (newHdr d.toDev o name isShrink shadows buf.oldName))
    (hdrTags o (newHdr d.toDev o name isShrink shadows buf.oldName)) (decide (0 < prev)) d.toBlockDev).2 with
  | none =>
    rw [(writeHdr_failed hw).1] at h
    exact HdrWrite.noConfusion h
  | some c' =>
    rw [writeHdr_written hw] at h
    obtain ⟨rfl, rfl, rfl⟩ := HdrWrite.written.inj h
    rw [hw] at hspec
    obtain ⟨-, -, p, hp, hwrote⟩ := hspec
    unfold writeHdr
    dsimp only [Dev.onBlocks]
    rw [hw]
    exact ⟨Function.update_self _ _ _, _, p, rfl, hp, by simp [hwrote.kept]⟩

end Write

theorem writeHdr_toDev {buf : HdrBuffer} {y : Dev}
    (hbuf : 0 < (d.obj o).hdrChunk → buf.oldName = hdrName d.toDev (d.obj o).hdrChunk) :
    (writeHdr g e a o name isShrink shadows none (d.obj o).hdrChunk buf d).1.toDev =
      (updateOhWith g e (fun _ => d.toDev) o name true isShrink shadows y).1 := by
  have hhdr : newHdr d.toDev o name isShrink shadows buf.oldName = objHdr d.toDev o name isShrink shadows := by
    have hold : (if 0 < (d.obj o).hdrChunk then buf.oldName else []) =
        if 0 < (d.obj o).hdrChunk then hdrName d.toDev (d.obj o).hdrChunk else [] := by
      split_ifs with hpos
      · exact hbuf hpos
      · rfl
    unfold newHdr objHdr
    rcases name with _ | _ | ⟨c, cs⟩
    · simp only [hold]
    · simp only [hold]
    · rfl
  unfold writeHdr updateOhWith
  rw [if_neg (by simp)]
  dsimp only
  rw [hhdr]
  cases (d.toDev.onBlocks (writeNewChunk g e (.hdr (objHdr d.toDev o name isShrink shadows))
    (hdrTags o (objHdr d.toDev o name isShrink shadows)) (decide (0 < (d.obj o).hdrChunk)))).2 <;> rfl

/-- With a header that can be read and no change of the attributes this is the `yaffs_update_oh` of the
runs of the core, whose gc is followed by the read. -/
theorem updateOhAttr_toDev (hok : 0 < ((gc d).obj o).hdrChunk →
    (rd (gc d).nand.calls ((gc d).obj o).hdrChunk).ok = true) :
    (updateOhAttr g e a rd gc o name force isShrink shadows none d).1.toDev =
      (updateOhWith g e (fun x => (readOldHdr g rd ((gc { d with toDev := x }).obj o).hdrChunk
        (gc { d with toDev := x })).1.toDev) o name force isShrink shadows d.toDev).1 := by
  by_cases hfake : (d.obj o).fake = true ∧ o ≠ objectIdRoot ∧ force = false
  · unfold updateOhAttr updateOhWith
    rw [if_pos ⟨hfake.1, hfake.2.1, hfake.2.2, rfl⟩, if_pos hfake]
  have hsame := @readOldHdr_same g rd (gc d) ((gc d).obj o).hdrChunk
  have hprev : ((readOldHdr g rd ((gc d).obj o).hdrChunk (gc d)).1.obj o).hdrChunk = ((gc d).obj o).hdrChunk :=
    congrArg (fun f => (f o).hdrChunk) hsame.1
  have htail := @writeHdr_toDev g e a (readOldHdr g rd ((gc d).obj o).hdrChunk (gc d)).1 o name isShrink shadows
    (readOldHdr g rd ((gc d).obj o).hdrChunk (gc d)).2 d.toDev fun hpos => by
      rw [hprev] at hpos ⊢
      rw [readOldHdr_ok (g := g) hpos (hok hpos)]
      simp only [hdrName, readOldHdr_flash]
  rw [hprev] at htail
  unfold updateOhAttr
  rw [if_neg fun hc => hfake ⟨hc.1, hc.2.1, hc.2.2.1⟩]
  refine htail.trans ?_
  unfold updateOhWith
  rw [if_neg hfake, if_neg (by simp)]

/-! ## What a rewrite keeps -/

/-- What is promised of a call with no name and no change of the attributes : the header it writes has
the name and the attributes of the old one, and when that could not be read the call fails and it stays
in use. -/
structure RewriteKeeps (g : Geometry) (e : Env) (a : AttrArea) (rd : ℕ → ℕ → HdrRead) (gc : AttrDev → AttrDev)
    (o : ℕ) (force isShrink : Bool) (shadows : ℕ) (d : AttrDev) : Prop where
  kept : ∀ c oh area, (updateOhAttr g e a rd gc o none force isShrink shadows none d).2 = .written c oh area →
    oh.name = hdrName (gc d).toDev ((gc d).obj o).hdrChunk ∧ area = (gc d).attrs ((gc d).obj o).hdrChunk
  unreadable : (updateOhAttr g e a rd gc o none force isShrink shadows none d).2 ≠ .skipped →
    (rd (gc d).nand.calls ((gc d).obj o).hdrChunk).ok = false →
    (updateOhAttr g e a rd gc o none force isShrink shadows none d).2 = .failed ∧
      ((updateOhAttr g e a rd gc o none force isShrink shadows none d).1.obj o).hdrChunk =
        ((gc d).obj o).hdrChunk

/-- The object is a fake one, and nothing forces its header to be written. -/
def NotStored (o : ℕ) (force : Bool) (d : AttrDev) : Prop :=
  (d.obj o).fake = true ∧ o ≠ objectIdRoot ∧ force = false

/-- `yaffs_write_new_chunk` finds no chunk for the header with the name the buffer started with. -/
def NoChunkFor (g : Geometry) (e : Env) (rd : ℕ → ℕ → HdrRead) (o : ℕ) (isShrink : Bool) (shadows : ℕ) (x : AttrDev) :
    Prop :=
  let y := (readOldHdr g rd (x.obj o).hdrChunk x).1
  let oh := newHdr y.toDev o none isShrink shadows sillyOldName
  (writeNewChunk g e (.hdr oh) (hdrTags o oh) true y.toBlockDev).2 = none

theorem updateOhAttr_skipped (h : NotStored o force d) :
    updateOhAttr g e a rd gc o none force isShrink shadows none d = (d, .skipped) := by
  unfold updateOhAttr
  rw [if_pos ⟨h.1, h.2.1, h.2.2, rfl⟩]

theorem updateOhAttr_stored (h : ¬NotStored o force d) :
    updateOhAttr g e a rd gc o none force isShrink shadows none d =
      writeHdr g e a o none isShrink shadows none ((gc d).obj o).hdrChunk
        (readOldHdr g rd ((gc d).obj o).hdrChunk (gc d)).2 (readOldHdr g rd ((gc d).obj o).hdrChunk (gc d)).1 := by
  unfold updateOhAttr
  rw [if_neg fun hc => h ⟨hc.1, hc.2.1, hc.2.2.1⟩]

/-- A rewrite keeps what it does not change exactly when there is nothing to write, the old header can be
read, or no chunk is left for the new one. -/
theorem rewriteKeeps_iff (hstored : 0 < ((gc d).obj o).hdrChunk) :
    RewriteKeeps g e a rd gc o force isShrink shadows d ↔ NotStored o force d ∨
      (rd (gc d).nand.calls ((gc d).obj o).hdrChunk).ok = true ∨ NoChunkFor g e rd o isShrink shadows (gc d) := by
  by_cases hskip : NotStored o force d
  · have heq := @updateOhAttr_skipped g e a rd gc d o force isShrink shadows hskip
    refine iff_of_true ⟨fun c oh area h => ?_, fun h => absurd (by rw [heq]) h⟩ (Or.inl hskip)
    rw [heq] at h
    exact HdrWrite.noConfusion h
  rw [or_iff_right hskip]
  have heq := @updateOhAttr_stored g e a rd gc d o force isShrink shadows hskip
  have hsame := @readOldHdr_same g rd (gc d) ((gc d).obj o).hdrChunk
  cases hok : (rd (gc d).nand.calls ((gc d).obj o).hdrChunk).ok with
  | true =>
    refine iff_of_true ⟨fun c oh area h => ?_, fun _ hno => absurd (hok.symm.trans hno) (by decide)⟩ (Or.inl rfl)
    rw [heq] at h
    obtain ⟨rfl, rfl⟩ := writeHdr_eq_written h
    rw [readOldHdr_ok (g := g) hstored hok]
    refine ⟨?_, rfl⟩
    simp only [newHdr, hsame.1, if_pos hstored]
  | false =>
    rw [or_iff_right (by decide)]
    have hbuf := readOldHdr_failed (g := g) hstored hok
    unfold NoChunkFor
    cases hw : (writeNewChunk g e (.hdr (newHdr (readOldHdr g rd ((gc d).obj o).hdrChunk (gc d)).1.toDev o none isShrink
      shadows sillyOldName)) (hdrTags o (newHdr (readOldHdr g rd ((gc d).obj o).hdrChunk (gc d)).1.toDev o none isShrink
      shadows sillyOldName)) true (readOldHdr g rd ((gc d).obj o).hdrChunk (gc d)).1.toBlockDev).2 with
    | none =>
      have hfail := @writeHdr_failed g e a _ o ((gc d).obj o).hdrChunk none isShrink shadows
        (readOldHdr g rd ((gc d).obj o).hdrChunk (gc d)).2 none (by rw [hbuf, decide_eq_true hstored]; exact hw)
      rw [← heq] at hfail
      refine iff_of_true ⟨fun c oh area h => ?_, fun _ _ => ⟨hfail.1, ?_⟩⟩ hw
      · exact HdrWrite.noConfusion (hfail.1.symm.trans h)
      · exact congrArg (fun f => (f o).hdrChunk) (hfail.2.trans hsame.1)
    | some c =>
      refine iff_of_false (fun h => ?_) fun hnone => Option.some_ne_none c (hw.symm.trans hnone)
      have hwrote := @writeHdr_written g e a _ o ((gc d).obj o).hdrChunk none isShrink shadows
        (readOldHdr g rd ((gc d).obj o).hdrChunk (gc d)).2 none _ (by rw [hbuf, decide_eq_true hstored]; exact hw)
      rw [← heq] at hwrote
      have hfail := (h.unreadable (fun hs => HdrWrite.noConfusion (hwrote.symm.trans hs)) hok).1
      exact HdrWrite.noConfusion (hwrote.symm.trans hfail)

/-! ## A header that cannot be read -/

/-- The sample device with a file, whose header carries an attribute. -/
def attributedDev : AttrDev :=
  { fileDev sampleGeometry with attrs := fun _ => store (fun _ => 0) 0 [8, 0, 0, 0, 97, 0, 7, 7] }

/-- The area behind the headers of chunks of 1024 bytes. -/
def sampleArea : AttrArea where
  size := 512
  bigEndian := false
  size_lt := by decide

/-- No header can be read, and the buffer is left wiped. -/
def unreadableHdr : ℕ → ℕ → HdrRead :=
  fun _ _ => ⟨false, .unfixed, fun _ => 0xff⟩

/-- Every header can be read. -/
def readableHdr : ℕ → ℕ → HdrRead :=
  fun _ _ => ⟨true, .noError, fun _ => 0⟩

/-- A header that cannot be read is replaced by one with another name. -/
theorem attributedDev_renamed : ¬∀ (g : Geometry) (e : Env) (a : AttrArea) (rd : ℕ → ℕ → HdrRead)
    (gc : AttrDev → AttrDev) (o : ℕ) (force isShrink : Bool) (shadows : ℕ) (d : AttrDev),
    0 < ((gc d).obj o).hdrChunk → RewriteKeeps g e a rd gc o force isShrink shadows d := by
  intro h
  have hkeeps := h sampleGeometry okEnv sampleArea unreadableHdr id 257 false false 0 attributedDev (by decide +kernel)
  have hwritten : (updateOhAttr sampleGeometry okEnv sampleArea unreadableHdr id 257 none false false 0 none
      attributedDev).2.result = some 17 := by decide +kernel
  have hfail := (hkeeps.unreadable (fun hskip => by rw [hskip] at hwritten; exact absurd hwritten (by decide)) rfl).1
  rw [hfail] at hwritten
  exact absurd hwritten (by decide)

theorem attributedDev_kept : RewriteKeeps sampleGeometry okEnv sampleArea readableHdr id 257 false false 0 attributedDev :=
  (rewriteKeeps_iff (by decide +kernel)).mpr (Or.inr (Or.inl rfl))

end Yaffs
