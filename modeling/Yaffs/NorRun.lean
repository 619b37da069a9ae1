import Yaffs.NorCrash

/-!
# Runs of the NOR driver

Chunks that are marked, blocks that are erased and devices that are initialised, and what a run of them comes to
wherever the power fails.
-/

namespace Yaffs

open Cutoff

variable {sim : Bool} {s : NorSim} {w w' w'' : ℕ → BitVec 32} {c b b' : ℕ} {a a' : ℕ → NorPage} {up : Bool}

/-! ## Marks in the spare -/

/-- The spare of a deletion marker. -/
def norDeleted : NorSpare :=
  NorSpare.blank.setStatus 0

theorem norDrvAndBytes_setStatus (sp m : NorSpare) (st st' : BitVec 8) :
    norDrvAndBytes (sp.setStatus st) (m.setStatus st') = (norDrvAndBytes sp m).setStatus (st &&& st') :=
  norSpare_ext rfl (withStatus_and _ _ _ _) rfl rfl

theorem spareUnder_and (sp m : NorSpare) : SpareUnder (norDrvAndBytes sp m) sp :=
  ⟨Under.and_left _ _, Under.and_left _ _, Under.and_left _ _, Under.and_left _ _⟩

theorem norDrvAndBytes_blank (sp : NorSpare) : norDrvAndBytes sp .blank = sp := by
  have hones : ∀ x : BitVec 32, x &&& 0xffffffff = x := fun x => by
    rw [BitVec.and_comm]
    exact (under_allOnes x).and_eq
  exact norSpare_ext (hones _) (hones _) (hones _) (hones _)

/-- A spare without data is put over the one that is there. -/
theorem norWrSpare_ends (c : ℕ) (m : NorSpare) (s : NorSim) :
    NorEnds (fun w' => (Outside c s.word w' ∧
        norsimRd32 w' (norChunk2DataAddr c) norDataWords = norsimRd32 s.word (norChunk2DataAddr c) norDataWords) ∧
        norRdSpare w' (norChunk2SpareAddr c) = norDrvAndBytes (norRdSpare s.word (norChunk2SpareAddr c)) m)
      (fun w' => (Outside c s.word w' ∧
        norsimRd32 w' (norChunk2DataAddr c) norDataWords = norsimRd32 s.word (norChunk2DataAddr c) norDataWords) ∧
        SpareUnder (norDrvAndBytes (norRdSpare s.word (norChunk2SpareAddr c)) m)
          (norRdSpare w' (norChunk2SpareAddr c)) ∧
        SpareUnder (norRdSpare w' (norChunk2SpareAddr c)) (norRdSpare s.word (norChunk2SpareAddr c)))
      (norDrvWriteChunkToNAND sim c none (some m) s) := by
  have hfit := spareFits (spareUnder_and (norRdSpare s.word (norChunk2SpareAddr c)) m)
  refine NorEnds.mono (norsimWr32_ends _ _ s hfit) (fun w' hw => ?_) fun w' hw => ?_
  · rw [hw]
    exact ⟨wornSpare_outside hfit.put, norRdSpare_putWords _⟩
  · exact ⟨wornSpare_outside hw, wornSpare_between hw⟩

/-- A page that was written is deleted. -/
theorem norDelete_ends {data : List (BitVec 32)} {sp : NorSpare} (h : Shows s.word c (.holds true data sp)) :
    NorEnds (fun w' => Outside c s.word w' ∧ Shows w' c .torn)
      (fun w' => Outside c s.word w' ∧ (Shows w' c (.holds true data sp) ∨ Shows w' c .torn))
      (norDrvWriteChunkToNAND sim c none (some norDeleted) s) := by
  obtain ⟨hdata, hspare, hst⟩ := h
  have hand : norDrvAndBytes (norRdSpare s.word (norChunk2SpareAddr c)) norDeleted = sp.setStatus 0 := by
    rw [hspare, norDeleted, norDrvAndBytes_setStatus, norDrvAndBytes_blank,
      show norMarker true &&& 0 = 0 by decide]
  refine NorEnds.mono (norWrSpare_ends c norDeleted s) (fun w' hw => ⟨hw.1.1, ?_⟩) fun w' hw => ⟨hw.1.1, ?_⟩
  · have hzero : (norRdSpare w' (norChunk2SpareAddr c)).pageStatus = 0 := by
      rw [hw.2, hand, NorSpare.pageStatus_setStatus]
    exact Shows.torn_of hzero (by decide)
  · obtain ⟨hlo, hhi⟩ := hw.2
    rw [hand] at hlo
    rw [hspare] at hhi
    obtain ⟨heq, -, hpost⟩ := between_setStatus hlo hhi
    rcases status_postmarked (hpost.trans (Under.and_left norPremarker norPostmarker)) with hf0 | htorn
    · exact Or.inl ⟨hw.1.2.trans hdata, heq.trans (by rw [hf0]; rfl), hst⟩
    · exact Or.inr (Shows.torn_of rfl htorn)

/-- A page with a mark in its spare. -/
def NorPage.mark (m : NorSpare) : NorPage → NorPage
  | .torn => .torn
  | .holds written data sp => .holds written data (norDrvAndBytes sp m)

/-- Some bits of a mark have come into the spare of the page `q`. -/
def PartlyMarked (m : NorSpare) : NorPage → NorPage → Prop
  | .torn, q' => q' = .torn
  | .holds written data sp, q' =>
    ∃ sp', q' = .holds written data sp' ∧ SpareUnder (norDrvAndBytes sp m) sp' ∧ SpareUnder sp' sp

/-- A page is marked without touching its `page_status`. -/
theorem norMark_ends {q : NorPage} {m : NorSpare} (h : Shows s.word c q) (hm : m.pageStatus = 0xff) :
    NorEnds (fun w' => Outside c s.word w' ∧ Shows w' c (q.mark m))
      (fun w' => Outside c s.word w' ∧ ∃ q', PartlyMarked m q q' ∧ Shows w' c q')
      (norDrvWriteChunkToNAND sim c none (some m) s) := by
  have hones : ∀ st : BitVec 8, st &&& 0xff = st := fun st => by
    rw [BitVec.and_comm]
    exact (under_allOnes st).and_eq
  have hstatus : ∀ sp : NorSpare, (norDrvAndBytes sp m).pageStatus = sp.pageStatus := fun sp => by
    have := norDrvAndBytes_setStatus sp m sp.pageStatus 0xff
    rw [NorSpare.setStatus_self rfl, NorSpare.setStatus_self hm, hones] at this
    rw [this, NorSpare.pageStatus_setStatus]
  refine NorEnds.mono (norWrSpare_ends c m s) (fun w' hw => ⟨hw.1.1, ?_⟩) fun w' hw => ⟨hw.1.1, ?_⟩
  · cases q with
    | torn => exact Shows.torn_of (by rw [hw.2, hstatus]) h
    | holds written data sp =>
      refine ⟨hw.1.2.trans h.1, ?_, (hstatus sp).trans h.2.2⟩
      rw [hw.2, h.2.1, ← hones (norMarker written), ← norDrvAndBytes_setStatus, NorSpare.setStatus_self hm, hones]
  · obtain ⟨hlo, hhi⟩ := hw.2
    have hsame : (norRdSpare w' (norChunk2SpareAddr c)).pageStatus =
        (norRdSpare s.word (norChunk2SpareAddr c)).pageStatus :=
      Under.antisymm hhi.w1.setWidth (hstatus (norRdSpare s.word (norChunk2SpareAddr c)) ▸ hlo.w1.setWidth)
    cases q with
    | torn => exact ⟨.torn, rfl, Shows.torn_of hsame h⟩
    | holds written data sp =>
      obtain ⟨hdata, hspare, hst⟩ := h
      rw [hspare] at hlo hhi hsame
      rw [NorSpare.pageStatus_setStatus] at hsame
      have hback : ∀ sp' : NorSpare, sp'.pageStatus = 0xff → (sp'.setStatus (norMarker written)).setStatus 0xff =
          sp' :=
        fun sp' h => by rw [NorSpare.setStatus_setStatus, NorSpare.setStatus_self h]
      have hand : norDrvAndBytes (sp.setStatus (norMarker written)) m =
          (norDrvAndBytes sp m).setStatus (norMarker written) := by
        rw [← hones (norMarker written), ← norDrvAndBytes_setStatus, NorSpare.setStatus_self hm, hones]
      refine ⟨_, ⟨(norRdSpare w' (norChunk2SpareAddr c)).setStatus 0xff, rfl, ?_, ?_⟩, hw.1.2.trans hdata, ?_, ?_⟩
      · rw [← hback (norDrvAndBytes sp m) ((hstatus sp).trans hst), ← hand]
        exact spareUnder_setStatus hlo (Under.refl _)
      · rw [← hback sp hst]
        exact spareUnder_setStatus hhi (Under.refl _)
      · rw [NorSpare.setStatus_setStatus, NorSpare.setStatus_self hsame]
      · rw [NorSpare.pageStatus_setStatus]

/-! ## Blocks -/

/-- Only the words of the block `b` have changed. -/
def OutsideBlock (b : ℕ) (w w' : ℕ → BitVec 32) : Prop :=
  ∀ a, a < norBlock2Addr b ∨ norBlock2Addr (b + 1) ≤ a → w' a = w a

theorem OutsideBlock.trans (h : OutsideBlock b w w') (h' : OutsideBlock b w' w'') : OutsideBlock b w w'' :=
  fun a ha => (h' a ha).trans (h a ha)

/-- A chunk lies in its block, before the format marker. -/
theorem norChunk_in (c : ℕ) : norBlock2Addr (c / norChunksPerBlock) ≤ norChunk2DataAddr c ∧
    norChunk2DataAddr c + (norDataWords + norSpareWords) ≤ norBlock2FormatAddr (c / norChunksPerBlock) := by
  have hr : c % 248 < 248 := Nat.mod_lt _ (by decide)
  change c / 248 * 32768 ≤ c / 248 * 32768 + c % 248 * 132 ∧
    c / 248 * 32768 + c % 248 * 132 + 132 ≤ c / 248 * 32768 + 32736
  omega

theorem norFormat_in (b : ℕ) : norBlock2Addr b ≤ norBlock2FormatAddr b ∧
    norBlock2FormatAddr b < norBlock2Addr (b + 1) := by
  change b * 32768 ≤ b * 32768 + 32736 ∧ b * 32768 + 32736 < (b + 1) * 32768
  omega

theorem norBlock2Addr_mono (h : b ≤ b') : norBlock2Addr b ≤ norBlock2Addr b' :=
  Nat.mul_le_mul_right _ h

theorem OutsideBlock.other (h : OutsideBlock b w w') (hb : b' ≠ b) {a : ℕ} (hlo : norBlock2Addr b' ≤ a)
    (hhi : a < norBlock2Addr (b' + 1)) : w' a = w a := by
  refine h a ?_
  rcases Nat.lt_or_gt_of_ne hb with hlt | hgt
  · exact Or.inl (Nat.lt_of_lt_of_le hhi (norBlock2Addr_mono hlt))
  · exact Or.inr (Nat.le_trans (norBlock2Addr_mono hgt) hlo)

/-- How the block `b` is seen : it is formatted and its chunks are seen as in `a`, or it is not, and is going to
be blank. -/
def BlockAs (up : Bool) (w : ℕ → BitVec 32) (a : ℕ → NorPage) (b : ℕ) : Prop :=
  norDrvIsBlockFormatted w b = true ∧ (∀ c, c / norChunksPerBlock = b → Shows w c (a c)) ∨
    up = false ∧ norDrvIsBlockFormatted w b = false ∧ ∀ c, c / norChunksPerBlock = b → a c = .blank

theorem BlockAs.down (h : BlockAs up w a b) : BlockAs false w a b :=
  h.imp id fun h => ⟨rfl, h.2⟩

theorem BlockAs.outside (h : BlockAs up w a b') (hb : b' ≠ b) (hw : OutsideBlock b w w')
    (ha : ∀ c, c / norChunksPerBlock = b' → a' c = a c) : BlockAs up w' a' b' := by
  have hformat : norDrvIsBlockFormatted w' b' = norDrvIsBlockFormatted w b' := by
    unfold norDrvIsBlockFormatted
    rw [hw.other hb (norFormat_in b').1 (norFormat_in b').2]
  rcases h with ⟨h1, h2⟩ | ⟨h1, h2, h3⟩
  · refine Or.inl ⟨hformat.trans h1, fun c hc => ha c hc ▸ (h2 c hc).congr fun x hlo hhi => ?_⟩
    have hin := norChunk_in c
    have hend := (norFormat_in b').2
    rw [hc] at hin
    exact hw.other hb (by omega) (by omega)
  · exact Or.inr ⟨h1, hformat.trans h2, fun c hc => (ha c hc).trans (h3 c hc)⟩

/-- A write in a chunk changes what that chunk is seen as. -/
theorem BlockAs.write {q : NorPage} (h : BlockAs true w a b) (hw : Outside c w w') (hq : Shows w' c q) :
    BlockAs true w' (Function.update a c q) b := by
  rcases h with ⟨h1, h2⟩ | ⟨h1, -⟩
  · refine Or.inl ⟨?_, fun c' hc' => ?_⟩
    · unfold norDrvIsBlockFormatted at h1 ⊢
      rw [hw _ (norFormat_apart b c)]
      exact h1
    · by_cases hcc : c' = c
      · subst hcc
        rwa [Function.update_self]
      · rw [Function.update_of_ne hcc]
        exact (h2 c' hc').outside hcc hw
  · exact absurd h1 (by decide)

/-- The words of a block after its erasure. -/
theorem norsimErase_spec (b : ℕ) (s : NorSim) : OutsideBlock b s.word (norsimErase (norBlock2Addr b) s).word ∧
    ∀ x, norBlock2Addr b ≤ x → x < norBlock2Addr (b + 1) → (norsimErase (norBlock2Addr b) s).word x = 0xffffffff := by
  have hnext : norBlock2Addr b + norBlockWords = norBlock2Addr (b + 1) := (Nat.succ_mul _ _).symm
  unfold norsimErase
  dsimp only
  rw [hnext]
  exact ⟨fun x hx => if_neg (by omega), fun x hlo hhi => if_pos ⟨hlo, hhi⟩⟩

/-- A chunk whose words are all ones is blank. -/
theorem shows_blank (h : ∀ x, norChunk2DataAddr c ≤ x → x < norChunk2DataAddr c + (norDataWords + norSpareWords) →
    w x = 0xffffffff) : Shows w c .blank := by
  have hlen : norSpareWords = 4 := rfl
  refine ⟨?_, ?_, rfl⟩
  · unfold norsimRd32
    refine List.ext_getElem (by simp) fun i h1 h2 => ?_
    have hi : i < norDataWords := by simpa using h2
    rw [List.getElem_map, List.getElem_range, h _ (by omega) (by omega), List.getElem_replicate]
  · refine Eq.trans ?_ (NorSpare.setStatus_self (show NorSpare.blank.pageStatus = 0xff from rfl)).symm
    unfold norChunk2SpareAddr
    exact norSpare_ext (h _ (by omega) (by omega)) (h _ (by omega) (by omega)) (h _ (by omega) (by omega))
      (h _ (by omega) (by omega))

/-- Only the format marker of the block `b` has changed : its chunks are seen as before. -/
theorem shows_marker {q : NorPage} (hw : ∀ x, x ≠ norBlock2FormatAddr b → w' x = w x)
    (h : Shows w c q) : Shows w' c q :=
  h.congr fun x hlo hhi => hw x (by
    have := norFormat_apart b c
    omega)

/-- A block is formatted : if the power fails it is blank, with or without its marker. -/
theorem norFormat_ends (b : ℕ) (s : NorSim) :
    NorEnds (fun w' => OutsideBlock b s.word w' ∧ norDrvIsBlockFormatted w' b = true ∧
        ∀ c, c / norChunksPerBlock = b → Shows w' c .blank)
      (fun w' => OutsideBlock b s.word w' ∧ ∀ c, c / norChunksPerBlock = b → Shows w' c .blank)
      (norDrvFormatBlock sim b s) := by
  obtain ⟨hout, hones⟩ := norsimErase_spec b s
  have hin := norFormat_in b
  have hblank : ∀ c, c / norChunksPerBlock = b → Shows (norsimErase (norBlock2Addr b) s).word c .blank :=
      fun c hc => by
    have hchunk := norChunk_in c
    rw [hc] at hchunk
    exact shows_blank fun x hlo hhi => hones x (by omega) (by omega)
  have hfit : Fits (norsimErase (norBlock2Addr b) s).word (norBlock2FormatAddr b) [norFormatValue] := by
    intro i hi
    obtain rfl : i = 0 := by simpa using hi
    rw [Nat.add_zero, hones _ hin.1 hin.2]
    exact under_allOnes _
  have hworn : ∀ w', Worn (norsimErase (norBlock2Addr b) s).word (norBlock2FormatAddr b) [norFormatValue] w' →
      OutsideBlock b s.word w' ∧ ∀ c, c / norChunksPerBlock = b → Shows w' c .blank := fun w' hw => by
    have hother : ∀ x, x ≠ norBlock2FormatAddr b → w' x = (norsimErase (norBlock2Addr b) s).word x := fun x hx =>
      hw.other x (by rw [List.length_singleton]; omega)
    refine ⟨hout.trans fun x hx => hother x (by omega), fun c hc => shows_marker hother (hblank c hc)⟩
  refine NorEnds.mono (norsimWr32_ends _ _ _ hfit) (fun w' hw => ?_) hworn
  obtain ⟨h1, h2⟩ := hworn _ hfit.put
  rw [hw]
  refine ⟨h1, ?_, h2⟩
  have hmarker : putWords (norsimErase (norBlock2Addr b) s).word (norBlock2FormatAddr b) [norFormatValue]
      (norBlock2FormatAddr b + 0) = norFormatValue := putWords_at (by simp)
  rw [Nat.add_zero] at hmarker
  unfold norDrvIsBlockFormatted
  rw [hmarker, decide_eq_true_eq]

/-- A block is erased : if the power fails it is not formatted, or it is as it was, or it is blank. -/
theorem norErase_ends (hb : b < norBlocksInDevice) (s : NorSim) :
    NorEnds (fun w' => OutsideBlock b s.word w' ∧ norDrvIsBlockFormatted w' b = true ∧
        ∀ c, c / norChunksPerBlock = b → Shows w' c .blank)
      (fun w' => OutsideBlock b s.word w' ∧ ((∀ c q, c / norChunksPerBlock = b → Shows s.word c q → Shows w' c q) ∨
        ∀ c, c / norChunksPerBlock = b → Shows w' c .blank))
      (norDrvEraseBlockInNAND sim b s) := by
  have hin := norFormat_in b
  have hfit : Fits s.word (norBlock2FormatAddr b) [0] := by
    intro i hi
    obtain rfl : i = 0 := by simpa using hi
    exact fun j hj => absurd (show (0 : BitVec 32).getLsbD j = true from hj) (by simp)
  have hworn : ∀ w', Worn s.word (norBlock2FormatAddr b) [0] w' → OutsideBlock b s.word w' ∧
      ∀ c q, c / norChunksPerBlock = b → Shows s.word c q → Shows w' c q := fun w' hw => by
    have hother : ∀ x, x ≠ norBlock2FormatAddr b → w' x = s.word x := fun x hx =>
      hw.other x (by rw [List.length_singleton]; omega)
    exact ⟨fun x hx => hother x (by omega), fun c q _ hq => shows_marker hother hq⟩
  unfold norDrvEraseBlockInNAND
  rw [if_pos hb]
  refine NorEnds.bind (NorEnds.mono (norsimWr32_ends _ _ s hfit) (fun _ h => h) fun w' hw => ?_) fun s' hs' => ?_
  · exact (hworn w' hw).imp id Or.inl
  · obtain ⟨h1, -⟩ := hworn _ hfit.put
    rw [← hs'] at h1
    exact NorEnds.mono (norFormat_ends b s') (fun w' hw => ⟨h1.trans hw.1, hw.2⟩) fun w' hw =>
      ⟨h1.trans hw.1, Or.inr hw.2⟩

/-- The device is initialised : the blocks without a marker are formatted, and nothing else changes. -/
theorem norInitialise_ends (n : ℕ) : ∀ (i : ℕ) (s : NorSim), i + n = norBlocksInDevice →
    (∀ b < i, BlockAs true s.word a b) → (∀ b < norBlocksInDevice, BlockAs false s.word a b) →
    NorEnds (fun w' => ∀ b < norBlocksInDevice, BlockAs true w' a b)
      (fun w' => ∀ b < norBlocksInDevice, BlockAs false w' a b) (norDrvInitialiseLoop sim n i s) := by
  induction n with
  | zero => exact fun i s hi hup _ => Or.inl ⟨s, rfl, fun b hb => hup b (by omega)⟩
  | succ n ih =>
    intro i s hi hup hdown
    unfold norDrvInitialiseLoop
    split_ifs with hformat
    · refine ih (i + 1) s (by omega) (fun b hb => ?_) hdown
      rcases Nat.lt_succ_iff_lt_or_eq.mp hb with hlt | rfl
      · exact hup b hlt
      · rcases hdown b (by omega) with h | ⟨-, hno, -⟩
        · exact Or.inl h
        · rw [hformat] at hno
          exact absurd hno (by decide)
    · have hblank : ∀ c, c / norChunksPerBlock = i → a c = .blank := by
        rcases hdown i (by omega) with ⟨h, -⟩ | ⟨-, -, h⟩
        · exact absurd h hformat
        · exact h
      refine NorEnds.bind (NorEnds.mono (norFormat_ends i s) (fun _ h => h) fun w' hw b hb => ?_) fun s' hs' => ?_
      · by_cases hbi : b = i
        · subst hbi
          cases hf : norDrvIsBlockFormatted w' b with
          | true => exact Or.inl ⟨hf, fun c hc => (hblank c hc).symm ▸ hw.2 c hc⟩
          | false => exact Or.inr ⟨rfl, hf, hblank⟩
        · exact (hdown b hb).outside hbi hw.1 fun _ _ => rfl
      · have hself : BlockAs true s'.word a i :=
          Or.inl ⟨hs'.2.1, fun c hc => (hblank c hc).symm ▸ hs'.2.2 c hc⟩
        refine ih (i + 1) s' (by omega) (fun b hb => ?_) fun b hb => ?_
        · by_cases hbi : b = i
          · exact hbi ▸ hself
          · exact (hup b (by omega)).outside hbi hs'.1 fun _ _ => rfl
        · by_cases hbi : b = i
          · exact hbi ▸ hself.down
          · exact (hdown b hb).outside hbi hs'.1 fun _ _ => rfl

/-! ## Reading -/

/-- A page is read as it is seen. -/
theorem Shows.read {data : List (BitVec 32)} {sp : NorSpare} {written : Bool}
    (h : Shows w c (.holds written data sp)) :
    norDrvReadChunkFromNAND w c = (data, sp) := by
  obtain ⟨hdata, hspare, hst⟩ := h
  have hstatus : norReadStatus (norMarker written) = 0xff := by cases written <;> decide
  unfold norDrvReadChunkFromNAND
  dsimp only
  rw [hdata, hspare, NorSpare.pageStatus_setStatus, hstatus, NorSpare.setStatus_setStatus,
    NorSpare.setStatus_self hst]

/-- A torn chunk is read with the pre-marker. -/
theorem Shows.read_torn (h : Shows w c .torn) : (norDrvReadChunkFromNAND w c).2.pageStatus = norPremarker := by
  have hall : ∀ st : BitVec 8, st ≠ norPostmarker ∧ st &&& 0x09 ≠ 0x09 → norReadStatus st = norPremarker :=
      by decide
  unfold norDrvReadChunkFromNAND
  rw [NorSpare.pageStatus_setStatus]
  exact hall _ h

/-! ## Runs -/

/-- What is called on the driver. -/
inductive NorCall
  /-- A chunk is written. -/
  | write (c : ℕ) (data : List (BitVec 32)) (spare : NorSpare)
  /-- A deletion marker is written. -/
  | delete (c : ℕ)
  /-- A bad block marker is written. -/
  | mark (c : ℕ) (m : NorSpare)
  | erase (b : ℕ)
  | initialise

/-- The words of the flash, and whether the device is initialised. -/
structure NorDev where
  word : ℕ → BitVec 32
  up : Bool

/-- The call, on the driver. -/
def NorCall.exec (simulatePowerFailure : Bool) : NorCall → NorSim → Except NorStop NorSim
  | .write c data spare => norDrvWriteChunkToNAND simulatePowerFailure c (some data) (some spare)
  | .delete c => norDrvWriteChunkToNAND simulatePowerFailure c none (some norDeleted)
  | .mark c m => norDrvWriteChunkToNAND simulatePowerFailure c none (some m)
  | .erase b => norDrvEraseBlockInNAND simulatePowerFailure b
  | .initialise => norDrvInitialiseNAND simulatePowerFailure

/-- The core writes to chunks that are erased, and deletes chunks that have been written. -/
def NorCall.Allowed (dev : NorDev) : NorCall → Prop
  | .write c data spare => dev.up = true ∧ c / norChunksPerBlock < norBlocksInDevice ∧
      norDrvReadChunkFromNAND dev.word c = (List.replicate norDataWords 0xffffffff, .blank) ∧
      (norRdSpare dev.word (norChunk2SpareAddr c)).pageStatus = 0xff ∧
      data.length = norDataWords ∧ spare.pageStatus = 0xff
  | .delete c => dev.up = true ∧ c / norChunksPerBlock < norBlocksInDevice ∧
      (norRdSpare dev.word (norChunk2SpareAddr c)).pageStatus = norPostmarker
  | .mark c m => dev.up = true ∧ c / norChunksPerBlock < norBlocksInDevice ∧ m.pageStatus = 0xff
  | .erase b => dev.up = true ∧ b < norBlocksInDevice
  | .initialise => dev.up = false

/-- Runs of the driver with what was called and whether it came to its end. The power may fail in a call, and
between two calls; `rand` and the power last as they please. -/
inductive NorRun (sim : Bool) (dev : NorDev) : List (NorCall × Bool) → NorDev → Prop
  | start : NorRun sim dev [] dev
  | finish {ls : List (NorCall × Bool)} {dev' : NorDev} {call : NorCall} {s s' : NorSim} : NorRun sim dev ls dev' →
      call.Allowed dev' → s.word = dev'.word → call.exec sim s = .ok s' →
      NorRun sim dev (ls ++ [(call, true)]) ⟨s'.word, true⟩
  | fail {ls : List (NorCall × Bool)} {dev' : NorDev} {call : NorCall} {s : NorSim} {image : ℕ → BitVec 32} :
      NorRun sim dev ls dev' → call.Allowed dev' → s.word = dev'.word →
        call.exec sim s = .error (.powerFail image) →
      NorRun sim dev (ls ++ [(call, false)]) ⟨image, false⟩
  | cut {ls : List (NorCall × Bool)} {dev' : NorDev} : NorRun sim dev ls dev' → NorRun sim dev ls ⟨dev'.word, false⟩

/-- What a call is to do to the pages, `done` or cut off. -/
def NorSpec (done : Bool) (a a' : ℕ → NorPage) : NorCall → Prop
  | .write c data spare => a c = .blank ∧ (a' = Function.update a c (.holds true data spare) ∨
      done = false ∧ (a' = a ∨ a' = Function.update a c .torn))
  | .delete c => (∃ data spare, a c = .holds true data spare) ∧
      (a' = Function.update a c .torn ∨ done = false ∧ a' = a)
  | .mark c m => ∃ q, a' = Function.update a c q ∧ PartlyMarked m (a c) q ∧ (done = true → q = (a c).mark m)
  | .erase b => (a' = fun c => if c / norChunksPerBlock = b then .blank else a c) ∨ done = false ∧ a' = a
  | .initialise => a' = a

/-- The pages after calls that are done or cut off. -/
inductive NorSpecRun (a : ℕ → NorPage) : List (NorCall × Bool) → (ℕ → NorPage) → Prop
  | start : NorSpecRun a [] a
  | step {ls : List (NorCall × Bool)} {a' a'' : ℕ → NorPage} {call : NorCall} {done : Bool} : NorSpecRun a ls a' →
      NorSpec done a' a'' call → NorSpecRun a (ls ++ [(call, done)]) a''

/-- The device is seen as these pages. -/
def NorAs (dev : NorDev) (a : ℕ → NorPage) : Prop :=
  ∀ b < norBlocksInDevice, BlockAs dev.up dev.word a b

theorem NorAs.shows {dev : NorDev} (h : NorAs dev a) (hup : dev.up = true)
    (hc : c / norChunksPerBlock < norBlocksInDevice) :
    Shows dev.word c (a c) := by
  rcases h _ hc with ⟨-, hs⟩ | ⟨hno, -⟩
  · exact hs c rfl
  · rw [hup] at hno
    exact absurd hno (by decide)

/-- A chunk that reads as erased, and has no marker, is blank. -/
theorem Shows.erased {q : NorPage} (h : Shows w c q)
    (hread : norDrvReadChunkFromNAND w c = (List.replicate norDataWords 0xffffffff, .blank))
    (hst : (norRdSpare w (norChunk2SpareAddr c)).pageStatus = 0xff) : q = .blank := by
  cases q with
  | torn =>
    obtain ⟨-, h⟩ := h
    rw [hst] at h
    exact absurd (show (0xff : BitVec 8) &&& 0x09 = 0x09 by decide) h
  | holds written data sp =>
    have hmarker := h.2.1
    rw [h.read, Prod.mk.injEq] at hread
    rw [hmarker, NorSpare.pageStatus_setStatus] at hst
    cases written with
    | true => exact absurd hst (by decide)
    | false => rw [hread.1, hread.2, NorPage.blank]

/-- Of chunks that can be read those that have been written have the post-marker. -/
theorem Shows.written {q : NorPage} (h : Shows w c q)
    (hst : (norRdSpare w (norChunk2SpareAddr c)).pageStatus = norPostmarker) : ∃ data sp, q = .holds true data sp := by
  cases q with
  | torn => exact absurd hst h.1
  | holds written data sp =>
    rw [h.2.1, NorSpare.pageStatus_setStatus] at hst
    cases written with
    | true => exact ⟨data, sp, rfl⟩
    | false => exact absurd hst (by decide)

/-- A call in a chunk changes the page of that chunk. -/
theorem NorAs.write {q : NorPage} {up' : Bool} (h : NorAs ⟨w, true⟩ a) (hw : Outside c w w') (hq : Shows w' c q) :
    NorAs ⟨w', up'⟩ (Function.update a c q) := fun b hb => by
  have hblock := (h b hb).write hw hq
  cases up' with
  | true => exact hblock
  | false => exact hblock.down

/-- One call : it does what it is to do, or is cut off. -/
theorem norCall_ends {dev : NorDev} {call : NorCall} (ha : NorAs dev a) (hc : call.Allowed dev)
    (hword : s.word = dev.word) :
    NorEnds (fun w' => ∃ a', NorSpec true a a' call ∧ NorAs ⟨w', true⟩ a')
      (fun w' => ∃ a', NorSpec false a a' call ∧ NorAs ⟨w', false⟩ a') (call.exec sim s) := by
  obtain ⟨w, up⟩ := dev
  obtain rfl : s.word = w := hword
  cases call with
  | write c data spare =>
    obtain ⟨rfl, hin, hread, hff, hlen, hst⟩ := hc
    have hshows := ha.shows rfl hin
    have hblank := hshows.erased hread hff
    rw [hblank] at hshows
    refine NorEnds.mono (norWrite_ends hshows hlen hst) (fun w' hw => ?_) fun w' hw => ?_
    · exact ⟨_, ⟨hblank, Or.inl rfl⟩, ha.write hw.1 hw.2⟩
    · rcases hw.2 with h | h | h
      · refine ⟨a, ⟨hblank, Or.inr ⟨rfl, Or.inl rfl⟩⟩, ?_⟩
        rw [← Function.update_eq_self c a, hblank]
        exact ha.write hw.1 h
      · exact ⟨_, ⟨hblank, Or.inr ⟨rfl, Or.inr rfl⟩⟩, ha.write hw.1 h⟩
      · exact ⟨_, ⟨hblank, Or.inl rfl⟩, ha.write hw.1 h⟩
  | delete c =>
    obtain ⟨rfl, hin, hst⟩ := hc
    have hshows := ha.shows rfl hin
    obtain ⟨data, sp, hpage⟩ := hshows.written hst
    rw [hpage] at hshows
    refine NorEnds.mono (norDelete_ends hshows) (fun w' hw => ?_) fun w' hw => ?_
    · exact ⟨_, ⟨⟨data, sp, hpage⟩, Or.inl rfl⟩, ha.write hw.1 hw.2⟩
    · rcases hw.2 with h | h
      · refine ⟨a, ⟨⟨data, sp, hpage⟩, Or.inr ⟨rfl, rfl⟩⟩, ?_⟩
        rw [← Function.update_eq_self c a, hpage]
        exact ha.write hw.1 h
      · exact ⟨_, ⟨⟨data, sp, hpage⟩, Or.inl rfl⟩, ha.write hw.1 h⟩
  | mark c m =>
    obtain ⟨rfl, hin, hm⟩ := hc
    refine NorEnds.mono (norMark_ends (ha.shows rfl hin) hm) (fun w' hw => ?_) fun w' hw => ?_
    · refine ⟨_, ⟨_, rfl, ?_, fun _ => rfl⟩, ha.write hw.1 hw.2⟩
      cases a c with
      | torn => rfl
      | holds written data sp => exact ⟨_, rfl, SpareUnder.refl _, spareUnder_and _ _⟩
    · obtain ⟨q, hq, hshows⟩ := hw.2
      exact ⟨_, ⟨q, rfl, hq, fun h => absurd h (by decide)⟩, ha.write hw.1 hshows⟩
  | erase b =>
    obtain ⟨rfl, hb⟩ := hc
    refine NorEnds.mono (norErase_ends hb s) (fun w' hw => ?_) fun w' hw => ?_
    · refine ⟨_, Or.inl rfl, fun b' hb' => ?_⟩
      by_cases hbb : b' = b
      · subst hbb
        refine Or.inl ⟨hw.2.1, fun c hc => ?_⟩
        dsimp only
        rw [if_pos hc]
        exact hw.2.2 c hc
      · exact (ha b' hb').outside hbb hw.1 fun c hc => if_neg (hc ▸ hbb)
    · have hblank : (∀ c, c / norChunksPerBlock = b → Shows w' c .blank) ∨ norDrvIsBlockFormatted w' b = false →
          ∃ a', NorSpec false a a' (.erase b) ∧ NorAs ⟨w', false⟩ a' := fun hor => by
        refine ⟨_, Or.inl rfl, fun b' hb' => ?_⟩
        by_cases hbb : b' = b
        · subst hbb
          cases hf : norDrvIsBlockFormatted w' b' with
          | true =>
            refine Or.inl ⟨hf, fun c hc => ?_⟩
            dsimp only
            rw [if_pos hc]
            exact (hor.resolve_right (by rw [hf]; decide)) c hc
          | false => exact Or.inr ⟨rfl, hf, fun c hc => if_pos hc⟩
        · exact ((ha b' hb').outside hbb hw.1 fun c hc => if_neg (hc ▸ hbb)).down
      rcases hw.2 with hsame | hall
      · cases hf : norDrvIsBlockFormatted w' b with
        | false => exact hblank (Or.inr hf)
        | true =>
          refine ⟨a, Or.inr ⟨rfl, rfl⟩, fun b' hb' => ?_⟩
          by_cases hbb : b' = b
          · subst hbb
            exact Or.inl ⟨hf, fun c hc => hsame c _ hc (ha.shows rfl (hc ▸ hb))⟩
          · exact ((ha b' hb').outside hbb hw.1 fun _ _ => rfl).down
      · exact hblank (Or.inl hall)
  | initialise =>
    obtain rfl : up = false := hc
    exact NorEnds.mono (norInitialise_ends norBlocksInDevice 0 s (Nat.zero_add _)
      (fun b hb => absurd hb (Nat.not_lt_zero b)) ha) (fun w' hw => ⟨a, rfl, hw⟩) fun w' hw => ⟨a, rfl, hw⟩

end Yaffs
