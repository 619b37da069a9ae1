import Yaffs.NorFlash

/-!
# The NOR driver across power failures

A chunk is seen as blank, as a page that holds data and a spare, or as torn : its `page_status` then reads as the
pre-marker, of whose bits six are set, and the core takes it for a deleted page. `norRun_refines` : whatever is
called, and wherever the power fails, a write leaves its chunk blank, torn or whole, and an erasure leaves its
block as it was or blank once the device is initialised again; nothing else changes, and no write ever has to set
a bit.
-/

namespace Yaffs

open Cutoff

variable {sim : Bool} {s : NorSim} {w w' w'' : ℕ → BitVec 32} {addr c b : ℕ} {val : BitVec 32}
  {buf data : List (BitVec 32)} {n : ℕ}

/-! ## Writing words -/

/-- The power fails, and what is saved is as in `C`. -/
def norCut (C : (ℕ → BitVec 32) → Prop) (x : NorStop) : Prop :=
  ∃ w, x = .powerFail w ∧ C w

/-- The program ends with words as in `Q`, or the power fails and the words are as in `C`. -/
def NorEnds (Q C : (ℕ → BitVec 32) → Prop) : Except NorStop NorSim → Prop :=
  Ends (fun s => Q s.word) (norCut C)

theorem NorEnds.mono {Q Q' C C' : (ℕ → BitVec 32) → Prop} {r : Except NorStop NorSim} (h : NorEnds Q C r)
    (hQ : ∀ w, Q w → Q' w) (hC : ∀ w, C w → C' w) : NorEnds Q' C' r :=
  Ends.mono h (fun s hs => hQ s.word hs) fun _ ⟨w, hx, hw⟩ => ⟨w, hx, hC w hw⟩

theorem NorEnds.bind {Q R C : (ℕ → BitVec 32) → Prop} {r : Except NorStop NorSim}
    {f : NorSim → Except NorStop NorSim} (h : NorEnds Q C r) (hf : ∀ s, Q s.word → NorEnds R C (f s)) :
    NorEnds R C (r >>= f) :=
  Ends.bind h hf

/-- Some bits of a word have been cleared that `val` does not have. -/
def Clearing (val : BitVec 32) (addr : ℕ) (w w' : ℕ → BitVec 32) : Prop :=
  ∃ t, w' = Function.update w addr t ∧ Under val t ∧ Under t (w addr)

theorem Clearing.trans (h : Clearing val addr w w') (h' : Clearing val addr w' w'') : Clearing val addr w w'' := by
  obtain ⟨t, rfl, hv, ht⟩ := h
  obtain ⟨t', rfl, hv', ht'⟩ := h'
  rw [Function.update_self] at ht'
  exact ⟨t', by rw [Function.update_idem], hv', ht'.trans ht⟩

theorem Clearing.under (h : Clearing val addr w w') : Under val (w' addr) := by
  obtain ⟨t, rfl, hv, -⟩ := h
  rwa [Function.update_self]

theorem norsimMaybePowerFail_ends {C : (ℕ → BitVec 32) → Prop} (h : C s.word) :
    NorEnds C C (norsimMaybePowerFail sim s) := by
  unfold norsimMaybePowerFail
  dsimp only
  split_ifs
  · exact Or.inr ⟨_, rfl, s.word, rfl, h⟩
  · exact Or.inl ⟨_, rfl, h⟩

theorem norsimChangeBits_ends (n : ℕ) : ∀ s : NorSim, Under val (s.word addr) →
    NorEnds (Clearing val addr s.word) (Clearing val addr s.word) (norsimChangeBits sim addr val n s) := by
  induction n with
  | zero => exact fun s h => Or.inl ⟨s, rfl, s.word addr, (Function.update_eq_self _ _).symm, h, Under.refl _⟩
  | succ n ih =>
    intro s h
    unfold norsimChangeBits
    dsimp only
    split_ifs with hm
    · have hstep : Clearing val addr s.word
          (Function.update s.word addr (s.word addr &&& ~~~(1#32 <<< (s.rand 0 % 32)))) :=
        ⟨_, rfl, h.clear hm, Under.and_left _ _⟩
      refine Ends.bind (norsimMaybePowerFail_ends (C := Clearing val addr s.word) hstep) fun s' hs' => ?_
      exact NorEnds.mono (ih s' hs'.under) (fun _ => hs'.trans) fun _ => hs'.trans
    · exact ih { s with rand := fun i => s.rand (i + 1) } h

theorem norsimWrOneWord32_ends (h : Under val (s.word addr)) :
    NorEnds (· = Function.update s.word addr val) (Clearing val addr s.word) (norsimWrOneWord32 sim addr val s) := by
  unfold norsimWrOneWord32
  rw [if_pos h.and_not]
  refine Ends.bind (norsimChangeBits_ends norsimBitChanges s h) fun s' hs' => ?_
  have hval : Function.update s'.word addr (s'.word addr &&& val) = Function.update s.word addr val := by
    obtain ⟨t, ht, hv, -⟩ := hs'
    rw [ht, Function.update_self, hv.and_eq, Function.update_idem]
  have hend : NorEnds (· = Function.update s.word addr val) (· = Function.update s.word addr val)
      (norsimMaybePowerFail sim (s'.store addr (s'.word addr &&& val))) := norsimMaybePowerFail_ends hval
  exact hend.mono (fun _ hw => hw) fun w hw => ⟨val, hw, Under.refl _, h⟩

/-- Words are written that need no bit set. -/
theorem norsimWr32_ends (buf : List (BitVec 32)) : ∀ (addr : ℕ) (s : NorSim), Fits s.word addr buf →
    NorEnds (· = putWords s.word addr buf) (Worn s.word addr buf) (norsimWr32 sim addr buf s) := by
  induction buf with
  | nil => exact fun addr s _ => Or.inl ⟨s, rfl, (putWords_nil _ _).symm⟩
  | cons v buf ih =>
    intro addr s h
    have hfirst : NorEnds _ _ (norsimWrOneWord32 sim addr v s) := norsimWrOneWord32_ends (h 0 (Nat.succ_pos _))
    refine Ends.bind (hfirst.mono (fun _ hw => hw) ?_) fun s' hs' => ?_
    · rintro _ ⟨t, rfl, hv, ht⟩
      exact h.first hv ht
    · have hrest := ih (addr + 1) s'
      rw [hs', putWords_cons] at hrest
      exact NorEnds.mono (hrest h.tail) (fun _ hw => hw) fun _ hw => hw.cons h

/-! ## Words with a status byte -/

/-- A word with another low byte. -/
def withStatus (x : BitVec 32) (st : BitVec 8) : BitVec 32 :=
  (x &&& ~~~0xff) ||| st.setWidth 32

theorem getLsbD_withStatus (x : BitVec 32) (st : BitVec 8) {i : ℕ} (hi : i < 32) :
    (withStatus x st).getLsbD i = if i < 8 then st.getLsbD i else x.getLsbD i := by
  have hmask : ∀ i < 32, (0xff : BitVec 32).getLsbD i = decide (i < 8) := by decide
  unfold withStatus
  rw [BitVec.getLsbD_or, BitVec.getLsbD_and, BitVec.getLsbD_not, BitVec.getLsbD_setWidth, hmask i hi]
  split_ifs with h8
  · simp [h8, hi]
  · have hst : st.getLsbD i = false := BitVec.getLsbD_of_ge _ _ (by omega)
    simp [h8, hi, hst]

theorem setWidth_withStatus (x : BitVec 32) (st : BitVec 8) : (withStatus x st).setWidth 8 = st := by
  apply BitVec.eq_of_getLsbD_eq
  intro i hi
  rw [BitVec.getLsbD_setWidth, getLsbD_withStatus x st (by omega), if_pos hi]
  simp [hi]

theorem withStatus_self (x : BitVec 32) : withStatus x (x.setWidth 8) = x := by
  apply BitVec.eq_of_getLsbD_eq
  intro i hi
  rw [getLsbD_withStatus x _ hi, BitVec.getLsbD_setWidth]
  split_ifs with h8 <;> simp [h8]

theorem withStatus_withStatus (x : BitVec 32) (st st' : BitVec 8) :
    withStatus (withStatus x st) st' = withStatus x st' := by
  apply BitVec.eq_of_getLsbD_eq
  intro i hi
  rw [getLsbD_withStatus _ _ hi, getLsbD_withStatus _ _ hi, getLsbD_withStatus _ _ hi]
  split_ifs <;> rfl

theorem withStatus_and (x y : BitVec 32) (st st' : BitVec 8) :
    withStatus x st &&& withStatus y st' = withStatus (x &&& y) (st &&& st') := by
  apply BitVec.eq_of_getLsbD_eq
  intro i hi
  rw [BitVec.getLsbD_and, getLsbD_withStatus _ _ hi, getLsbD_withStatus _ _ hi, getLsbD_withStatus _ _ hi,
    BitVec.getLsbD_and, BitVec.getLsbD_and]
  split_ifs <;> rfl

theorem withStatus_under {x y : BitVec 32} {st st' : BitVec 8} (h : Under x y) (h' : Under st st') :
    Under (withStatus x st) (withStatus y st') := fun i hi => by
  have hlt : i < 32 := BitVec.lt_of_getLsbD hi
  rw [getLsbD_withStatus _ _ hlt] at hi ⊢
  split_ifs at hi ⊢
  · exact h' i hi
  · exact h i hi

/-- Between two words that differ in the low byte, only the low byte differs. -/
theorem between_withStatus {x y : BitVec 32} {st st' : BitVec 8} (h : Under (withStatus x st) y)
    (h' : Under y (withStatus x st')) : y = withStatus x (y.setWidth 8) ∧ Under st (y.setWidth 8) ∧
      Under (y.setWidth 8) st' := by
  have hlow := h.setWidth (m := 8)
  have hhigh := h'.setWidth (m := 8)
  rw [setWidth_withStatus] at hlow hhigh
  refine ⟨?_, hlow, hhigh⟩
  apply BitVec.eq_of_getLsbD_eq
  intro i hi
  rw [getLsbD_withStatus _ _ hi]
  split_ifs with h8
  · rw [BitVec.getLsbD_setWidth]
    simp [h8]
  · have h1 := h i
    have h2 := h' i
    rw [getLsbD_withStatus _ _ hi, if_neg h8] at h1 h2
    exact Bool.eq_iff_iff.mpr ⟨h2, h1⟩

/-! ## Chunks -/

/-- What a chunk is seen as. -/
inductive NorPage
  | torn
  | holds (written : Bool) (data : List (BitVec 32)) (spare : NorSpare)

def NorPage.blank : NorPage :=
  .holds false (List.replicate norDataWords 0xffffffff) .blank

/-- `page_status` of a chunk that can be read. -/
def norMarker (written : Bool) : BitVec 8 :=
  if written then norPostmarker else 0xff

/-- The chunk `c` is seen as this page. -/
def Shows (w : ℕ → BitVec 32) (c : ℕ) : NorPage → Prop
  | .torn => (norRdSpare w (norChunk2SpareAddr c)).pageStatus ≠ norPostmarker ∧
      (norRdSpare w (norChunk2SpareAddr c)).pageStatus &&& 0x09 ≠ 0x09
  | .holds written data spare => norsimRd32 w (norChunk2DataAddr c) norDataWords = data ∧
      norRdSpare w (norChunk2SpareAddr c) = spare.setStatus (norMarker written) ∧ spare.pageStatus = 0xff

/-- Only the words of the chunk `c` have changed. -/
def Outside (c : ℕ) (w w' : ℕ → BitVec 32) : Prop :=
  ∀ a, a < norChunk2DataAddr c ∨ norChunk2DataAddr c + (norDataWords + norSpareWords) ≤ a → w' a = w a

theorem Outside.trans (h : Outside c w w') (h' : Outside c w' w'') : Outside c w w'' :=
  fun a ha => (h' a ha).trans (h a ha)

/-- Chunks lie apart. -/
theorem norChunks_apart {c c' : ℕ} (h : c ≠ c') :
    norChunk2DataAddr c + (norDataWords + norSpareWords) ≤ norChunk2DataAddr c' ∨
      norChunk2DataAddr c' + (norDataWords + norSpareWords) ≤ norChunk2DataAddr c := by
  have hr : c % 248 < 248 := Nat.mod_lt _ (by decide)
  have hr' : c' % 248 < 248 := Nat.mod_lt _ (by decide)
  have hne : c / 248 ≠ c' / 248 ∨ c % 248 ≠ c' % 248 := by omega
  change c / 248 * 32768 + c % 248 * 132 + 132 ≤ c' / 248 * 32768 + c' % 248 * 132 ∨
    c' / 248 * 32768 + c' % 248 * 132 + 132 ≤ c / 248 * 32768 + c % 248 * 132
  generalize c / 248 = q, c' / 248 = q', c % 248 = r, c' % 248 = r' at *
  rcases Nat.lt_trichotomy q q' with h | rfl | h <;> omega

/-- The format markers lie behind the chunks. -/
theorem norFormat_apart (b c : ℕ) : norBlock2FormatAddr b < norChunk2DataAddr c ∨
    norChunk2DataAddr c + (norDataWords + norSpareWords) ≤ norBlock2FormatAddr b := by
  have hr : c % 248 < 248 := Nat.mod_lt _ (by decide)
  change b * 32768 + 32736 < c / 248 * 32768 + c % 248 * 132 ∨
    c / 248 * 32768 + c % 248 * 132 + 132 ≤ b * 32768 + 32736
  generalize c / 248 = q, c % 248 = r at *
  rcases Nat.lt_trichotomy b q with h | rfl | h <;> omega

theorem norSpare_ext {sp sp' : NorSpare} (h0 : sp.w0 = sp'.w0) (h1 : sp.w1 = sp'.w1) (h2 : sp.w2 = sp'.w2)
    (h3 : sp.w3 = sp'.w3) : sp = sp' := by
  cases sp
  cases sp'
  simp_all

theorem norRdSpare_congr (h : ∀ j < norSpareWords, w' (addr + j) = w (addr + j)) :
    norRdSpare w' addr = norRdSpare w addr :=
  norSpare_ext (h 0 (by decide)) (h 1 (by decide)) (h 2 (by decide)) (h 3 (by decide))

theorem norsimRd32_congr {n : ℕ} (h : ∀ i < n, w' (addr + i) = w (addr + i)) :
    norsimRd32 w' addr n = norsimRd32 w addr n :=
  List.map_congr_left fun i hi => h i (List.mem_range.mp hi)

/-- What a chunk is seen as depends on its own words. -/
theorem Shows.congr {q : NorPage} (h : Shows w c q) (hw : ∀ a, norChunk2DataAddr c ≤ a →
    a < norChunk2DataAddr c + (norDataWords + norSpareWords) → w' a = w a) : Shows w' c q := by
  have hspare : norRdSpare w' (norChunk2SpareAddr c) = norRdSpare w (norChunk2SpareAddr c) :=
    norRdSpare_congr fun j hj => hw _ (by unfold norChunk2SpareAddr; omega) (by unfold norChunk2SpareAddr; omega)
  have hdata : norsimRd32 w' (norChunk2DataAddr c) norDataWords = norsimRd32 w (norChunk2DataAddr c) norDataWords :=
    norsimRd32_congr fun i hi => hw _ (Nat.le_add_right _ _) (by omega)
  cases q with
  | torn =>
    unfold Shows at h ⊢
    rwa [hspare]
  | holds written data spare => exact ⟨hdata.trans h.1, hspare.trans h.2.1, h.2.2⟩

theorem Shows.outside {c' : ℕ} {q : NorPage} (h : Shows w c' q) (hc : c' ≠ c)
    (hw : Outside c w w') : Shows w' c' q :=
  h.congr fun a hlo hhi => hw a (by
    rcases norChunks_apart hc with h1 | h1 <;> omega)

/-! ## Spares that are being written -/

theorem NorSpare.setStatus_w1 (sp : NorSpare) (st : BitVec 8) : (sp.setStatus st).w1 = withStatus sp.w1 st := rfl

theorem NorSpare.pageStatus_setStatus (sp : NorSpare) (st : BitVec 8) : (sp.setStatus st).pageStatus = st :=
  setWidth_withStatus _ _

theorem NorSpare.setStatus_setStatus (sp : NorSpare) (st st' : BitVec 8) :
    (sp.setStatus st).setStatus st' = sp.setStatus st' :=
  norSpare_ext rfl (withStatus_withStatus _ _ _) rfl rfl

theorem NorSpare.setStatus_self {sp : NorSpare} {st : BitVec 8} (h : sp.pageStatus = st) : sp.setStatus st = sp := by
  subst h
  exact norSpare_ext rfl (withStatus_self _) rfl rfl

/-- All bits of one spare are bits of the other. -/
structure SpareUnder (sp sp' : NorSpare) : Prop where
  w0 : Under sp.w0 sp'.w0
  w1 : Under sp.w1 sp'.w1
  w2 : Under sp.w2 sp'.w2
  w3 : Under sp.w3 sp'.w3

theorem SpareUnder.refl (sp : NorSpare) : SpareUnder sp sp :=
  ⟨Under.refl _, Under.refl _, Under.refl _, Under.refl _⟩

theorem SpareUnder.antisymm {sp sp' : NorSpare} (h : SpareUnder sp sp') (h' : SpareUnder sp' sp) : sp = sp' :=
  norSpare_ext (h.w0.antisymm h'.w0) (h.w1.antisymm h'.w1) (h.w2.antisymm h'.w2) (h.w3.antisymm h'.w3)

theorem spareUnder_blank (sp : NorSpare) : SpareUnder sp .blank :=
  ⟨under_allOnes _, under_allOnes _, under_allOnes _, under_allOnes _⟩

theorem spareUnder_setStatus {sp sp' : NorSpare} {st st' : BitVec 8} (h : SpareUnder sp sp') (h' : Under st st') :
    SpareUnder (sp.setStatus st) (sp'.setStatus st') :=
  ⟨h.w0, withStatus_under h.w1 h', h.w2, h.w3⟩

/-- Between two spares that differ in `page_status`, only that differs. -/
theorem between_setStatus {sp sp' : NorSpare} {st st' : BitVec 8} (h : SpareUnder (sp.setStatus st) sp')
    (h' : SpareUnder sp' (sp.setStatus st')) :
    sp' = sp.setStatus sp'.pageStatus ∧ Under st sp'.pageStatus ∧ Under sp'.pageStatus st' := by
  obtain ⟨h1, h2, h3⟩ := between_withStatus h.w1 h'.w1
  exact ⟨norSpare_ext (h'.w0.antisymm h.w0) h1 (h'.w2.antisymm h.w2) (h'.w3.antisymm h.w3), h2, h3⟩

theorem spareFits {sp : NorSpare} (h : SpareUnder sp (norRdSpare w addr)) : Fits w addr sp.words := by
  intro i hi
  have hlen : sp.words.length = 4 := rfl
  rw [hlen] at hi
  rcases (show i = 0 ∨ i = 1 ∨ i = 2 ∨ i = 3 by omega) with rfl | rfl | rfl | rfl
  · exact h.w0
  · exact h.w1
  · exact h.w2
  · exact h.w3

theorem norRdSpare_putWords (sp : NorSpare) : norRdSpare (putWords w addr sp.words) addr = sp :=
  have hlen : sp.words.length = 4 := rfl
  norSpare_ext (putWords_at (show 0 < sp.words.length by omega)) (putWords_at (show 1 < sp.words.length by omega))
    (putWords_at (show 2 < sp.words.length by omega)) (putWords_at (show 3 < sp.words.length by omega))

/-- A spare that is cut off on its way. -/
theorem wornSpare_between {sp : NorSpare} (h : Worn w addr sp.words w') :
    SpareUnder sp (norRdSpare w' addr) ∧ SpareUnder (norRdSpare w' addr) (norRdSpare w addr) := by
  have ha := h.above
  have hb := h.below
  have hlen : sp.words.length = 4 := rfl
  rw [hlen] at ha hb
  exact ⟨⟨ha 0 (by omega), ha 1 (by omega), ha 2 (by omega), ha 3 (by omega)⟩,
    ⟨hb 0 (by omega), hb 1 (by omega), hb 2 (by omega), hb 3 (by omega)⟩⟩

/-! ## What is written to a chunk -/

theorem norsimRd32_getD {n i : ℕ} (hi : i < n) : (norsimRd32 w addr n).getD i 0 = w (addr + i) := by
  unfold norsimRd32
  simp [hi]

theorem norsimRd32_putWords (hlen : buf.length = n) : norsimRd32 (putWords w addr buf) addr n = buf := by
  subst hlen
  unfold norsimRd32
  refine List.ext_getElem (by simp) fun i h1 h2 => ?_
  rw [List.getElem_map, List.getElem_range, putWords_at h2]
  simp [h2]

/-- The spare of a chunk is written. -/
theorem wornSpare_outside {sp : NorSpare} (h : Worn w (norChunk2SpareAddr c) sp.words w') : Outside c w w' ∧
    norsimRd32 w' (norChunk2DataAddr c) norDataWords = norsimRd32 w (norChunk2DataAddr c) norDataWords := by
  have hlen : sp.words.length = norSpareWords := rfl
  have hother := h.other
  rw [hlen] at hother
  unfold norChunk2SpareAddr at hother
  exact ⟨fun a ha => hother a (by omega), norsimRd32_congr fun i hi => hother _ (by omega)⟩

/-- The data of a chunk is written. -/
theorem wornData_outside (h : Worn w (norChunk2DataAddr c) data w') (hlen : data.length = norDataWords) :
    Outside c w w' ∧ norRdSpare w' (norChunk2SpareAddr c) = norRdSpare w (norChunk2SpareAddr c) := by
  have hother := h.other
  rw [hlen] at hother
  exact ⟨fun a ha => hother a (by omega),
    norRdSpare_congr fun j _ => hother _ (by unfold norChunk2SpareAddr; omega)⟩

/-- A pre-marker or less : the chunk is still blank, or torn. -/
theorem status_premarked {st : BitVec 8} (h : Under norPremarker st) :
    st = 0xff ∨ st ≠ norPostmarker ∧ st &&& 0x09 ≠ 0x09 := by
  have hall : ∀ st : BitVec 8, st &&& norPremarker = norPremarker →
      st = 0xff ∨ st ≠ norPostmarker ∧ st &&& 0x09 ≠ 0x09 := by
    decide
  exact hall st h.and_eq

/-- A post-marker on its way : the chunk is torn, or whole. -/
theorem status_postmarked {st : BitVec 8} (h : Under st norPremarker) :
    st = norPostmarker ∨ st ≠ norPostmarker ∧ st &&& 0x09 ≠ 0x09 := by
  have hall : ∀ st : BitVec 8, norPremarker &&& st = st →
      st = norPostmarker ∨ st ≠ norPostmarker ∧ st &&& 0x09 ≠ 0x09 := by
    decide
  exact hall st h.and_eq

theorem Shows.torn_of {st : BitVec 8} (hst : (norRdSpare w (norChunk2SpareAddr c)).pageStatus = st)
    (h : st ≠ norPostmarker ∧ st &&& 0x09 ≠ 0x09) : Shows w c .torn := by
  subst hst
  exact h

/-- A blank chunk is written : it is blank, torn or whole if the power fails. -/
theorem norWrite_ends {spare : NorSpare} (hblank : Shows s.word c .blank) (hlen : data.length = norDataWords)
    (hst : spare.pageStatus = 0xff) :
    NorEnds (fun w' => Outside c s.word w' ∧ Shows w' c (.holds true data spare))
      (fun w' => Outside c s.word w' ∧
        (Shows w' c .blank ∨ Shows w' c .torn ∨ Shows w' c (.holds true data spare)))
      (norDrvWriteChunkToNAND sim c (some data) (some spare) s) := by
  obtain ⟨hdata0, hspare0, -⟩ := hblank
  have hsp0 : norRdSpare s.word (norChunk2SpareAddr c) = .blank :=
    hspare0.trans (NorSpare.setStatus_self rfl)
  unfold norDrvWriteChunkToNAND
  dsimp only
  rw [if_pos hst]
  -- The pre-marker.
  have hfit1 : Fits s.word (norChunk2SpareAddr c) (NorSpare.blank.setStatus norPremarker).words :=
    spareFits (by rw [hsp0]; exact spareUnder_blank _)
  refine NorEnds.bind (NorEnds.mono (norsimWr32_ends _ _ s hfit1) (fun _ h => h) fun w' hw => ?_) fun s1 hs1 => ?_
  · obtain ⟨hout, hdata⟩ := wornSpare_outside hw
    obtain ⟨hlo, hhi⟩ := wornSpare_between hw
    rw [hsp0, ← NorSpare.setStatus_self (show NorSpare.blank.pageStatus = 0xff from rfl)] at hhi
    obtain ⟨heq, hpre, -⟩ := between_setStatus hlo hhi
    refine ⟨hout, ?_⟩
    rcases status_premarked hpre with hff | htorn
    · exact Or.inl ⟨hdata.trans hdata0, heq.trans (by rw [hff]; rfl), rfl⟩
    · exact Or.inr (Or.inl (Shows.torn_of rfl htorn))
  have hw1 : Worn s.word (norChunk2SpareAddr c) (NorSpare.blank.setStatus norPremarker).words s1.word := by
    rw [hs1]
    exact hfit1.put
  obtain ⟨hout1, hdata1⟩ := wornSpare_outside hw1
  have hsp1 : norRdSpare s1.word (norChunk2SpareAddr c) = NorSpare.blank.setStatus norPremarker := by
    rw [hs1, norRdSpare_putWords]
  have hpremarked : norPremarker ≠ norPostmarker ∧ norPremarker &&& 0x09 ≠ 0x09 := by decide
  -- The data.
  have hfit2 : Fits s1.word (norChunk2DataAddr c) data := by
    intro i hi
    have hi' : i < norDataWords := hlen ▸ hi
    have hones : (List.replicate norDataWords (0xffffffff : BitVec 32)).getD i 0 = 0xffffffff := by simp [hi']
    rw [← norsimRd32_getD (w := s1.word) hi', hdata1, hdata0, hones]
    exact under_allOnes _
  refine NorEnds.bind (NorEnds.mono (norsimWr32_ends _ _ s1 hfit2) (fun _ h => h) fun w' hw => ?_) fun s2 hs2 => ?_
  · obtain ⟨hout, hspare⟩ := wornData_outside hw hlen
    refine ⟨hout1.trans hout, Or.inr (Or.inl (Shows.torn_of ?_ hpremarked))⟩
    rw [hspare, hsp1, NorSpare.pageStatus_setStatus]
  have hw2 : Worn s1.word (norChunk2DataAddr c) data s2.word := by
    rw [hs2]
    exact hfit2.put
  obtain ⟨hout2, hspare2⟩ := wornData_outside hw2 hlen
  have hdata2 : norsimRd32 s2.word (norChunk2DataAddr c) norDataWords = data := by
    rw [hs2, norsimRd32_putWords hlen]
  -- The tags, under the pre-marker.
  have hfit3 : Fits s2.word (norChunk2SpareAddr c) (spare.setStatus norPremarker).words :=
    spareFits (by rw [hspare2, hsp1]; exact spareUnder_setStatus (spareUnder_blank _) (Under.refl _))
  refine NorEnds.bind (NorEnds.mono (norsimWr32_ends _ _ s2 hfit3) (fun _ h => h) fun w' hw => ?_) fun s3 hs3 => ?_
  · obtain ⟨hout, -⟩ := wornSpare_outside hw
    obtain ⟨hlo, hhi⟩ := wornSpare_between hw
    rw [hspare2, hsp1] at hhi
    have h1 := hlo.w1.setWidth (m := 8)
    have h2 := hhi.w1.setWidth (m := 8)
    rw [NorSpare.setStatus_w1, setWidth_withStatus] at h1 h2
    exact ⟨(hout1.trans hout2).trans hout, Or.inr (Or.inl (Shows.torn_of (h2.antisymm h1) hpremarked))⟩
  have hw3 : Worn s2.word (norChunk2SpareAddr c) (spare.setStatus norPremarker).words s3.word := by
    rw [hs3]
    exact hfit3.put
  obtain ⟨hout3, hdata3⟩ := wornSpare_outside hw3
  have hsp3 : norRdSpare s3.word (norChunk2SpareAddr c) = spare.setStatus norPremarker := by
    rw [hs3, norRdSpare_putWords]
  -- The post-marker.
  have hmarker : Under norPostmarker norPremarker := Under.and_left norPremarker norPostmarker
  have hfit4 : Fits s3.word (norChunk2SpareAddr c) (spare.setStatus norPostmarker).words :=
    spareFits (by rw [hsp3]; exact spareUnder_setStatus (SpareUnder.refl _) hmarker)
  have hout123 := (hout1.trans hout2).trans hout3
  refine NorEnds.mono (norsimWr32_ends _ _ s3 hfit4) (fun w' hw => ?_) fun w' hw => ?_
  · have hw4 : Worn s3.word (norChunk2SpareAddr c) (spare.setStatus norPostmarker).words w' := by
      rw [hw]
      exact hfit4.put
    obtain ⟨hout, hdata⟩ := wornSpare_outside hw4
    refine ⟨hout123.trans hout, hdata.trans (hdata3.trans hdata2), ?_, hst⟩
    rw [hw, norRdSpare_putWords]
    rfl
  · obtain ⟨hout, hdata⟩ := wornSpare_outside hw
    obtain ⟨hlo, hhi⟩ := wornSpare_between hw
    rw [hsp3] at hhi
    obtain ⟨heq, -, hpre⟩ := between_setStatus hlo hhi
    refine ⟨hout123.trans hout, Or.inr ?_⟩
    rcases status_postmarked hpre with hf0 | htorn
    · exact Or.inr ⟨hdata.trans (hdata3.trans hdata2), heq.trans (by rw [hf0]; rfl), hst⟩
    · exact Or.inl (Shows.torn_of rfl htorn)

end Yaffs
