import Yaffs.Ownership
import Yaffs.Run
import Yaffs.Words

/-!
# The packing of level-0 tnodes

`yaffs_load_tnode_0` and `yaffs_get_group_base` on the words of a tnode of level `0`, which packs
its sixteen chunk groups as bit fields of `tnode_width` bits, and that the functions from
positions to groups of the look-up tree stand for such words.

`tnode_mask` comes from `1 << tnode_width`. For a width of 32 this shifts an `int` by its whole
width, which C leaves undefined : what the machine makes of it is a parameter.
-/

namespace Yaffs

open Words

variable (g : Geometry)

/-! ## Widths -/

/-- A value below `2 ^ (n + 1)` takes `n + 1` shifts at most. -/
theorem calcShiftsLoop_le_of_lt (fuel : ℕ) : ∀ n x extraBits shifts, x < 2 ^ (n + 1) → n < fuel →
    calcShiftsLoop fuel x extraBits shifts ≤ shifts + n + 1 := by
  induction fuel with
  | zero => omega
  | succ fuel ih =>
    intro n x extraBits shifts hx hn
    unfold calcShiftsLoop
    split
    · split <;> omega
    · cases n with
      | zero => omega
      | succ n => exact (ih n _ _ _ (by rw [Nat.pow_succ] at hx; omega) (by omega)).trans (by omega)

/-- A tnode has fields of 16 to 32 bits. -/
theorem tnodeWidth_le : g.tnodeWidth ≤ 32 := by
  have hceil : calcShiftsCeiling (g.chunksPerBlock * (g.endBlock + 1)) ≤ 31 :=
    (calcShiftsLoop_le_of_lt 32 30 _ 0 0 g.chunks_lt (by decide)).trans (by decide)
  unfold Param.tnodeWidth Param.chunkNumberBits
  dsimp only
  split_ifs <;> omega

theorem chunkGrpBits_of_tnodeWidth (h : g.tnodeWidth = 32) : g.chunkGrpBits = 0 := by
  have hceil : calcShiftsCeiling (g.chunksPerBlock * (g.endBlock + 1)) ≤ 31 :=
    (calcShiftsLoop_le_of_lt 32 30 _ 0 0 g.chunks_lt (by decide)).trans (by decide)
  unfold Param.chunkGrpBits
  rw [h]
  unfold Param.chunkNumberBits
  dsimp only
  split_ifs <;> omega

/-! ## The source's functions -/

/-- `dev->tnode_mask`, where the machine makes `wide` of `1 << 32`. -/
def tnodeMask (wide : BitVec 32) : BitVec 32 :=
  (if g.tnodeWidth < 32 then 1#32 <<< g.tnodeWidth else wide) - 1#32

/-- `yaffs_load_tnode_0`, on the words of the tnode. -/
def loadTnode0 (wide : BitVec 32) (map : ℕ → BitVec 32) (pos : ℕ) (val : BitVec 32) : ℕ → BitVec 32 :=
  let pos := pos % 16
  let val := val >>> g.chunkGrpBits
  let bitInMap := pos * g.tnodeWidth
  let wordInMap := bitInMap / 32
  let bitInWord := bitInMap % 32
  let map := blend map wordInMap (tnodeMask g wide <<< bitInWord) (val <<< bitInWord)
  if 32 - bitInWord < g.tnodeWidth then
    blend map (wordInMap + 1) (tnodeMask g wide >>> (32 - bitInWord)) (val >>> (32 - bitInWord))
  else map

/-- `yaffs_get_group_base` before its last shift. -/
def getGroup (wide : BitVec 32) (map : ℕ → BitVec 32) (pos : ℕ) : BitVec 32 :=
  let pos := pos % 16
  let bitInMap := pos * g.tnodeWidth
  let wordInMap := bitInMap / 32
  let bitInWord := bitInMap % 32
  let val := map wordInMap >>> bitInWord
  let val :=
    if 32 - bitInWord < g.tnodeWidth then val ||| (map (wordInMap + 1) <<< (32 - bitInWord)) else val
  val &&& tnodeMask g wide

/-- `yaffs_get_group_base`. -/
def getGroupBase (wide : BitVec 32) (map : ℕ → BitVec 32) (pos : ℕ) : BitVec 32 :=
  getGroup g wide map pos <<< g.chunkGrpBits

/-! ## Fields -/

variable {g} {wide : BitVec 32} {map : ℕ → BitVec 32} {pos pos' : ℕ} {val : BitVec 32}

theorem loadTnode0_eq : loadTnode0 g wide map pos val =
    store map (pos % 16 * g.tnodeWidth) g.tnodeWidth (tnodeMask g wide) (val >>> g.chunkGrpBits) :=
  rfl

theorem getGroup_eq : getGroup g wide map pos =
    fetch map (pos % 16 * g.tnodeWidth) g.tnodeWidth (tnodeMask g wide) :=
  rfl

theorem shiftLeft_sub_one_bits :
    ∀ w < 32, ∀ j < 32, (1#32 <<< w - 1#32).getLsbD j = decide (j < w) := by
  decide +kernel

/-- The mask covers a field if the machine's `1 << 32` is `0`, or is not needed. -/
theorem isMask_tnodeMask (h : g.tnodeWidth < 32 ∨ wide = 0#32) :
    IsMask g.tnodeWidth (tnodeMask g wide) := by
  have hle := tnodeWidth_le g
  intro j hj
  unfold tnodeMask
  split_ifs with hw
  · exact shiftLeft_sub_one_bits _ hw j hj
  · obtain rfl := h.resolve_left hw
    have hall : 0#32 - 1#32 = BitVec.allOnes 32 := by decide
    rw [hall, BitVec.getLsbD_allOnes]
    exact decide_eq_decide.mpr (by omega)

theorem fields_disjoint (hne : pos' % 16 ≠ pos % 16) :
    pos' % 16 * g.tnodeWidth + g.tnodeWidth ≤ pos % 16 * g.tnodeWidth ∨
      pos % 16 * g.tnodeWidth + g.tnodeWidth ≤ pos' % 16 * g.tnodeWidth := by
  rcases Nat.lt_or_gt_of_ne hne with h | h
  · exact Or.inl (by rw [← Nat.succ_mul]; exact Nat.mul_le_mul_right _ h)
  · exact Or.inr (by rw [← Nat.succ_mul]; exact Nat.mul_le_mul_right _ h)

/-- The value fits its field : its group number has `tnode_width` bits. -/
def Fits (g : Geometry) (val : BitVec 32) : Prop :=
  val.toNat < 2 ^ (g.tnodeWidth + g.chunkGrpBits)

theorem group_lt (hval : Fits g val) : (val >>> g.chunkGrpBits).toNat < 2 ^ g.tnodeWidth := by
  rw [BitVec.toNat_ushiftRight, Nat.shiftRight_eq_div_pow,
    Nat.div_lt_iff_lt_mul (Nat.two_pow_pos _), ← Nat.pow_add]
  exact hval

/-- What is stored at a position is read there. -/
theorem getGroup_loadTnode0 (h : g.tnodeWidth < 32 ∨ wide = 0#32) (hval : Fits g val) :
    getGroup g wide (loadTnode0 g wide map pos val) pos = val >>> g.chunkGrpBits := by
  rw [loadTnode0_eq, getGroup_eq]
  exact fetch_store (isMask_tnodeMask h) (tnodeWidth_le g) map _ (group_lt hval)

/-- The other positions are left alone. -/
theorem getGroup_loadTnode0_of_ne (h : g.tnodeWidth < 32 ∨ wide = 0#32)
    (hne : pos' % 16 ≠ pos % 16) :
    getGroup g wide (loadTnode0 g wide map pos val) pos' = getGroup g wide map pos' := by
  rw [loadTnode0_eq, getGroup_eq, getGroup_eq]
  exact fetch_store_of_disjoint (isMask_tnodeMask h) (tnodeWidth_le g) map (fields_disjoint hne) _

/-! ## The look-up tree -/

/-- The level-0 tnode of the look-up tree that the words stand for. -/
def leafTnode (g : Geometry) (wide : BitVec 32) (map : ℕ → BitVec 32) : Tnode 0 :=
  fun i => (getGroup g wide map i).toNat

/-- `Tnode.load` is `yaffs_load_tnode_0` on the words. -/
theorem leafTnode_loadTnode0 (h : g.tnodeWidth < 32 ∨ wide = 0#32) (hval : Fits g val) :
    leafTnode g wide (loadTnode0 g wide map pos val) =
      (leafTnode g wide map).setGroup (Fin.ofNat 16 pos) (groupOf g val.toNat) := by
  funext i
  have hi : (i : ℕ) % 16 = i := Nat.mod_eq_of_lt i.isLt
  unfold leafTnode Tnode.setGroup Tnode.group
  split_ifs with hpos
  · have hpos' : (i : ℕ) = pos % 16 := by rw [hpos]; rfl
    have hget : getGroup g wide (loadTnode0 g wide map pos val) i =
        getGroup g wide (loadTnode0 g wide map pos val) pos := by
      simp only [getGroup_eq, hpos', Nat.mod_mod]
    rw [hget, getGroup_loadTnode0 h hval, groupOf, Nat.mod_eq_of_lt]
    · rfl
    · exact group_lt hval
  · have hne : (i : ℕ) % 16 ≠ pos % 16 := by
      rw [hi]
      exact fun heq => hpos (Fin.ext heq)
    rw [getGroup_loadTnode0_of_ne h hne]

/-! ## Leaf packing -/

/-- Storing at a position gives back the value stored, rounded down to its group, and keeps the
other positions, for all words, positions and values. -/
def PacksLeaves (g : Geometry) (wide : BitVec 32) : Prop :=
  ∀ (map : ℕ → BitVec 32) (pos : ℕ) (val : BitVec 32), pos < 16 → Fits g val →
    (getGroupBase g wide (loadTnode0 g wide map pos val) pos).toNat =
        val.toNat / g.chunkGrpSize * g.chunkGrpSize ∧
      ∀ pos' < 16, pos' ≠ pos →
        getGroupBase g wide (loadTnode0 g wide map pos val) pos' = getGroupBase g wide map pos'

theorem shiftRight_shiftLeft_toNat (val : BitVec 32) (n : ℕ) :
    (val >>> n <<< n).toNat = val.toNat / 2 ^ n * 2 ^ n := by
  rw [BitVec.toNat_shiftLeft, BitVec.toNat_ushiftRight, Nat.shiftRight_eq_div_pow,
    Nat.shiftLeft_eq, Nat.mod_eq_of_lt]
  exact lt_of_le_of_lt (Nat.div_mul_le_self _ _) val.isLt

/-- A tnode keeps its groups apart exactly when the mask for its width is right : the width is
below 32, or the machine's `1 << 32` is `0`. -/
theorem packsLeaves_iff (g : Geometry) (wide : BitVec 32) :
    PacksLeaves g wide ↔ g.tnodeWidth < 32 ∨ wide = 0#32 := by
  constructor
  · intro h
    by_contra hnot
    obtain ⟨hw, hwide⟩ := not_or.mp hnot
    have hw : g.tnodeWidth = 32 := by
      have := tnodeWidth_le g
      omega
    have hgrp := chunkGrpBits_of_tnodeWidth g hw
    -- all bits set is a value that has to come back
    have hval : Fits g (BitVec.allOnes 32) := by
      simp [Fits, hw, hgrp]
    obtain ⟨hget, -⟩ := h (fun _ => 0#32) 0 (BitVec.allOnes 32) (by decide) hval
    generalize loadTnode0 g wide (fun _ => 0#32) 0 (BitVec.allOnes 32) = map at hget
    have hgroup : getGroup g wide map 0 = BitVec.allOnes 32 := by
      refine BitVec.eq_of_toNat_eq ?_
      simpa [getGroupBase, Param.chunkGrpSize, hgrp] using hget
    have hmask : tnodeMask g wide = BitVec.allOnes 32 := (BitVec.and_eq_allOnes_iff.mp hgroup).2
    rw [tnodeMask, if_neg (by omega)] at hmask
    exact hwide (by rw [← BitVec.sub_add_cancel wide 1#32, hmask]; decide)
  · intro h map pos val hpos hval
    refine ⟨?_, fun pos' hpos' hne => ?_⟩
    · rw [getGroupBase, getGroup_loadTnode0 h hval, shiftRight_shiftLeft_toNat]
      rfl
    · have hmod : pos' % 16 ≠ pos % 16 := by
        rwa [Nat.mod_eq_of_lt hpos', Nat.mod_eq_of_lt hpos]
      rw [getGroupBase, getGroup_loadTnode0_of_ne h hmod, getGroupBase]

/-- On a machine that shifts by the low five bits of the count, whose `1 << 32` is `1`, the tnodes
of that device hold nothing. -/
theorem wideGeometry_drops_leaves : ¬PacksLeaves wideGeometry 1#32 := by
  intro h
  have hval : Fits wideGeometry 1000#32 := by
    unfold Fits
    decide
  obtain ⟨hget, -⟩ := h (fun _ => 0#32) 3 1000#32 (by decide) hval
  exact absurd hget (by decide)

end Yaffs
