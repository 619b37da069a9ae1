import Mathlib.Algebra.Ring.Nat
import Mathlib.Data.Nat.Basic
import Mathlib.Logic.Function.Basic

/-!
# Bit fields and parities of words

A string of 32-bit words is a string of bits, the low bit of a word first. A field of up to 32
bits may lie anywhere in it, also across two words : `blend` stores under a mask into one word,
and a field is stored by one or two blends and read by one or two shifts. A parity is the
exclusive or of some words, and changes with any one of them.
-/

namespace Words

/-- Bit `j` of a string of words. -/
def bit (m : ℕ → BitVec 32) (j : ℕ) : Bool :=
  (m (j / 32)).getLsbD (j % 32)

/-- Word `i` gets the bits of `v` under `mask`. -/
def blend (m : ℕ → BitVec 32) (i : ℕ) (mask v : BitVec 32) : ℕ → BitVec 32 :=
  Function.update m i ((m i &&& ~~~mask) ||| (mask &&& v))

/-- `mask` has its low `w` bits set. -/
def IsMask (w : ℕ) (mask : BitVec 32) : Prop :=
  ∀ j < 32, mask.getLsbD j = decide (j < w)

variable {m : ℕ → BitVec 32} {i j w start : ℕ} {mask v : BitVec 32}

theorem bit_blend (m : ℕ → BitVec 32) (i j : ℕ) (mask v : BitVec 32) :
    bit (blend m i mask v) j =
      if j / 32 = i ∧ mask.getLsbD (j % 32) then v.getLsbD (j % 32) else bit m j := by
  have hj : j % 32 < 32 := Nat.mod_lt _ (by decide)
  unfold bit blend
  by_cases hi : j / 32 = i
  · subst hi
    simp only [Function.update_self, BitVec.getLsbD_or, BitVec.getLsbD_and, BitVec.getLsbD_not, hj]
    cases mask.getLsbD (j % 32) <;> simp
  · simp [hi]

/-! ## Storing a field -/

/-- The field of `w` bits from bit `start` on gets the low bits of `v`. -/
def store (m : ℕ → BitVec 32) (start w : ℕ) (mask v : BitVec 32) : ℕ → BitVec 32 :=
  let m := blend m (start / 32) (mask <<< (start % 32)) (v <<< (start % 32))
  if 32 - start % 32 < w then
    blend m (start / 32 + 1) (mask >>> (32 - start % 32)) (v >>> (32 - start % 32))
  else m

/-- The part of a field in its first word. -/
theorem bit_blend_low (hmask : IsMask w mask) (m : ℕ → BitVec 32) (start j : ℕ) (v : BitVec 32) :
    bit (blend m (start / 32) (mask <<< (start % 32)) (v <<< (start % 32))) j =
      if j / 32 = start / 32 ∧ start ≤ j ∧ j < start + w then v.getLsbD (j - start) else bit m j := by
  have hj : j % 32 < 32 := Nat.mod_lt _ (by decide)
  rw [bit_blend]
  by_cases hi : j / 32 = start / 32
  · by_cases hle : start ≤ j
    · have hsub : j % 32 - start % 32 = j - start := by omega
      have hnlt : ¬j % 32 < start % 32 := by omega
      simp only [BitVec.getLsbD_shiftLeft, hj, hnlt, hsub, hi, hle, hmask (j - start) (by omega)]
      by_cases hlt : j < start + w
      · simp [show j - start < w by omega, hlt]
      · simp [show ¬j - start < w by omega, hlt]
    · have hlt : j % 32 < start % 32 := by omega
      simp [hlt, hle, hi]
  · simp [hi]

/-- The part of a field in its second word. -/
theorem bit_blend_high (hmask : IsMask w mask) (hw : w ≤ 32) (m : ℕ → BitVec 32) (start j : ℕ)
    (v : BitVec 32) :
    bit (blend m (start / 32 + 1) (mask >>> (32 - start % 32)) (v >>> (32 - start % 32))) j =
      if j / 32 = start / 32 + 1 ∧ j < start + w then v.getLsbD (j - start) else bit m j := by
  rw [bit_blend]
  by_cases hi : j / 32 = start / 32 + 1
  · have hadd : 32 - start % 32 + j % 32 = j - start := by omega
    simp only [BitVec.getLsbD_ushiftRight, hadd, hi]
    by_cases hlt : j < start + w
    · simp [hmask (j - start) (by omega), show j - start < w by omega, hlt]
    · have hfalse : mask.getLsbD (j - start) = false := by
        rcases lt_or_ge (j - start) 32 with h32 | h32
        · simpa [show ¬j - start < w by omega] using hmask (j - start) h32
        · exact BitVec.getLsbD_of_ge _ _ h32
      simp [hfalse, hlt]
  · simp [hi]

/-- Storing a field changes the bits of the field alone. -/
theorem bit_store (hmask : IsMask w mask) (hw : w ≤ 32) (m : ℕ → BitVec 32) (start j : ℕ)
    (v : BitVec 32) :
    bit (store m start w mask v) j =
      if start ≤ j ∧ j < start + w then v.getLsbD (j - start) else bit m j := by
  unfold store
  simp only
  split
  · rw [bit_blend_high hmask hw, bit_blend_low hmask]
    split_ifs <;> first | rfl | omega
  · rw [bit_blend_low hmask]
    split_ifs <;> first | rfl | omega

/-! ## Reading a field -/

/-- The field of `w` bits from bit `start` on. -/
def fetch (m : ℕ → BitVec 32) (start w : ℕ) (mask : BitVec 32) : BitVec 32 :=
  let v := m (start / 32) >>> (start % 32)
  let v := if 32 - start % 32 < w then v ||| (m (start / 32 + 1) <<< (32 - start % 32)) else v
  v &&& mask

theorem getLsbD_fetch (hmask : IsMask w mask) (hw : w ≤ 32) (m : ℕ → BitVec 32) (start j : ℕ) :
    (fetch m start w mask).getLsbD j = (decide (j < w) && bit m (start + j)) := by
  rcases lt_or_ge j 32 with hj | hj
  · unfold fetch bit
    rw [BitVec.getLsbD_and, hmask j hj]
    by_cases hjw : j < w
    · rcases lt_or_ge (start % 32 + j) 32 with hlow | hhigh
      · have hdiv : (start + j) / 32 = start / 32 := by omega
        have hmod : (start + j) % 32 = start % 32 + j := by omega
        have hlt : j < 32 - start % 32 := by omega
        rw [hdiv, hmod]
        split <;> simp [hjw, hlt]
      · have hdiv : (start + j) / 32 = start / 32 + 1 := by omega
        have hmod : (start + j) % 32 = j - (32 - start % 32) := by omega
        have hnlt : ¬j < 32 - start % 32 := by omega
        have hout : (m (start / 32)).getLsbD (start % 32 + j) = false :=
          BitVec.getLsbD_of_ge _ _ hhigh
        rw [hdiv, hmod, if_pos (by omega)]
        simp only [BitVec.getLsbD_or, BitVec.getLsbD_shiftLeft, BitVec.getLsbD_ushiftRight]
        simp [hjw, hj, hnlt, hout]
    · simp [hjw]
  · rw [BitVec.getLsbD_of_ge _ _ hj]
    simp [show ¬j < w by omega]

/-- A field reads as it was stored. -/
theorem fetch_store (hmask : IsMask w mask) (hw : w ≤ 32) (m : ℕ → BitVec 32) (start : ℕ)
    (hv : v.toNat < 2 ^ w) : fetch (store m start w mask v) start w mask = v := by
  refine BitVec.eq_of_getLsbD_eq fun j hj => ?_
  rw [getLsbD_fetch hmask hw, bit_store hmask hw]
  by_cases hjw : j < w
  · simp [hjw]
  · have hout : v.getLsbD j = false :=
      Nat.testBit_lt_two_pow (lt_of_lt_of_le hv (Nat.pow_le_pow_right (by decide) (by omega)))
    simp [hjw, hout]

/-- A field is not changed by storing another one. -/
theorem fetch_store_of_disjoint (hmask : IsMask w mask) (hw : w ≤ 32) (m : ℕ → BitVec 32)
    {start start' : ℕ} (h : start' + w ≤ start ∨ start + w ≤ start') (v : BitVec 32) :
    fetch (store m start w mask v) start' w mask = fetch m start' w mask := by
  refine BitVec.eq_of_getLsbD_eq fun j hj => ?_
  rw [getLsbD_fetch hmask hw, getLsbD_fetch hmask hw, bit_store hmask hw]
  by_cases hjw : j < w
  · rw [if_neg (by omega)]
  · simp [hjw]

/-! ## Parities -/

/-- The exclusive or of some words. -/
def xorSum {n : ℕ} {ι : Type*} (f : ι → BitVec n) : List ι → BitVec n
  | [] => 0#n
  | i :: is => f i ^^^ xorSum f is

section

variable {n : ℕ} {ι : Type*} {f f' : ι → BitVec n} {i : ι} {is : List ι} {x : BitVec n}

theorem foldl_xor (f : ι → BitVec n) (is : List ι) :
    ∀ a, is.foldl (fun a i => a ^^^ f i) a = a ^^^ xorSum f is := by
  induction is with
  | nil => intro a; simp [xorSum]
  | cons i is ih =>
    intro a
    rw [List.foldl_cons, ih, xorSum, BitVec.xor_assoc]

theorem xorSum_congr (h : ∀ j ∈ is, f' j = f j) : xorSum f' is = xorSum f is := by
  induction is with
  | nil => rfl
  | cons j is ih =>
    rw [xorSum, xorSum, h j List.mem_cons_self, ih fun k hk => h k (List.mem_cons_of_mem j hk)]

/-- A change of one word changes a parity by as much. -/
theorem xorSum_change (hnodup : is.Nodup) (hi : i ∈ is) (hx : f' i = f i ^^^ x)
    (hother : ∀ j, j ≠ i → f' j = f j) : xorSum f' is = xorSum f is ^^^ x := by
  induction is with
  | nil => simp at hi
  | cons j is ih =>
    obtain ⟨hnot, hnodup⟩ := List.nodup_cons.mp hnodup
    rw [xorSum, xorSum]
    rcases List.mem_cons.mp hi with rfl | hi
    · have hrest : xorSum f' is = xorSum f is :=
        xorSum_congr fun k hk => hother k fun hki => hnot (hki ▸ hk)
      rw [hx, hrest, BitVec.xor_assoc, BitVec.xor_comm x, ← BitVec.xor_assoc]
    · rw [ih hnodup hi, hother j (fun hji => hnot (hji ▸ hi)), BitVec.xor_assoc]

end

end Words
