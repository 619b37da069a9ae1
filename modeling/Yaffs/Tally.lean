import Mathlib.Algebra.Order.BigOperators.Group.List
import Mathlib.Algebra.Order.Group.Int
import Mathlib.Algebra.Ring.Int.Defs
import Mathlib.Logic.Function.Basic

/-!
# Tallies over a table

A table `t : ι → α` is changed one entry at a time and a counter is meant to
hold the sum of a weight over the entries of an index list. `tally_update` says
what one change does to that sum, so a counter can be checked update by update;
`tally_congr` is the frame rule and `tally_eq_zero` reads a zero count back.
-/

namespace Tally

variable {ι α : Type*}

/-- Sum of the weight `w` of the entries of `t` at the indices `l`. -/
def tally (l : List ι) (w : α → ℤ) (t : ι → α) : ℤ :=
  (l.map fun i => w (t i)).sum

@[simp] theorem tally_nil (w : α → ℤ) (t : ι → α) : tally [] w t = 0 :=
  rfl

@[simp] theorem tally_cons (i : ι) (l : List ι) (w : α → ℤ) (t : ι → α) :
    tally (i :: l) w t = w (t i) + tally l w t := by
  simp [tally]

/-- Tables that agree in weight on the indices have the same tally. -/
theorem tally_congr {l : List ι} {w : α → ℤ} {t t' : ι → α}
    (h : ∀ i ∈ l, w (t i) = w (t' i)) : tally l w t = tally l w t' := by
  unfold tally
  exact congrArg List.sum (List.map_congr_left h)

/-- An update outside the indices is not counted. -/
theorem tally_update_of_not_mem [DecidableEq ι] {l : List ι} {i : ι} (hi : i ∉ l) (w : α → ℤ) (t : ι → α)
    (x : α) : tally l w (Function.update t i x) = tally l w t := by
  refine tally_congr fun j hj => ?_
  have hji : j ≠ i := fun h => hi (h ▸ hj)
  rw [Function.update_of_ne hji]

/-- An update moves the tally by the difference of the two weights. -/
theorem tally_update [DecidableEq ι] {l : List ι} (hl : l.Nodup) {i : ι} (hi : i ∈ l) (w : α → ℤ) (t : ι → α)
    (x : α) : tally l w (Function.update t i x) = tally l w t - w (t i) + w x := by
  induction l with
  | nil => simp at hi
  | cons j l ih =>
    obtain ⟨hj, hl'⟩ := List.nodup_cons.mp hl
    by_cases hij : i = j
    · subst hij
      rw [tally_cons, tally_cons, tally_update_of_not_mem hj, Function.update_self]
      omega
    · have hil : i ∈ l := (List.mem_cons.mp hi).resolve_left hij
      rw [tally_cons, tally_cons, ih hl' hil, Function.update_of_ne (Ne.symm hij)]
      omega

theorem tally_nonneg {l : List ι} {w : α → ℤ} {t : ι → α} (h : ∀ i ∈ l, 0 ≤ w (t i)) :
    0 ≤ tally l w t := by
  unfold tally
  refine List.sum_nonneg fun x hx => ?_
  obtain ⟨i, hi, rfl⟩ := List.mem_map.mp hx
  exact h i hi

theorem tally_mono {l : List ι} {w : α → ℤ} {t t' : ι → α} (h : ∀ i ∈ l, w (t i) ≤ w (t' i)) :
    tally l w t ≤ tally l w t' := by
  induction l with
  | nil => exact le_refl _
  | cons i l ih =>
    rw [tally_cons, tally_cons]
    exact Int.add_le_add (h i (by simp)) (ih fun j hj => h j (by simp [hj]))

/-- A tally of nonnegative weights is zero only if every weight is. -/
theorem tally_eq_zero {l : List ι} {w : α → ℤ} {t : ι → α} (hw : ∀ i ∈ l, 0 ≤ w (t i))
    (h : tally l w t = 0) : ∀ i ∈ l, w (t i) = 0 := by
  induction l with
  | nil => simp
  | cons j l ih =>
    have hj := hw j (by simp)
    have hl := tally_nonneg (l := l) fun i hi => hw i (by simp [hi])
    rw [tally_cons] at h
    intro i hi
    rcases List.mem_cons.mp hi with rfl | hi
    · omega
    · exact ih (fun i hi => hw i (by simp [hi])) (by omega) i hi

/-- All weights zero, so is the tally. -/
theorem tally_zero {l : List ι} {w : α → ℤ} {t : ι → α} (h : ∀ i ∈ l, w (t i) = 0) :
    tally l w t = 0 := by
  unfold tally
  refine List.sum_eq_zero fun x hx => ?_
  obtain ⟨i, hi, rfl⟩ := List.mem_map.mp hx
  exact h i hi

/-- A tally of weights that are `k` where `q` holds, and zero elsewhere. -/
theorem tally_countP {l : List ι} {w : α → ℤ} {t : ι → α} {q : ι → Bool} {k : ℤ}
    (h : ∀ i ∈ l, w (t i) = if q i then k else 0) : tally l w t = (l.countP q : ℕ) * k := by
  induction l with
  | nil => simp
  | cons i l ih =>
    rw [tally_cons, ih fun j hj => h j (by simp [hj]), h i (by simp), List.countP_cons]
    split_ifs
    · push_cast
      rw [Int.add_mul, Int.one_mul, Int.add_comm]
    · rw [Int.zero_add, Nat.add_zero]

/-- The tally of an indicator counts the entries that satisfy it. -/
theorem tally_indicator (l : List ι) (q : α → Bool) (t : ι → α) :
    tally l (fun a => if q a then 1 else 0) t = (l.countP fun i => q (t i) : ℕ) := by
  induction l with
  | nil => rfl
  | cons i l ih =>
    rw [tally_cons, ih, List.countP_cons]
    split_ifs <;> push_cast <;> omega

end Tally
