import Mathlib.Algebra.Ring.Nat
import Mathlib.Data.List.GetD

/-!
# Sequences kept in chunks

A sequence without an end that is kept in chunks of one length : what a window of it shows, and what it becomes
when part of a chunk is written.
-/

namespace Chunked

variable {α : Type} {z : α} {D q r n start : ℕ} {f f' : ℕ → List α} {β : ℕ → α} {xs ys src : List α}

/-- The element `i` of what the chunks `f` hold. -/
def elemAt (z : α) (D : ℕ) (f : ℕ → List α) (i : ℕ) : α :=
  (f (i / D)).getD (i % D) z

/-- `n` elements from `start` on. -/
def window (β : ℕ → α) (start n : ℕ) : List α :=
  (List.range' start n).map β

/-- `src` from `start` on, over what there is. -/
def overlay (β : ℕ → α) (start : ℕ) (src : List α) (i : ℕ) : α :=
  if start ≤ i ∧ i < start + src.length then src.getD (i - start) (β i) else β i

theorem window_add (β : ℕ → α) (start n k : ℕ) :
    window β start (n + k) = window β start n ++ window β (start + n) k := by
  unfold window
  rw [← List.map_append, List.range'_append_1]

theorem overlay_nil (β : ℕ → α) (start : ℕ) : overlay β start [] = β := by
  funext i
  unfold overlay
  rw [if_neg]
  simp only [List.length_nil]
  omega

/-- One part is written after the other. -/
theorem overlay_append (β : ℕ → α) (start : ℕ) (xs ys : List α) :
    overlay (overlay β start xs) (start + xs.length) ys = overlay β start (xs ++ ys) := by
  funext i
  unfold overlay
  simp only [List.length_append]
  by_cases hxs : start ≤ i ∧ i < start + xs.length
  · rw [if_neg (by omega), if_pos hxs, if_pos (by omega), List.getD_append _ _ _ _ (by omega)]
  · by_cases hys : start + xs.length ≤ i ∧ i < start + xs.length + ys.length
    · rw [if_pos hys, if_neg hxs, if_pos (by omega), List.getD_append_right _ _ _ _ (by omega)]
      congr 1
      omega
    · rw [if_neg hys, if_neg hxs, if_neg (by omega)]

theorem div_of_chunk (hr : r < D) : (q * D + r) / D = q ∧ (q * D + r) % D = r := by
  have hD : 0 < D := by omega
  rw [Nat.mul_comm q D, Nat.mul_add_div hD, Nat.mul_add_mod, Nat.div_eq_of_lt hr, Nat.mod_eq_of_lt hr]
  exact ⟨rfl, rfl⟩

/-- A part of a chunk is a window of the sequence. -/
theorem window_chunk (hlen : (f q).length = D) (hfit : r + n ≤ D) :
    ((f q).drop r).take n = window (elemAt z D f) (q * D + r) n := by
  have hlength : (((f q).drop r).take n).length = n := by
    rw [List.length_take, List.length_drop]
    omega
  refine List.ext_getElem (by simp [hlength, window]) fun i h1 h2 => ?_
  have hi : i < n := hlength ▸ h1
  obtain ⟨hdiv, hmod⟩ := div_of_chunk (q := q) (show r + i < D by omega)
  simp only [window, List.getElem_map, List.getElem_range', List.getElem_take, List.getElem_drop, Nat.one_mul, elemAt,
    Nat.add_assoc, hdiv, hmod]
  rw [List.getD_eq_getElem _ _ (by omega)]

/-- Part of one chunk is written. -/
theorem elemAt_patch (hother : ∀ j, j ≠ q → f' j = f j) (hlen : (f q).length = D) (hfit : r + src.length ≤ D)
    (hself : f' q = (f q).take r ++ src ++ (f q).drop (r + src.length)) (hD : 0 < D) :
    elemAt z D f' = overlay (elemAt z D f) (q * D + r) src := by
  funext i
  have hmod := Nat.mod_lt i hD
  have hsplit := Nat.div_add_mod' i D
  unfold overlay
  by_cases hq : i / D = q
  · obtain ⟨s, hs, rfl⟩ : ∃ s, s < D ∧ i = q * D + s := ⟨i % D, hmod, by rw [← hq]; omega⟩
    obtain ⟨hdiv, hrem⟩ := div_of_chunk (q := q) hs
    have htake : ((f q).take r).length = r := by
      rw [List.length_take]
      omega
    simp only [elemAt, hdiv, hrem, hself]
    by_cases hin : r ≤ s ∧ s < r + src.length
    · rw [if_pos (by omega), List.getD_append _ _ _ _ (by rw [List.length_append, htake]; omega),
        List.getD_append_right _ _ _ _ (by omega), htake, List.getD_eq_getElem _ _ (by omega),
        List.getD_eq_getElem _ _ (by omega)]
      congr 1
      omega
    · rw [if_neg (by omega)]
      rcases Nat.lt_or_ge s r with hlt | hge
      · rw [List.getD_append _ _ _ _ (by rw [List.length_append, htake]; omega),
          List.getD_append _ _ _ _ (by omega), List.getD_eq_getElem _ _ (by omega),
          List.getD_eq_getElem _ _ (by omega), List.getElem_take]
      · rw [List.getD_append_right _ _ _ _ (by rw [List.length_append, htake]; omega), List.length_append, htake,
          List.getD_eq_getElem _ _ (by rw [List.length_drop]; omega), List.getD_eq_getElem _ _ (by omega),
          List.getElem_drop]
        congr 1
        omega
  · have hout : ¬(q * D + r ≤ i ∧ i < q * D + r + src.length) := by
      rintro ⟨h1, h2⟩
      refine hq (Nat.div_eq_of_lt_le ?_ ?_)
      · omega
      · rw [Nat.add_mul]
        omega
    rw [if_neg hout, elemAt, hother _ hq, elemAt]

end Chunked
