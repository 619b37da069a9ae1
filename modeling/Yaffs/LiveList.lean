import Mathlib.Data.List.Nodup
import Mathlib.Data.List.Count

/-!
# Cursors into a live list

A list whose elements come in at its front and leave it anywhere, and a cursor that visits them from
the front on while it changes. When the element at the cursor leaves, the cursor goes on to the next
one first. `Visited` is the invariant : an element that was there at the start and has never left has
been visited once, or is still to be visited once.
-/

namespace LiveList

variable {α : Type*} [DecidableEq α]

/-! ## Cursors -/

/-- The element behind `x`. -/
def next (x : α) : List α → Option α
  | [] => none
  | y :: l => if y = x then l.head? else next x l

/-- What a cursor has still to visit. -/
def rest : Option α → List α → List α
  | none, _ => []
  | some x, l => l.dropWhile fun y => decide (y ≠ x)

/-- A change of the list : an element leaves it, or comes in at its front. -/
inductive Change (α : Type*)
  | out (x : α)
  | into (x : α)

/-- The list after a change. -/
def Change.list (l : List α) : Change α → List α
  | .out x => l.erase x
  | .into x => x :: l

/-- The cursor after a change. -/
def Change.cursor (l : List α) (c : Option α) : Change α → Option α
  | .out x => if c = some x then next x l else c
  | .into _ => c

/-- The elements that leave the list. -/
def Change.gone (l : List α) : Change α → List α
  | .out x => if x ∈ l then [x] else []
  | .into _ => []

/-- The list after changes. -/
def changed : List (Change α) → List α → List α
  | [], l => l
  | ch :: cs, l => changed cs (ch.list l)

/-- The cursor after changes. -/
def followed : List (Change α) → List α → Option α → Option α
  | [], _, c => c
  | ch :: cs, l, c => followed cs (ch.list l) (ch.cursor l c)

/-- The elements that leave the list by changes, the latest first. -/
def left : List (Change α) → List α → List α
  | [], _ => []
  | ch :: cs, l => left cs (ch.list l) ++ ch.gone l

/-- Only elements that are not there come in. -/
def Fits : List (Change α) → List α → Prop
  | [], _ => True
  | .out x :: cs, l => Fits cs (l.erase x)
  | .into x :: cs, l => x ∉ l ∧ Fits cs (x :: l)

variable {x y : α} {l : List α} {c : Option α} {cs cs' : List (Change α)}

theorem changed_append (cs cs' : List (Change α)) (l : List α) :
    changed (cs ++ cs') l = changed cs' (changed cs l) := by
  induction cs generalizing l with
  | nil => rfl
  | cons ch cs ih => exact ih _

theorem Fits.append (h : Fits cs l) (h' : Fits cs' (changed cs l)) : Fits (cs ++ cs') l := by
  induction cs generalizing l with
  | nil => exact h'
  | cons ch cs ih =>
    cases ch with
    | out x => exact ih h h'
    | into x => exact ⟨h.1, ih h.2 h'⟩

/-- What does not leave the list stays in it. -/
theorem mem_changed (hx : x ∈ l) (hout : Change.out x ∉ cs) : x ∈ changed cs l := by
  induction cs generalizing l with
  | nil => exact hx
  | cons ch cs ih =>
    rw [List.mem_cons, not_or] at hout
    refine ih ?_ hout.2
    cases ch with
    | out y =>
      have hne : x ≠ y := fun heq => hout.1 (heq ▸ rfl)
      exact (List.mem_erase_of_ne hne).mpr hx
    | into y => exact List.mem_cons_of_mem y hx

theorem out_of_left (h : x ∈ left cs l) : Change.out x ∈ cs := by
  induction cs generalizing l with
  | nil => exact absurd h (by simp [left])
  | cons ch cs ih =>
    rcases List.mem_append.mp h with h | h
    · exact List.mem_cons_of_mem ch (ih h)
    · cases ch with
      | out y =>
        have hxy : x = y := by
          simp only [Change.gone] at h
          split_ifs at h
          · exact List.mem_singleton.mp h
          · simp at h
        exact hxy ▸ List.mem_cons_self
      | into y => simp [Change.gone] at h

/-! ## What is still to be visited -/

theorem rest_cons (h : c ≠ some y) : rest c (y :: l) = rest c l := by
  cases c with
  | none => rfl
  | some x =>
    have hne : y ≠ x := fun heq => h (heq ▸ rfl)
    simp [rest, hne]

theorem rest_self (x : α) (l : List α) : rest (some x) (x :: l) = x :: l := by
  simp [rest]

theorem rest_subset (c : Option α) (l : List α) : rest c l ⊆ l := by
  cases c with
  | none => simp [rest]
  | some x => exact (List.dropWhile_sublist _).subset

theorem mem_of_next (h : next x l = some y) : y ∈ l := by
  induction l with
  | nil => exact absurd h (by simp [next])
  | cons z l ih =>
    unfold next at h
    split_ifs at h
    · exact List.mem_cons_of_mem z (List.mem_of_mem_head? h)
    · exact List.mem_cons_of_mem z (ih h)

/-- A cursor visits the element it is at, and then what is behind it. -/
theorem rest_some (hl : l.Nodup) (hx : x ∈ l) : rest (some x) l = x :: rest (next x l) l := by
  induction l with
  | nil => exact absurd hx (by simp)
  | cons y l ih =>
    obtain ⟨hy, hl⟩ := List.nodup_cons.mp hl
    by_cases heq : y = x
    · subst heq
      rw [rest_self, next, if_pos rfl]
      cases l with
      | nil => rfl
      | cons z l =>
        have hne : some z ≠ some y := fun h => hy (Option.some.inj h ▸ List.mem_cons_self)
        rw [List.head?_cons, rest_cons hne, rest_self]
    · have hmem : x ∈ l := (List.mem_cons.mp hx).resolve_left (Ne.symm heq)
      have hnext : next x l ≠ some y := fun h => hy (mem_of_next h)
      rw [rest_cons (fun h => heq (Option.some.inj h).symm), next, if_neg heq, rest_cons hnext]
      exact ih hl hmem

/-- An element that leaves elsewhere is no longer to be visited. -/
theorem rest_erase (hl : l.Nodup) (hc : c ≠ some x) : rest c (l.erase x) = (rest c l).erase x := by
  induction l with
  | nil => cases c <;> rfl
  | cons y l ih =>
    obtain ⟨hy, hl⟩ := List.nodup_cons.mp hl
    by_cases heq : y = x
    · subst heq
      rw [List.erase_cons_head, rest_cons hc, List.erase_of_not_mem fun h => hy (rest_subset c l h)]
    · rw [List.erase_cons_tail (by simpa using heq)]
      by_cases hcy : c = some y
      · rw [hcy, rest_self, rest_self, List.erase_cons_tail (by simpa using heq)]
      · rw [rest_cons hcy, rest_cons hcy]
        exact ih hl

theorem not_mem_rest_next (hl : l.Nodup) (hx : x ∈ l) : x ∉ rest (next x l) l := by
  have hsub : (rest (some x) l).Sublist l := List.dropWhile_sublist _
  exact (List.nodup_cons.mp (rest_some hl hx ▸ hsub.nodup hl)).1

theorem next_ne (hl : l.Nodup) (hx : x ∈ l) : next x l ≠ some x := by
  intro h
  have hnot := not_mem_rest_next hl hx
  rw [h, rest_some hl hx] at hnot
  exact hnot List.mem_cons_self

/-- When the element at the cursor leaves, what is behind it is still to be visited. -/
theorem rest_out (hl : l.Nodup) (hc : ∀ y, c = some y → y ∈ l) (x : α) :
    rest ((Change.out x).cursor l c) (l.erase x) = (rest c l).erase x := by
  simp only [Change.cursor]
  split_ifs with hx
  · subst hx
    have hmem := hc x rfl
    rw [rest_erase hl (next_ne hl hmem), rest_some hl hmem, List.erase_cons_head,
      List.erase_of_not_mem (not_mem_rest_next hl hmem)]
  · exact rest_erase hl hx

/-! ## The invariant -/

/-- An element of `start` that is not in `gone` has been visited, as `seen` tells, or is still to be
visited, and that once. -/
structure Visited (start seen gone : List α) (l : List α) (c : Option α) : Prop where
  cursor : ∀ x, c = some x → x ∈ l
  once : ∀ x ∈ start, x ∉ gone → (seen ++ rest c l).count x = 1

variable {start seen gone : List α}

/-- A cursor starts at the front. -/
theorem Visited.init (hl : l.Nodup) : Visited l [] [] l l.head? where
  cursor _ hx := List.mem_of_mem_head? hx
  once x hx _ := by
    have hrest : rest l.head? l = l := by
      cases l with
      | nil => rfl
      | cons y l => exact rest_self y l
    rw [List.nil_append, hrest]
    exact List.count_eq_one_of_mem hl hx

/-- The cursor visits the element it is at. -/
theorem Visited.visit (h : Visited start seen gone l (some x)) (hl : l.Nodup) :
    Visited start (seen ++ [x]) gone l (next x l) where
  cursor _ hy := mem_of_next hy
  once y hy hgone := by
    have hrest := rest_some hl (h.cursor x rfl)
    rw [List.append_assoc, List.singleton_append, ← hrest]
    exact h.once y hy hgone

/-- The list changes. -/
theorem Visited.change (h : Visited start seen gone l c) (hl : l.Nodup) {ch : Change α} (hch : Fits [ch] l) :
    Visited start seen (ch.gone l ++ gone) (ch.list l) (ch.cursor l c) ∧ (ch.list l).Nodup := by
  cases ch with
  | out x =>
    refine ⟨⟨fun y hy => ?_, fun y hy hgone => ?_⟩, hl.erase x⟩
    · simp only [Change.cursor] at hy
      split_ifs at hy with hx
      · have hne : y ≠ x := fun heq => next_ne hl (h.cursor x hx) (heq ▸ hy)
        exact (List.mem_erase_of_ne hne).mpr (mem_of_next hy)
      · have hne : y ≠ x := fun heq => hx (heq ▸ hy)
        exact (List.mem_erase_of_ne hne).mpr (h.cursor y hy)
    · obtain ⟨hx, hold⟩ : y ∉ (Change.out x).gone l ∧ y ∉ gone := by
        simpa only [List.mem_append, not_or] using hgone
      have honce := h.once y hy hold
      have hmem : y ∈ l ∨ y ∉ rest c l := or_iff_not_imp_left.mpr fun hn hr => hn (rest_subset c l hr)
      change (seen ++ rest ((Change.out x).cursor l c) (l.erase x)).count y = 1
      rw [rest_out hl h.cursor x, List.count_append] at *
      by_cases hyx : y = x
      · subst hyx
        have hnl : y ∉ l := fun hin => hx (by simp [Change.gone, hin])
        rw [List.erase_of_not_mem (hmem.resolve_left hnl)]
        exact honce
      · rw [List.count_erase_of_ne hyx]
        exact honce
  | into x =>
    have hx : x ∉ l := hch.1
    refine ⟨⟨fun y hy => List.mem_cons_of_mem x (h.cursor y hy), fun y hy hgone => ?_⟩, List.nodup_cons.mpr ⟨hx, hl⟩⟩
    have hne : c ≠ some x := fun heq => hx (h.cursor x heq)
    change (seen ++ rest c (x :: l)).count y = 1
    rw [rest_cons hne]
    exact h.once y hy hgone

/-- The list changes again and again. -/
theorem Visited.changes (h : Visited start seen gone l c) (hl : l.Nodup) (hcs : Fits cs l) :
    Visited start seen (left cs l ++ gone) (changed cs l) (followed cs l c) := by
  induction cs generalizing l c gone with
  | nil => exact h
  | cons ch cs ih =>
    have hone : Fits [ch] l := by
      cases ch with
      | out x => trivial
      | into x => exact ⟨hcs.1, trivial⟩
    have hrest : Fits cs (ch.list l) := by
      cases ch with
      | out x => exact hcs
      | into x => exact hcs.2
    obtain ⟨hvisited, hnodup⟩ := h.change hl hone
    have := ih hvisited hnodup hrest
    rwa [← List.append_assoc] at this

/-- More elements count as gone. -/
theorem Visited.mono {gone' : List α} (h : Visited start seen gone l c) (hg : ∀ x ∈ start, x ∈ gone → x ∈ gone') :
    Visited start seen gone' l c :=
  ⟨h.cursor, fun x hx hx' => h.once x hx fun hgone => hx' (hg x hx hgone)⟩

/-- An element that has not left has not been visited twice. -/
theorem Visited.seen_le (h : Visited start seen gone l c) (hx : x ∈ start) (hgone : x ∉ gone) : seen.count x ≤ 1 := by
  have := h.once x hx hgone
  rw [List.count_append] at this
  omega

/-- At the end every element that has not left has been visited. -/
theorem Visited.seen_end (h : Visited start seen gone l none) (hx : x ∈ start) (hgone : x ∉ gone) :
    seen.count x = 1 := by
  have := h.once x hx hgone
  simpa [rest] using this

end LiveList
