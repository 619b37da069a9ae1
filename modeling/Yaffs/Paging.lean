import Mathlib.Data.List.Basic
import Mathlib.Data.List.Range
import Mathlib.Tactic.Ring

/-!
# Numbered places and pages

Two tools for a stream that is laid down in pages. The numbers below `stop` that have a property,
found one after the other by searches that go on behind the last one found; and a list cut into
pages of one length, the last one padded.
-/

namespace Paging

/-! ## Searching upwards -/

section Search

variable (f : ℕ → Bool)

/-- The first number with `f` from `next` on, below `stop`. -/
def firstFrom (next stop : ℕ) : Option ℕ :=
  (List.range' next (stop - next)).find? f

/-- All numbers with `f` from `start` on, below `stop`. -/
def hits (start stop : ℕ) : List ℕ :=
  (List.range' start (stop - start)).filter f

/-- Where the search begins for the number `q` of the list. -/
def nextFrom (start : ℕ) (l : List ℕ) (q : ℕ) : ℕ :=
  if q = 0 then start else l.getD (q - 1) 0 + 1

variable {f} {start stop next q : ℕ}

theorem firstFrom_eq_head : firstFrom f next stop = (hits f next stop).head? :=
  (List.head?_filter ..).symm

theorem mem_hits {b : ℕ} : b ∈ hits f start stop ↔ start ≤ b ∧ b < stop ∧ f b = true := by
  rw [hits, List.mem_filter, List.mem_range'_1]
  constructor
  · rintro ⟨⟨h1, h2⟩, h3⟩
    exact ⟨h1, by omega, h3⟩
  · rintro ⟨h1, h2, h3⟩
    exact ⟨⟨h1, by omega⟩, h3⟩

theorem nodup_hits : (hits f start stop).Nodup := by
  have hrange : (List.range' start (stop - start)).Nodup := List.nodup_range'
  exact hrange.filter _

theorem length_hits_le : (hits f start stop).length ≤ stop - start := by
  refine (List.length_filter_le _ _).trans ?_
  rw [List.length_range']

theorem hits_step (h : start < stop) :
    hits f start stop = if f start then start :: hits f (start + 1) stop else hits f (start + 1) stop := by
  unfold hits
  obtain ⟨n, hn⟩ : ∃ n, stop - start = n + 1 := ⟨stop - start - 1, by omega⟩
  rw [hn, List.range'_succ, List.filter_cons, show stop - (start + 1) = n by omega]

theorem hits_of_le (h : stop ≤ start) : hits f start stop = [] := by
  simp [hits, Nat.sub_eq_zero_of_le h]

/-- Behind the first number found are the others. -/
theorem hits_tail {b : ℕ} {l : List ℕ} (n : ℕ) : ∀ start, stop - start = n → hits f start stop = b :: l →
    hits f (b + 1) stop = l := by
  induction n with
  | zero =>
    intro start hn h
    rw [hits_of_le (by omega)] at h
    simp at h
  | succ n ih =>
    intro start hn h
    rw [hits_step (by omega)] at h
    split_ifs at h
    · obtain ⟨rfl, rfl⟩ := List.cons.inj h
      rfl
    · exact ih (start + 1) (by omega) h

/-- Behind the first `q` numbers found are the others. -/
theorem hits_next : ∀ q ≤ (hits f start stop).length,
    hits f (nextFrom start (hits f start stop) q) stop = (hits f start stop).drop q := by
  intro q
  induction q with
  | zero => simp [nextFrom]
  | succ q ih =>
    intro hq
    have hdrop := ih (by omega)
    have hget : (hits f start stop).drop q = (hits f start stop)[q] :: (hits f start stop).drop (q + 1) :=
      List.drop_eq_getElem_cons (by omega)
    rw [hget] at hdrop
    have htail := hits_tail _ _ rfl hdrop
    rw [nextFrom, if_neg (by omega), Nat.add_sub_cancel, List.getD_eq_getElem?_getD,
      List.getElem?_eq_getElem (by omega), Option.getD_some, htail]

/-- The search that goes on behind the first `q` numbers finds the next. -/
theorem firstFrom_next (hq : q ≤ (hits f start stop).length) :
    firstFrom f (nextFrom start (hits f start stop) q) stop = (hits f start stop)[q]? := by
  rw [firstFrom_eq_head, hits_next q hq, List.head?_drop]

theorem firstFrom_eq_some {b : ℕ} : firstFrom f next stop = some b ↔
    f b = true ∧ next ≤ b ∧ b < stop ∧ ∀ b', next ≤ b' → b' < b → f b' = false := by
  rw [firstFrom, List.find?_range'_eq_some, List.mem_range'_1]
  constructor
  · rintro ⟨h1, ⟨h2, h3⟩, h4⟩
    exact ⟨h1, h2, by omega, fun b' h5 h6 => by simpa using h4 b' h5 h6⟩
  · rintro ⟨h1, h2, h3, h4⟩
    exact ⟨h1, ⟨h2, by omega⟩, fun b' h5 h6 => by simpa using h4 b' h5 h6⟩

theorem firstFrom_eq_none : firstFrom f next stop = none ↔ ∀ b, next ≤ b → b < stop → f b = false := by
  simp only [firstFrom, List.find?_eq_none, List.mem_range'_1, Bool.not_eq_true]
  constructor
  · exact fun h b h1 h2 => h b ⟨h1, by omega⟩
  · exact fun h b hb => h b hb.1 (by omega)

theorem firstFrom_congr {f' : ℕ → Bool} (h : ∀ b, next ≤ b → b < stop → f b = f' b) :
    firstFrom f next stop = firstFrom f' next stop := by
  ext b
  simp only [firstFrom_eq_some]
  constructor
  · rintro ⟨h1, h2, h3, h4⟩
    exact ⟨h b h2 h3 ▸ h1, h2, h3, fun b' h5 h6 => h b' h5 (by omega) ▸ h4 b' h5 h6⟩
  · rintro ⟨h1, h2, h3, h4⟩
    exact ⟨(h b h2 h3).symm ▸ h1, h2, h3, fun b' h5 h6 => (h b' h5 (by omega)).symm ▸ h4 b' h5 h6⟩

/-- What the search for the number `q` passes over and finds. -/
theorem hits_between {b : ℕ} (hq : (hits f start stop)[q]? = some b) :
    nextFrom start (hits f start stop) q ≤ b ∧ b < stop ∧
    ∀ b', nextFrom start (hits f start stop) q ≤ b' → b' < b → f b' = false := by
  have hlt : q < (hits f start stop).length := (List.getElem?_eq_some_iff.mp hq).1
  have hfirst := firstFrom_next hlt.le
  rw [hq] at hfirst
  exact (firstFrom_eq_some.mp hfirst).2

theorem nextFrom_succ {l : List ℕ} {b : ℕ} (h : l[q]? = some b) : nextFrom start l (q + 1) = b + 1 := by
  rw [nextFrom, if_neg (by omega), Nat.add_sub_cancel, List.getD_eq_getElem?_getD, h, Option.getD_some]

/-- The numbers found so far lie below the place where the search goes on. -/
theorem lt_nextFrom {i b : ℕ} (hi : i < q) (hq : q ≤ (hits f start stop).length)
    (hb : (hits f start stop)[i]? = some b) : b < nextFrom start (hits f start stop) q := by
  obtain ⟨r, rfl⟩ : ∃ r, q = r + 1 := ⟨q - 1, by omega⟩
  have hsorted : (hits f start stop).Pairwise (· < ·) :=
    List.Pairwise.filter _ (List.pairwise_lt_range' ..)
  obtain ⟨hlt, rfl⟩ := List.getElem?_eq_some_iff.mp hb
  rw [nextFrom_succ (List.getElem?_eq_getElem (by omega)), Nat.lt_succ_iff]
  rcases Nat.lt_or_eq_of_le (Nat.le_of_lt_succ hi) with h | rfl
  · exact (List.pairwise_iff_getElem.mp hsorted i r hlt (by omega) h).le
  · exact le_rfl

end Search

/-! ## Pages -/

section Pages

variable {α : Type*} {n : ℕ} {l l' : List α} {i j : ℕ} {x z : α}

/-- The page `j` of a list cut into pages of length `n`. -/
def page (n : ℕ) (l : List α) (j : ℕ) : List α :=
  (l.drop (j * n)).take n

/-- A list made `n` long with `z`. -/
def pad (n : ℕ) (z : α) (l : List α) : List α :=
  l ++ List.replicate (n - l.length) z

theorem length_page : (page n l j).length = min n (l.length - j * n) := by
  simp [page]

theorem length_pad (h : l.length ≤ n) : (pad n z l).length = n := by
  simp [pad]
  omega

/-- A page that is full stays as it is when the list goes on. -/
theorem page_append (h : (j + 1) * n ≤ l.length) : page n (l ++ l') j = page n l j := by
  have hle : j * n + n ≤ l.length := by rwa [Nat.add_mul, Nat.one_mul] at h
  rw [page, page, List.drop_append_of_le_length (by omega), List.take_append_of_le_length (by simp; omega)]

/-- The page that is being filled takes one more. -/
theorem page_concat (h1 : j * n ≤ l.length) (h2 : l.length < (j + 1) * n) :
    page n (l ++ [x]) j = page n l j ++ [x] := by
  have hlt : l.length < j * n + n := by rwa [Nat.add_mul, Nat.one_mul] at h2
  rw [page, page, List.drop_append_of_le_length h1, List.take_of_length_le, List.take_of_length_le]
  · simp
    omega
  · simp
    omega

/-- The place behind a list takes the next element. -/
theorem set_pad (h : l.length < n) : (pad n z l).set l.length x = pad n z (l ++ [x]) := by
  obtain ⟨m, hm⟩ : ∃ m, n - l.length = m + 1 := ⟨n - l.length - 1, by omega⟩
  have hm' : n - (l.length + 1) = m := by omega
  simp [pad, hm, hm', List.replicate_succ]

/-- The elements of a page are those of the list. -/
theorem getD_pad_page (h1 : j * n ≤ i) (h2 : i < (j + 1) * n) (h3 : i < l.length) :
    (pad n z (page n l j)).getD (i - j * n) z = l.getD i z := by
  have hlt : i < j * n + n := by rwa [Nat.add_mul, Nat.one_mul] at h2
  have hlen : i - j * n < (page n l j).length := by
    rw [length_page]
    omega
  rw [pad, List.getD_eq_getElem?_getD, List.getElem?_append_left hlen, page, List.getElem?_take,
    if_pos (by omega), List.getElem?_drop, Nat.add_sub_cancel' h1, List.getD_eq_getElem?_getD]

end Pages

end Paging
