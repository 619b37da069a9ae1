import Yaffs.Scan

/-!
# The order of the scan

`yaffs2_scan_backwards` sorts the blocks by `yaffs2_ybicmp` and scans them from the last to the
first. The comparison subtracts the sequence numbers as C `int`s, so it goes by them as long as they
lie within half of the range of a `u32`.
-/

namespace Yaffs

/-! ## Sorting -/

section

variable {α : Type*}

/-- The comparison `cmp` orders the members of `l` totally. -/
structure TotalOn (cmp : α → α → ℤ) (l : List α) : Prop where
  total : ∀ x ∈ l, ∀ y ∈ l, cmp x y ≤ 0 ∨ cmp y x ≤ 0
  antisymm : ∀ x ∈ l, ∀ y ∈ l, cmp x y ≤ 0 → cmp y x ≤ 0 → x = y
  trans : ∀ x ∈ l, ∀ y ∈ l, ∀ z ∈ l, cmp x y ≤ 0 → cmp y z ≤ 0 → cmp x z ≤ 0

/-- A sort routine that is correct for any total order. -/
structure Sorts (sort : (α → α → ℤ) → List α → List α) : Prop where
  perm : ∀ cmp l, TotalOn cmp l → (sort cmp l).Perm l
  sorted : ∀ cmp l, TotalOn cmp l → (sort cmp l).Pairwise fun x y => cmp x y ≤ 0

end

/-! ## The comparison -/

/-- `yaffs2_ybicmp`, of sequence numbers and blocks. -/
def ybicmp (x y : ℕ × ℕ) : ℤ :=
  if s32 x.1 = s32 y.1 then (x.2 : ℤ) - y.2 else (s32 x.1 - s32 y.1).bmod (2 ^ 32)

/-- The comparison is a total order of the blocks that goes by their sequence numbers, and sorted by
it the blocks are scanned from the greatest sequence number to the least. -/
structure OrdersBySeq (index : List (ℕ × ℕ)) : Prop where
  totalOn : TotalOn ybicmp index
  agrees : ∀ x ∈ index, ∀ y ∈ index, x.1 < y.1 → ybicmp x y < 0
  newestFirst : ∀ sort, Sorts sort → ((sort ybicmp index).reverse.map Prod.fst).Pairwise (· ≥ ·)

/-- The sequence numbers lie within half of the range of a `u32`. -/
def SeqsNear (index : List (ℕ × ℕ)) : Prop :=
  ∀ x ∈ index, ∀ y ∈ index, x.1 < y.1 + 2 ^ 31

/-- The sequence numbers are such as the scan accepts. -/
def SeqsAccepted (index : List (ℕ × ℕ)) : Prop :=
  ∀ x ∈ index, lowestSequenceNumber ≤ x.1 ∧ x.1 < highestSequenceNumber

section

variable {x y : ℕ × ℕ} {index : List (ℕ × ℕ)}

theorem SeqsAccepted.lt (h : SeqsAccepted index) (hx : x ∈ index) : x.1 < 2 ^ 32 := by
  have := (h x hx).2
  unfold highestSequenceNumber at this
  omega

theorem bmod_word (i : ℤ) : i.bmod (2 ^ 32) =
    if i % 4294967296 < 2147483648 then i % 4294967296 else i % 4294967296 - 4294967296 := by
  rw [Int.bmod_def]
  rfl

theorem s32_inj {m n : ℕ} (hm : m < 2 ^ 32) (hn : n < 2 ^ 32) : s32 m = s32 n ↔ m = n := by
  unfold s32
  rw [bmod_word, bmod_word]
  split_ifs <;> omega

/-- The difference of two words as C `int`s is theirs, wrapped. -/
theorem s32_sub_bmod (m n : ℕ) : (s32 m - s32 n).bmod (2 ^ 32) = ((m : ℤ) - n).bmod (2 ^ 32) := by
  unfold s32
  exact Int.bmod_sub_bmod.trans Int.sub_bmod_bmod

theorem ybicmp_of_eq (h : x.1 = y.1) : ybicmp x y = (x.2 : ℤ) - y.2 := by
  rw [ybicmp, if_pos (congrArg s32 h)]

theorem ybicmp_of_ne (hx : x.1 < 2 ^ 32) (hy : y.1 < 2 ^ 32) (h : x.1 ≠ y.1) :
    ybicmp x y = ((x.1 : ℤ) - y.1).bmod (2 ^ 32) := by
  rw [ybicmp, if_neg (fun heq => h ((s32_inj hx hy).mp heq)), s32_sub_bmod]

/-- Of two blocks the comparison tells the older one if their sequence numbers are near. -/
theorem ybicmp_neg_iff (hy : y.1 < 2 ^ 32) (h : x.1 < y.1) :
    ybicmp x y < 0 ∧ 0 < ybicmp y x ↔ y.1 < x.1 + 2 ^ 31 := by
  rw [ybicmp_of_ne (h.trans hy) hy h.ne, ybicmp_of_ne hy (h.trans hy) h.ne', bmod_word, bmod_word]
  split_ifs <;> omega

/-- Blocks with near sequence numbers are compared by these and, where they agree, by their numbers. -/
theorem ybicmp_le_iff (hx : x.1 < 2 ^ 32) (hy : y.1 < 2 ^ 32) (hxy : x.1 < y.1 + 2 ^ 31)
    (hyx : y.1 < x.1 + 2 ^ 31) : ybicmp x y ≤ 0 ↔ x.1 < y.1 ∨ x.1 = y.1 ∧ x.2 ≤ y.2 := by
  rcases lt_trichotomy x.1 y.1 with h | h | h
  · have := ((ybicmp_neg_iff hy h).mpr hyx).1
    omega
  · rw [ybicmp_of_eq h]
    omega
  · have := ((ybicmp_neg_iff hx h).mpr hxy).2
    omega

/-- The comparison of blocks with near sequence numbers is a total order. -/
theorem SeqsNear.totalOn (h : SeqsNear index) (hacc : SeqsAccepted index) : TotalOn ybicmp index := by
  have hle : ∀ x ∈ index, ∀ y ∈ index, (ybicmp x y ≤ 0 ↔ x.1 < y.1 ∨ x.1 = y.1 ∧ x.2 ≤ y.2) := fun x hx y hy =>
    ybicmp_le_iff (hacc.lt hx) (hacc.lt hy) (h x hx y hy) (h y hy x hx)
  refine ⟨fun x hx y hy => ?_, fun x hx y hy h1 h2 => ?_, fun x hx y hy z hz h1 h2 => ?_⟩
  · rw [hle x hx y hy, hle y hy x hx]
    omega
  · rw [hle x hx y hy] at h1
    rw [hle y hy x hx] at h2
    exact Prod.ext (by omega) (by omega)
  · rw [hle x hx y hy] at h1
    rw [hle y hy z hz] at h2
    rw [hle x hx z hz]
    omega

/-- The comparison goes by the sequence numbers exactly when they lie within half of the range. -/
theorem ordersBySeq_iff (hacc : SeqsAccepted index) : OrdersBySeq index ↔ SeqsNear index := by
  constructor
  · intro h x hx y hy
    rcases lt_or_ge y.1 x.1 with hlt | hge
    · have hneg := h.agrees y hy x hx hlt
      have hpos : 0 < ybicmp x y := by
        by_contra hle
        have heq := h.totalOn.antisymm y hy x hx hneg.le (not_lt.mp hle)
        rw [heq] at hlt
        exact lt_irrefl _ hlt
      exact (ybicmp_neg_iff (hacc.lt hx) hlt).mp ⟨hneg, hpos⟩
    · omega
  · intro h
    have htotal := h.totalOn hacc
    refine ⟨htotal, fun x hx y hy hlt => ((ybicmp_neg_iff (hacc.lt hy) hlt).mpr (h y hy x hx)).1, fun sort hsort => ?_⟩
    have hperm := hsort.perm _ _ htotal
    rw [List.map_reverse, List.pairwise_reverse, List.pairwise_map]
    refine (hsort.sorted _ _ htotal).imp_of_mem fun {x y} hx hy hle => ?_
    have hx := hperm.mem_iff.mp hx
    have hy := hperm.mem_iff.mp hy
    rw [ybicmp_le_iff (hacc.lt hx) (hacc.lt hy) (h x hx y hy) (h y hy x hx)] at hle
    change x.1 ≤ y.1
    omega

/-- Three blocks of a device that has been in use for long. -/
theorem oldBlocks_ordered : OrdersBySeq [(0x80000000, 1), (0x80000005, 7), (0x9fffffff, 3)] :=
  (ordersBySeq_iff (by unfold SeqsAccepted; decide)).mpr (by unfold SeqsNear; decide)

/-- Sequence numbers half of the range apart : the newest block is taken for the oldest. -/
theorem farBlocks_not_ordered : ¬∀ index, SeqsAccepted index → OrdersBySeq index := by
  intro h
  have hneg := (h [(0x1000, 1), (0x90000000, 2)] (by unfold SeqsAccepted; decide)).agrees (0x1000, 1) (by simp)
    (0x90000000, 2) (by simp) (by decide)
  exact absurd hneg (by decide)

/-! ## The order in the scan -/

theorem ybiLe_eq (hx : x.1 < 2 ^ 32) (hy : y.1 < 2 ^ 32) : ybiLe x y = decide (ybicmp x y ≤ 0) := by
  unfold ybiLe ybicmp
  by_cases h : x.1 = y.1
  · rw [if_pos h, if_pos (congrArg s32 h)]
    exact decide_eq_decide.mpr (by omega)
  · rw [if_neg h, if_neg (fun heq => h ((s32_inj hx hy).mp heq))]

/-- Lists of blocks by their sequence numbers. -/
def seqLe (x y : ℕ × ℕ) : Bool :=
  decide (x.1 < y.1 ∨ x.1 = y.1 ∧ x.2 ≤ y.2)

/-- Near sequence numbers : the blocks are scanned from the newest to the oldest. -/
theorem SeqsNear.scanOrder (h : SeqsNear index) (hacc : SeqsAccepted index) :
    ∃ sorted : List (ℕ × ℕ), sorted.Perm index ∧ (sorted.map Prod.fst).Pairwise (· ≥ ·) ∧
      scanOrder index = sorted.map Prod.snd := by
  have hsame : index.mergeSort ybiLe = index.mergeSort seqLe := by
    have hmap := List.map_mergeSort (r := ybiLe) (s := seqLe) (f := id) (l := index) fun x hx y hy => by
      rw [ybiLe_eq (hacc.lt hx) (hacc.lt hy)]
      exact decide_eq_decide.mpr (ybicmp_le_iff (hacc.lt hx) (hacc.lt hy) (h x hx y hy) (h y hy x hx))
    simpa using hmap
  refine ⟨(index.mergeSort seqLe).reverse, (List.reverse_perm _).trans (List.mergeSort_perm _ _), ?_, ?_⟩
  · rw [List.map_reverse, List.pairwise_reverse, List.pairwise_map]
    have hsorted : (index.mergeSort seqLe).Pairwise fun x y => seqLe x y := by
      refine List.pairwise_mergeSort (fun x y z h1 h2 => ?_) (fun x y => ?_) index
      · simp only [seqLe, decide_eq_true_eq] at *
        omega
      · simp only [seqLe, Bool.or_eq_true, decide_eq_true_eq]
        omega
    refine hsorted.imp fun {x y} hle => ?_
    simp only [seqLe, decide_eq_true_eq] at hle
    change x.1 ≤ y.1
    omega
  · rw [Yaffs.scanOrder, hsame, List.map_reverse]

end

end Yaffs
