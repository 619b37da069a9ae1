import Yaffs.Nameval

/-!
# Where the attribute calls read and write

The sizes and the names in the area come from flash. For each call the bytes of the area that it
reads or writes are given as spans, with the lengths as `memcpy`, `memset` and `strncpy` get them : a
negative `int` becomes a large `size_t`. Whatever is in the area, the walks end, `nval_list` and the
sizes of the records are read inside the area, and `nval_del` writes inside it. The name of a record
is compared past the end of the area when the record ends near it, `nval_get` takes a size from a
name without its zero, and `nval_set` pads the name as far as the whole record is long.
-/

namespace Yaffs

open Memory

/-- Bytes of the area that are read or written : the first one, and their number. -/
structure Span where
  start : ℕ
  len : ℕ
  deriving DecidableEq, Repr

/-- Every byte of the span is one of the first `n`. -/
def Span.Inside (n : ℕ) (sp : Span) : Prop :=
  ∀ i < sp.len, sp.start + i < n

theorem Span.inside_iff {n : ℕ} {sp : Span} : sp.Inside n ↔ sp.len = 0 ∨ sp.start + sp.len ≤ n := by
  constructor
  · intro h
    by_contra! hlt
    have := h (sp.len - 1) (by omega)
    omega
  · intro h i hi
    omega

theorem Span.inside_of_le {n start len : ℕ} (h : start + len ≤ n) : Span.Inside n ⟨start, len⟩ :=
  Span.inside_iff.mpr (Or.inr h)

/-- Conversion of an `int` to `size_t`. -/
def asSize (n : ℤ) : ℕ :=
  (n % 2 ^ 64).toNat

theorem asSize_of_nonneg {n : ℤ} (h : 0 ≤ n) (hn : n < 2 ^ 64) : asSize n = n.toNat := by
  unfold asSize
  rw [Int.emod_eq_of_lt h hn]

/-- A negative length is longer than any area. -/
theorem le_asSize_of_neg {n : ℤ} (h : n < 0) (hn : -2 ^ 32 ≤ n) : 2 ^ 63 ≤ asSize n := by
  unfold asSize
  omega

/-! ## Reading -/

/-- The size a walk continues with is read. -/
def nextSizeReads (a : AttrArea) (pos : ℕ) : List Span :=
  if pos + 4 < a.size then [⟨pos, 4⟩] else []

/-- The loop of `nval_find`. -/
def nvalFindLoopReads (a : AttrArea) (m : Mem) (name : List UInt8) : ℕ → ℕ → ℤ → List Span
  | 0, _, _ => []
  | n + 1, pos, s =>
    if IsRecord a pos s then
      ⟨pos + 4, strncmpLen m (pos + 4) s.toNat name⟩ ::
        if strncmpEq m (pos + 4) s.toNat name then []
        else nextSizeReads a (pos + s.toNat) ++
          nvalFindLoopReads a m name n (pos + s.toNat) (nextSize a m (pos + s.toNat))
    else []

/-- `nval_find` -/
def nvalFindReads (a : AttrArea) (m : Mem) (name : List UInt8) : List Span :=
  ⟨0, 4⟩ :: nvalFindLoopReads a m name a.size 0 (s32At a m 0)

/-- The loop of `nval_used`. -/
def nvalUsedLoopReads (a : AttrArea) (m : Mem) : ℕ → ℕ → ℤ → List Span
  | 0, _, _ => []
  | n + 1, pos, s =>
    if IsRecord a pos s then
      nextSizeReads a (pos + s.toNat) ++ nvalUsedLoopReads a m n (pos + s.toNat) (nextSize a m (pos + s.toNat))
    else []

/-- `nval_used` -/
def nvalUsedReads (a : AttrArea) (m : Mem) : List Span :=
  ⟨0, 4⟩ :: nvalUsedLoopReads a m a.size 0 (s32At a m 0)

/-- `nval_del` : what is behind the record is moved. -/
def nvalDelReads (a : AttrArea) (m : Mem) (name : List UInt8) : List Span :=
  nvalFindReads a m name ++
    match nvalFind a m name with
    | none => []
    | some (pos, _) =>
      if a.size ≤ pos then []
      else
        let size := s32At a m pos
        [⟨pos, 4⟩, ⟨pos + size.toNat, asSize (a.size - (pos + size))⟩]

/-- `nval_del` -/
def nvalDelWrites (a : AttrArea) (m : Mem) (name : List UInt8) : List Span :=
  match nvalFind a m name with
  | none => []
  | some (pos, _) =>
    if a.size ≤ pos then []
    else
      let size := s32At a m pos
      [⟨pos, asSize (a.size - (pos + size))⟩, ⟨(a.size - size).toNat, asSize size⟩]

/-- The size `nval_get` returns, for a buffer of `bsize` bytes. -/
def nvalGetSize (a : AttrArea) (m : Mem) (name : List UInt8) (bsize : ℤ) : Except NvalError ℤ :=
  match nvalFind a m name with
  | none => .error .noData
  | some (pos, _) =>
    if pos < a.size then
      let (_, left) := skipName a m (pos + 4) (s32At a m pos - 4).toNat
      let size : ℤ := (if s32At a m pos < 4 then s32At a m pos - 4 else left) - 1
      if bsize = 0 then .ok size
      else if size ≤ bsize then .ok size
      else .error .range
    else .error .range

/-- `nval_get` : the name is passed up to the character that ends the loop, and the value is copied. -/
def nvalGetReads (a : AttrArea) (m : Mem) (name : List UInt8) (bsize : ℤ) : List Span :=
  nvalFindReads a m name ++
    match nvalFind a m name with
    | none => []
    | some (pos, _) =>
      if pos < a.size then
        let (pos', left) := skipName a m (pos + 4) (s32At a m pos - 4).toNat
        let size : ℤ := (if s32At a m pos < 4 then s32At a m pos - 4 else left) - 1
        [⟨pos, 4⟩, ⟨pos + 4, pos' - (pos + 4) + 1⟩] ++
          if bsize = 0 then [] else if size ≤ bsize then [⟨pos' + 1, asSize size⟩] else []
      else []

/-- The loop of `nval_list`, when `n'` bytes have been copied. `strnlen` reads the zero as well, if it
finds one. -/
def nvalListLoopReads (a : AttrArea) (m : Mem) (bsize : ℤ) : ℕ → ℕ → ℤ → ℕ → List Span
  | 0, _, _, _ => []
  | n + 1, pos, s, copied =>
    if 4 < s ∧ s ≤ a.size ∧ pos + s < a.size then
      let len := strnlen m (pos + 4) (s - 4).toNat
      ⟨pos + 4, min (len + 1) (s - 4).toNat⟩ ::
        if (copied : ℤ) + len + 1 < bsize then
          ⟨pos + 4, len⟩ :: nextSizeReads a (pos + s.toNat) ++
            nvalListLoopReads a m bsize n (pos + s.toNat) (nextSize a m (pos + s.toNat)) (copied + len + 1)
        else nextSizeReads a (pos + s.toNat)
    else []

/-- `nval_list` -/
def nvalListReads (a : AttrArea) (m : Mem) (bsize : ℤ) : List Span :=
  ⟨0, 4⟩ :: nvalListLoopReads a m bsize a.size 0 (s32At a m 0) 0

/-! ## Setting -/

/-- `reclen` in `nval_set`, for a value of `bsize` bytes. -/
def recordLength (a : AttrArea) (name : List UInt8) (bsize : ℤ) : ℤ :=
  toS32 (asSize (4 + min name.length a.size + 1 + bsize))

/-- What `nval_set` returns, for a value of `bsize` bytes. -/
def nvalSetResult (a : AttrArea) (m : Mem) (name : List UInt8) (bsize : ℤ) (create replace : Bool) :
    Except NvalError Unit :=
  let found := nvalFind a m name
  if create ∧ found.isSome then .error .exist
  else if replace ∧ found.isNone then .error .noData
  else if (a.size : ℤ) - nvalUsed a m + (found.map Prod.snd).getD 0 < recordLength a name bsize then .error .noSpc
  else .ok ()

/-- The area from which a record of the name has been deleted. -/
def withoutRecord (a : AttrArea) (m : Mem) (name : List UInt8) : Mem :=
  if (nvalFind a m name).isSome then (nvalDel a m name).1 else m

/-- `nval_set` -/
def nvalSetReads (a : AttrArea) (m : Mem) (name : List UInt8) (bsize : ℤ) (create replace : Bool) : List Span :=
  nvalFindReads a m name ++
    match nvalSetResult a m name bsize create replace with
    | .error .noSpc => nvalUsedReads a m
    | .error _ => []
    | .ok () => nvalUsedReads a m ++
      if (nvalFind a m name).isSome then nvalDelReads a m name ++ nvalUsedReads a (withoutRecord a m name) else []

/-- `nval_set` : an existing record is deleted, then the size, the name and the value are written. -/
def nvalSetWrites (a : AttrArea) (m : Mem) (name : List UInt8) (bsize : ℤ) (create replace : Bool) : List Span :=
  match nvalSetResult a m name bsize create replace with
  | .error _ => []
  | .ok () =>
    let start := nvalUsed a (withoutRecord a m name)
    nvalDelWrites a m name ++
      [⟨start, 4⟩, ⟨start + 4, asSize (recordLength a name bsize)⟩,
        ⟨start + 4 + (min name.length a.size + 1), asSize bsize⟩]

variable {a : AttrArea} {m : Mem} {name value : List UInt8} {bsize : ℤ} {create replace : Bool} {pos p n : ℕ} {s t : ℤ}

/-- What a call for a buffer returns is the size alone. -/
theorem nvalGet_fst (bsize : ℕ) : (nvalGet a m name bsize).map Prod.fst = nvalGetSize a m name bsize := by
  unfold nvalGet nvalGetSize
  cases nvalFind a m name with
  | none => rfl
  | some r =>
    dsimp only
    simp only [Nat.cast_eq_zero]
    split_ifs <;> rfl

theorem recordLength_nat (value : List UInt8) :
    recordLength a name value.length = toS32 (4 + min name.length a.size + 1 + value.length) := by
  unfold recordLength asSize toS32
  rw [show 4 + ((min name.length a.size : ℕ) : ℤ) + 1 + value.length =
    ((4 + min name.length a.size + 1 + value.length : ℕ) : ℤ) by push_cast; rfl]
  generalize 4 + min name.length a.size + 1 + value.length = k
  have hk : ((k : ℤ) % 2 ^ 64).toNat % 2 ^ 32 = k % 2 ^ 32 := by omega
  rw [hk]

/-- What `nval_set` does for a value. -/
theorem nvalSet_eq_result : nvalSet a m name value create replace =
    match nvalSetResult a m name value.length create replace with
    | .error er => (m, .error er)
    | .ok () => (nvalWrite a (withoutRecord a m name) (nvalUsed a (withoutRecord a m name))
        (recordLength a name value.length) (min name.length a.size) name value, .ok ()) := by
  unfold nvalSet nvalSetResult withoutRecord
  dsimp only
  rw [recordLength_nat]
  split_ifs <;> rfl

/-! ## Walks -/

/-- The record of size `t` at `p` is met by a walk for a name from a record of size `s` at `pos` on. -/
inductive FindMeetsFrom (a : AttrArea) (m : Mem) (name : List UInt8) : ℕ → ℤ → ℕ → ℤ → Prop
  | here {pos : ℕ} {s : ℤ} : IsRecord a pos s → FindMeetsFrom a m name pos s pos s
  | later {pos p : ℕ} {s t : ℤ} : IsRecord a pos s → strncmpEq m (pos + 4) s.toNat name = false →
      FindMeetsFrom a m name (pos + s.toNat) (nextSize a m (pos + s.toNat)) p t → FindMeetsFrom a m name pos s p t

/-- The record of size `s` at `pos` is met by `nval_find`. -/
def FindMeets (a : AttrArea) (m : Mem) (name : List UInt8) (pos : ℕ) (s : ℤ) : Prop :=
  FindMeetsFrom a m name 0 (s32At a m 0) pos s

/-- The size a walk has got is the one that stands at the position. -/
def SizeAt (a : AttrArea) (m : Mem) (pos : ℕ) (s : ℤ) : Prop :=
  IsRecord a pos s → s32At a m pos = s ∧ (pos = 0 ∨ pos + 4 < a.size)

theorem sizeAt_zero : SizeAt a m 0 (s32At a m 0) :=
  fun _ => ⟨rfl, Or.inl rfl⟩

theorem sizeAt_next : SizeAt a m pos (nextSize a m pos) := by
  unfold SizeAt nextSize
  split_ifs with h
  · exact fun _ => ⟨rfl, Or.inr h⟩
  · exact fun hr => absurd hr.1 (lt_irrefl _)

theorem IsRecord.le_next (h : IsRecord a pos s) : pos + 1 ≤ pos + s.toNat ∧ pos + s.toNat < a.size := by
  obtain ⟨h1, -, h3⟩ := h
  omega

/-- What is found is met, and its size stands there. -/
theorem nvalFindLoop_found (hs : SizeAt a m pos s) (h : nvalFindLoop a m name n pos s = some (p, t)) :
    FindMeetsFrom a m name pos s p t ∧ IsRecord a p t ∧ s32At a m p = t ∧ (p = 0 ∨ p + 4 < a.size) := by
  induction n generalizing pos s with
  | zero => simp [nvalFindLoop] at h
  | succ n ih =>
    unfold nvalFindLoop at h
    split_ifs at h with hr hc
    · obtain ⟨rfl, rfl⟩ := Prod.mk.inj (Option.some.inj h)
      exact ⟨.here hr, hr, hs hr⟩
    · obtain ⟨h1, h2⟩ := ih sizeAt_next h
      exact ⟨.later hr (by simpa using hc) h1, h2⟩

theorem nvalFind_found (h : nvalFind a m name = some (pos, s)) :
    FindMeets a m name pos s ∧ IsRecord a pos s ∧ s32At a m pos = s ∧ (pos = 0 ∨ pos + 4 < a.size) :=
  nvalFindLoop_found sizeAt_zero h

/-! ## The walks end -/

theorem nvalFindLoop_succ (h : a.size ≤ pos + n) :
    nvalFindLoop a m name (n + 1) pos s = nvalFindLoop a m name n pos s := by
  induction n generalizing pos s with
  | zero =>
    unfold nvalFindLoop
    rw [if_neg fun hr => absurd hr.le_next.2 (by omega)]
  | succ n ih =>
    conv_lhs => unfold nvalFindLoop
    conv_rhs => unfold nvalFindLoop
    split_ifs with hr
    · rfl
    · have := hr.le_next.1
      exact ih (by omega)
    · rfl

theorem nvalUsedLoop_succ (h : a.size ≤ pos + n) : nvalUsedLoop a m (n + 1) pos s = nvalUsedLoop a m n pos s := by
  induction n generalizing pos s with
  | zero =>
    unfold nvalUsedLoop
    rw [if_neg fun hr => absurd hr.le_next.2 (by omega)]
  | succ n ih =>
    conv_lhs => unfold nvalUsedLoop
    conv_rhs => unfold nvalUsedLoop
    split_ifs with hr
    · have := hr.le_next.1
      exact ih (by omega)
    · rfl

theorem nvalListLoop_succ {k : ℕ} {out : List UInt8} (h : a.size ≤ pos + n) :
    nvalListLoop a m k (n + 1) pos s out = nvalListLoop a m k n pos s out := by
  induction n generalizing pos s out with
  | zero =>
    unfold nvalListLoop
    rw [if_neg fun hr => absurd hr.2.2 (by omega)]
  | succ n ih =>
    conv_lhs => unfold nvalListLoop
    conv_rhs => unfold nvalListLoop
    split_ifs with hr
    · dsimp only
      split_ifs
      · exact ih (by omega)
      · rfl
    · rfl

/-- With more turns than the area has bytes the walks do nothing else. -/
theorem walks_end (h : a.size ≤ n) : nvalFindLoop a m name n 0 (s32At a m 0) = nvalFind a m name ∧
    nvalUsedLoop a m n 0 (s32At a m 0) = nvalUsed a m ∧
      ∀ k, nvalListLoop a m k n 0 (s32At a m 0) [] = nvalList a m k := by
  induction n, h using Nat.le_induction with
  | base => exact ⟨rfl, rfl, fun _ => rfl⟩
  | succ n hn ih =>
    obtain ⟨h1, h2, h3⟩ := ih
    exact ⟨(nvalFindLoop_succ (by omega)).trans h1, (nvalUsedLoop_succ (by omega)).trans h2,
      fun k => (nvalListLoop_succ (by omega)).trans (h3 k)⟩

/-! ## Reads inside the area -/

/-- All spans are inside the area. -/
def AllInside (a : AttrArea) (l : List Span) : Prop :=
  ∀ sp ∈ l, sp.Inside a.size

@[simp] theorem allInside_nil : AllInside a [] := by
  simp [AllInside]

@[simp] theorem allInside_cons {sp : Span} {l : List Span} :
    AllInside a (sp :: l) ↔ sp.Inside a.size ∧ AllInside a l := by
  simp [AllInside]

@[simp] theorem allInside_append {l l' : List Span} : AllInside a (l ++ l') ↔ AllInside a l ∧ AllInside a l' := by
  simp [AllInside, or_imp, forall_and]

theorem nextSizeReads_inside : AllInside a (nextSizeReads a pos) := by
  unfold nextSizeReads
  split_ifs with h
  · exact allInside_cons.mpr ⟨Span.inside_of_le (by omega), allInside_nil⟩
  · exact allInside_nil

theorem strncmpLen_pos (hn : 0 < n) : 0 < strncmpLen m p n name := by
  obtain ⟨n, rfl⟩ := Nat.exists_eq_succ_of_ne_zero hn.ne'
  cases name with
  | nil => exact Nat.one_pos
  | cons c cs =>
    unfold strncmpLen
    split_ifs <;> omega

/-- The name of the record is compared inside the area : the record ends four bytes before its end, or
the name differs, or ends, before that. -/
def ComparedInside (a : AttrArea) (m : Mem) (name : List UInt8) (pos : ℕ) (s : ℤ) : Prop :=
  pos + 4 + s.toNat ≤ a.size ∨ ∃ i < s.toNat, pos + 4 + i < a.size ∧ name[i]? ≠ some (m (pos + 4 + i))

theorem compared_iff (h : IsRecord a pos s) :
    Span.Inside a.size ⟨pos + 4, strncmpLen m (pos + 4) s.toNat name⟩ ↔ ComparedInside a m name pos s := by
  have hpos : 0 < strncmpLen m (pos + 4) s.toNat name := strncmpLen_pos (by have := h.1; omega)
  rw [Span.inside_iff, or_iff_right hpos.ne']
  exact strncmpLen_le_iff

theorem nvalFindLoopReads_inside (h : a.size ≤ pos + n) : AllInside a (nvalFindLoopReads a m name n pos s) ↔
    ∀ p t, FindMeetsFrom a m name pos s p t → ComparedInside a m name p t := by
  induction n generalizing pos s with
  | zero =>
    refine iff_of_true allInside_nil fun p t hm => ?_
    cases hm with
    | here hr => exact absurd hr.le_next.2 (by omega)
    | later hr => exact absurd hr.le_next.2 (by omega)
  | succ n ih =>
    unfold nvalFindLoopReads
    split_ifs with hr hc
    · rw [allInside_cons, compared_iff hr]
      refine ⟨fun ⟨hin, _⟩ p t hm => ?_, fun hall => ⟨hall pos s (.here hr), allInside_nil⟩⟩
      cases hm with
      | here => exact hin
      | later _ hne => exact absurd (hc.symm.trans hne) (by simp)
    · have hlt := hr.le_next.1
      rw [allInside_cons, compared_iff hr, allInside_append, ih (by omega)]
      constructor
      · rintro ⟨hin, -, hrest⟩ p t hm
        cases hm with
        | here => exact hin
        | later _ _ hm => exact hrest p t hm
      · intro hall
        refine ⟨hall pos s (.here hr), nextSizeReads_inside, fun p t hm => ?_⟩
        exact hall p t (.later hr (by simpa using hc) hm)
    · refine iff_of_true allInside_nil fun p t hm => ?_
      cases hm with
      | here hr' => exact absurd hr' hr
      | later hr' => exact absurd hr' hr

/-- The reads of `nval_find` are inside the area when the names of the records it meets are compared there. -/
theorem nvalFindReads_inside (h : 4 ≤ a.size) : AllInside a (nvalFindReads a m name) ↔
    ∀ pos s, FindMeets a m name pos s → ComparedInside a m name pos s := by
  unfold nvalFindReads
  rw [allInside_cons, nvalFindLoopReads_inside (by omega)]
  exact and_iff_right (Span.inside_of_le h)

theorem nvalUsedLoopReads_inside (n : ℕ) : ∀ (pos : ℕ) (s : ℤ), AllInside a (nvalUsedLoopReads a m n pos s) := by
  induction n with
  | zero => exact fun _ _ => allInside_nil
  | succ n ih =>
    intro pos s
    unfold nvalUsedLoopReads
    split_ifs
    · exact allInside_append.mpr ⟨nextSizeReads_inside, ih _ _⟩
    · exact allInside_nil

theorem nvalUsedReads_inside (h : 4 ≤ a.size) : AllInside a (nvalUsedReads a m) :=
  allInside_cons.mpr ⟨Span.inside_of_le h, nvalUsedLoopReads_inside _ _ _⟩

/-- `nval_del` reads where `nval_find` does, and inside the area. -/
theorem nvalDelReads_inside (h : 4 ≤ a.size) :
    AllInside a (nvalDelReads a m name) ↔ AllInside a (nvalFindReads a m name) := by
  unfold nvalDelReads
  rw [allInside_append]
  refine and_iff_left ?_
  split
  · exact allInside_nil
  · rename_i pos s hf
    obtain ⟨-, hr, hsize, hpos⟩ := nvalFind_found hf
    obtain ⟨hlo, hhi⟩ := hr.le_next
    obtain ⟨hs, -, -⟩ := hr
    rw [hsize]
    have hlt := a.size_lt
    split_ifs
    · exact allInside_nil
    · dsimp only
      rw [asSize_of_nonneg (by omega) (by omega)]
      exact allInside_cons.mpr ⟨Span.inside_of_le (by omega), allInside_cons.mpr ⟨Span.inside_of_le (by omega),
        allInside_nil⟩⟩

theorem nvalSetReads_inside (h : 4 ≤ a.size) :
    AllInside a (nvalSetReads a m name bsize create replace) ↔ AllInside a (nvalFindReads a m name) := by
  unfold nvalSetReads
  rw [allInside_append]
  refine and_iff_left_of_imp fun hfind => ?_
  split
  · exact nvalUsedReads_inside h
  · exact allInside_nil
  · refine allInside_append.mpr ⟨nvalUsedReads_inside h, ?_⟩
    split_ifs
    · exact allInside_append.mpr ⟨(nvalDelReads_inside h).mpr hfind, nvalUsedReads_inside h⟩
    · exact allInside_nil

/-- `nval_list` reads inside the area. -/
theorem nvalListLoopReads_inside (n : ℕ) : ∀ (pos : ℕ) (s : ℤ) (copied : ℕ),
    AllInside a (nvalListLoopReads a m bsize n pos s copied) := by
  induction n with
  | zero => exact fun _ _ _ => allInside_nil
  | succ n ih =>
    intro pos s copied
    unfold nvalListLoopReads
    split_ifs with hr
    · have hlen := strnlen_le m (s - 4).toNat (pos + 4)
      dsimp only
      rw [allInside_cons]
      refine ⟨Span.inside_of_le (by omega), ?_⟩
      split_ifs
      · exact allInside_append.mpr ⟨allInside_cons.mpr ⟨Span.inside_of_le (by omega), nextSizeReads_inside⟩, ih _ _ _⟩
      · exact nextSizeReads_inside
    · exact allInside_nil

theorem nvalListReads_inside (h : 4 ≤ a.size) : AllInside a (nvalListReads a m bsize) :=
  allInside_cons.mpr ⟨Span.inside_of_le h, nvalListLoopReads_inside _ _ _ _⟩

/-- What is listed is shorter than what has been walked over. -/
theorem nvalListLoop_length {k : ℕ} (n : ℕ) : ∀ (pos : ℕ) (s : ℤ) (out : List UInt8), out.length ≤ pos →
    pos ≤ a.size → (nvalListLoop a m k n pos s out).length ≤ a.size := by
  induction n with
  | zero => exact fun pos s out h1 h2 => h1.trans h2
  | succ n ih =>
    intro pos s out h1 h2
    unfold nvalListLoop
    split_ifs with hr
    · have hlen := strnlen_le m (s - 4).toNat (pos + 4)
      dsimp only
      split_ifs
      · refine ih _ _ _ ?_ (by omega)
        simp only [List.length_append, load, List.length_map, List.length_range, List.length_singleton]
        omega
      · exact h1.trans h2
    · exact h1.trans h2

theorem nvalList_length (k : ℕ) : (nvalList a m k).length ≤ a.size :=
  nvalListLoop_length _ _ _ _ le_rfl (Nat.zero_le _)

/-! ## The value of a record -/

/-- The loop over the name stops behind `k` characters, on a zero unless it has passed all. -/
theorem skipName_spec (n : ℕ) : ∀ p, p + n ≤ a.size → ∃ k ≤ n, skipName a m p n = (p + k, n - k) ∧
    (k = n ↔ ∀ i < n, m (p + i) ≠ 0) := by
  induction n with
  | zero => exact fun p _ => ⟨0, le_rfl, rfl, by simp⟩
  | succ n ih =>
    intro p hp
    unfold skipName
    split_ifs with h
    · obtain ⟨k, hk, heq, hall⟩ := ih (p + 1) (by omega)
      refine ⟨k + 1, by omega, by rw [heq]; exact Prod.ext (by dsimp only; omega) (by dsimp only; omega), ?_⟩
      rw [Nat.add_right_cancel_iff, hall]
      constructor
      · intro hrest i hi
        cases i with
        | zero => exact h.1
        | succ i => exact (show p + 1 + i = p + (i + 1) by omega) ▸ hrest i (by omega)
      · intro hrest i hi
        exact (show p + (i + 1) = p + 1 + i by omega) ▸ hrest (i + 1) (by omega)
    · refine ⟨0, Nat.zero_le _, rfl, iff_of_false (by omega) fun hall => h ⟨hall 0 (by omega), by omega⟩⟩

/-- The name of a record of `s` bytes at `pos` has its zero inside the record. -/
def HasZero (m : Mem) (pos : ℕ) (s : ℤ) : Prop :=
  ∃ i : ℕ, 4 ≤ i ∧ i < s ∧ m (pos + i) = 0

/-- The size `nval_get` takes for the value of a record of `s` bytes whose name has no zero. -/
def sizeWithoutZero (s : ℤ) : ℤ :=
  min (s - 5) (-1)

/-- The name of the record ends inside it, or the buffer is shorter than the negative size its value
would have. -/
def ValueInside (m : Mem) (bsize : ℤ) (pos : ℕ) (s : ℤ) : Prop :=
  HasZero m pos s ∨ bsize < sizeWithoutZero s

/-- What `nval_get` makes of the record it has found. -/
theorem getSize_eq (hf : nvalFind a m name = some (pos, s)) (hpos : pos + 4 < a.size) :
    ∃ (k : ℕ) (v : ℤ), (k : ℤ) ≤ max (s - 4) 0 ∧
      nvalGetSize a m name bsize = (if bsize = 0 then .ok v else if v ≤ bsize then .ok v else .error .range) ∧
      nvalGetReads a m name bsize = nvalFindReads a m name ++ ([⟨pos, 4⟩, ⟨pos + 4, k + 1⟩] ++
        if bsize = 0 then [] else if v ≤ bsize then [⟨pos + 4 + k + 1, asSize v⟩] else []) ∧
      (v = s - 4 - k - 1 ∧ 0 ≤ v ∧ HasZero m pos s ∨ v = sizeWithoutZero s ∧ ¬HasZero m pos s) := by
  obtain ⟨-, hr, hsize, -⟩ := nvalFind_found hf
  obtain ⟨hs, -, hlt⟩ := hr
  obtain ⟨k, hk, hskip, hall⟩ : ∃ k ≤ (s - 4).toNat, skipName a m (pos + 4) (s - 4).toNat = (pos + 4 + k, (s - 4).toNat - k) ∧
      (k = (s - 4).toNat ↔ ∀ i < (s - 4).toNat, m (pos + 4 + i) ≠ 0) := by
    rcases le_or_gt 4 s with h4 | h4
    · exact skipName_spec _ _ (by omega)
    · exact ⟨0, Nat.zero_le _, by rw [Int.toNat_of_nonpos (by omega)]; rfl, iff_of_true (by omega) fun i hi => by omega⟩
  have hzero : HasZero m pos s ↔ k ≠ (s - 4).toNat := by
    rw [ne_eq, hall]
    push Not
    constructor
    · rintro ⟨i, h4, hi, hz⟩
      exact ⟨i - 4, by omega, by rwa [show pos + 4 + (i - 4) = pos + i by omega]⟩
    · rintro ⟨i, hi, hz⟩
      exact ⟨i + 4, by omega, by omega, by rwa [show pos + (i + 4) = pos + 4 + i by omega]⟩
  refine ⟨k, (if s < 4 then s - 4 else ((s - 4).toNat - k : ℕ)) - 1, by omega, ?_, ?_, ?_⟩
  · unfold nvalGetSize
    rw [hf]
    dsimp only
    rw [if_pos (by omega), hsize, hskip]
  · unfold nvalGetReads
    rw [hf]
    dsimp only
    rw [if_pos (by omega), hsize, hskip]
    dsimp only
    rw [show pos + 4 + k - (pos + 4) + 1 = k + 1 by omega]
  · rw [hzero]
    unfold sizeWithoutZero
    split_ifs <;> omega

/-- `nval_get` reads inside the area and returns a size of a value in it when the name of what it finds
is right. -/
theorem nvalGet_inside (h : 4 ≤ a.size) (hmeets : ∀ pos s, FindMeets a m name pos s → ComparedInside a m name pos s) :
    (AllInside a (nvalGetReads a m name bsize) ∧
      ∀ size, nvalGetSize a m name bsize = .ok size → 0 ≤ size ∧ size ≤ a.size) ↔
    ∀ pos s, nvalFind a m name = some (pos, s) → ValueInside m bsize pos s := by
  have hfind := (nvalFindReads_inside h).mpr hmeets
  have hsize := a.size_lt
  cases hf : nvalFind a m name with
  | none =>
    refine iff_of_true ⟨?_, ?_⟩ (by simp)
    · simp only [nvalGetReads, hf, List.append_nil]
      exact hfind
    · simp [nvalGetSize, hf]
  | some r =>
    obtain ⟨pos, s⟩ := r
    obtain ⟨hmeet, hr, -, -⟩ := nvalFind_found hf
    obtain ⟨hs, -, hlt⟩ := hr
    have hpos : pos + 4 < a.size := by
      rcases hmeets pos s hmeet with h1 | ⟨i, hi, h1, -⟩ <;> omega
    obtain ⟨k, v, hk, hget, hreads, hv⟩ := getSize_eq hf hpos
    rw [hget, hreads]
    simp only [allInside_append, allInside_cons, allInside_nil, and_true, hfind, true_and]
    have h1 : Span.Inside a.size ⟨pos, 4⟩ := Span.inside_of_le (by omega)
    have h2 : Span.Inside a.size ⟨pos + 4, k + 1⟩ := Span.inside_of_le (by omega)
    simp only [h1, h2, true_and]
    constructor
    · rintro ⟨hcopy, hret⟩ pos' s' heq
      obtain ⟨rfl, rfl⟩ := Prod.mk.inj (Option.some.inj heq)
      refine hv.imp (fun hv => hv.2.2) fun hv => ?_
      rw [← hv.1]
      by_contra! hle
      have hneg : v < 0 := by
        rw [hv.1]
        unfold sizeWithoutZero
        omega
      rw [if_pos hle, ite_self] at hret
      have := (hret v rfl).1
      omega
    · intro hall
      rcases hv with ⟨hval, h0, -⟩ | ⟨hval, hno⟩
      · have h3 : Span.Inside a.size ⟨pos + 4 + k + 1, asSize v⟩ := by
          rw [asSize_of_nonneg h0 (by omega)]
          exact Span.inside_of_le (by omega)
        refine ⟨?_, fun size hret => ?_⟩
        · split_ifs <;> simp [h3]
        · obtain rfl : v = size := by
            split_ifs at hret <;> exact Except.ok.inj hret
          omega
      · have hlt : bsize < v := hval ▸ (hall pos s rfl).resolve_left hno
        have hneg : v < 0 := by
          rw [hval]
          unfold sizeWithoutZero
          omega
        rw [if_neg (by omega), if_neg (by omega), if_neg (by omega), if_neg (by omega)]
        exact ⟨allInside_nil, by simp⟩

/-! ## Any content -/

/-- The calls on an area, whatever is in it : they end, read inside the area, and what they return is a
size in it. -/
structure CallsSafe (a : AttrArea) (m : Mem) (name : List UInt8) (bsize valueSize : ℤ) (create replace : Bool) :
    Prop where
  ends : ∀ n, a.size ≤ n → nvalFindLoop a m name n 0 (s32At a m 0) = nvalFind a m name ∧
    nvalUsedLoop a m n 0 (s32At a m 0) = nvalUsed a m ∧
      ∀ k, nvalListLoop a m k n 0 (s32At a m 0) [] = nvalList a m k
  get : AllInside a (nvalGetReads a m name bsize)
  list : AllInside a (nvalListReads a m bsize)
  del : AllInside a (nvalDelReads a m name)
  set : AllInside a (nvalSetReads a m name valueSize create replace)
  getSize : ∀ size, nvalGetSize a m name bsize = .ok size → 0 ≤ size ∧ size ≤ a.size
  listSize : (nvalList a m bsize.toNat).length ≤ a.size

/-- The calls are safe when every record that is met is compared inside the area, and the name of the
record that is found ends in it. -/
theorem callsSafe_iff {valueSize : ℤ} (h : 4 ≤ a.size) :
    CallsSafe a m name bsize valueSize create replace ↔
      (∀ pos s, FindMeets a m name pos s → ComparedInside a m name pos s) ∧
        ∀ pos s, nvalFind a m name = some (pos, s) → ValueInside m bsize pos s := by
  constructor
  · intro hs
    have hmeets := (nvalFindReads_inside h).mp ((nvalDelReads_inside h).mp hs.del)
    exact ⟨hmeets, (nvalGet_inside h hmeets).mp ⟨hs.get, hs.getSize⟩⟩
  · rintro ⟨hmeets, hvalue⟩
    have hfind := (nvalFindReads_inside h).mpr hmeets
    obtain ⟨hget, hsize⟩ := (nvalGet_inside h hmeets).mpr hvalue
    exact ⟨fun n => walks_end, hget, nvalListReads_inside h, (nvalDelReads_inside h).mpr hfind,
      (nvalSetReads_inside h).mpr hfind, hsize, nvalList_length _⟩

/-- A record without a zero, and a name that agrees with it. -/
def badMem : Mem :=
  store (fun _ => 97) 0 [8, 0, 0, 0]

/-- An area of 16 bytes. -/
def smallArea : XattrArea where
  size := 16
  bigEndian := false
  size_ok := by decide
  size_lt := by decide

/-- For a record without a zero `nval_get` returns the size -1. -/
theorem badMem_unsafe : ¬∀ (a : AttrArea) (m : Mem) (name : List UInt8) (bsize valueSize : ℤ) (create replace : Bool),
    4 ≤ a.size → CallsSafe a m name bsize valueSize create replace := by
  intro h
  have hget := (h smallArea badMem (List.replicate 8 97) 0 0 false false (by decide)).getSize (-1) (by decide)
  exact absurd hget.1 (by decide)

/-- A record of a name and two bytes. -/
def goodMem : Mem :=
  store (fun _ => 0) 0 [8, 0, 0, 0, 97, 0, 7, 7]

theorem goodMem_safe : CallsSafe smallArea goodMem [97] 4 2 false false := by
  refine (callsSafe_iff (by decide)).mpr ⟨fun pos s hm => ?_, fun pos s hf => ?_⟩
  · cases hm with
    | here => exact Or.inl (by decide)
    | later _ hne => exact absurd hne (by decide)
  · obtain ⟨rfl, rfl⟩ : 0 = pos ∧ (8 : ℤ) = s :=
      Prod.mk.inj (Option.some.inj ((show nvalFind smallArea goodMem [97] = some (0, 8) by decide).symm.trans hf))
    exact Or.inl ⟨5, by decide, by decide, by decide⟩

/-! ## Writes inside the area -/

theorem nvalDelWrites_inside : AllInside a (nvalDelWrites a m name) := by
  unfold nvalDelWrites
  split
  · exact allInside_nil
  · rename_i pos s hf
    obtain ⟨-, hr, hsize, -⟩ := nvalFind_found hf
    obtain ⟨hlo, hhi⟩ := hr.le_next
    obtain ⟨hs, hlt, -⟩ := hr
    have hbound := a.size_lt
    rw [hsize]
    split_ifs
    · exact allInside_nil
    · dsimp only
      rw [asSize_of_nonneg (by omega) (by omega), asSize_of_nonneg (by omega) (by omega)]
      exact allInside_cons.mpr ⟨Span.inside_of_le (by omega), allInside_cons.mpr ⟨Span.inside_of_le (by omega),
        allInside_nil⟩⟩

/-- What `nval_del` changes is in the spans it writes. -/
theorem nvalDel_frame {i : ℕ} (h : ∀ sp ∈ nvalDelWrites a m name, i < sp.start ∨ sp.start + sp.len ≤ i) :
    (nvalDel a m name).1 i = m i := by
  unfold nvalDelWrites at h
  unfold nvalDel
  cases hf : nvalFind a m name with
  | none => rfl
  | some r =>
    obtain ⟨pos, s⟩ := r
    obtain ⟨-, hr, hsize, -⟩ := nvalFind_found hf
    obtain ⟨hlo, hhi⟩ := hr.le_next
    obtain ⟨hs, hlt, -⟩ := hr
    have hbound := a.size_lt
    rw [hf] at h
    dsimp only at h ⊢
    rw [hsize] at h ⊢
    rw [if_neg (by omega)] at h ⊢
    rw [asSize_of_nonneg (by omega) (by omega), asSize_of_nonneg (by omega) (by omega)] at h
    simp only [List.mem_cons, List.not_mem_nil, or_false, forall_eq_or_imp, forall_eq] at h
    obtain ⟨h1, h2⟩ := h
    simp only [clear, moveDown]
    rw [if_neg (by omega), if_neg (by omega)]

theorem store_outside {q : ℕ} {bs : List UInt8} {l : ℕ} (hl : bs.length ≤ l) (h : q < p ∨ p + l ≤ q) :
    store m p bs q = m q := by
  rcases h with h | h
  · exact store_of_lt h
  · exact store_of_ge (by omega)

/-- What `nval_set` changes is in the spans it writes. -/
theorem nvalSet_frame {i : ℕ} (hv : value.length < 2 ^ 31)
    (h : ∀ sp ∈ nvalSetWrites a m name value.length create replace, i < sp.start ∨ sp.start + sp.len ≤ i) :
    (nvalSet a m name value create replace).1 i = m i := by
  have hbound := a.size_lt
  rw [nvalSet_eq_result]
  unfold nvalSetWrites at h
  cases hres : nvalSetResult a m name value.length create replace with
  | error er => rfl
  | ok u =>
    rw [hres] at h
    dsimp only at h ⊢
    simp only [List.mem_append, List.mem_cons, List.not_mem_nil, or_false, or_imp, forall_and, forall_eq] at h
    obtain ⟨hdel, h1, h2, h3⟩ := h
    have hpad : (strncpyBytes name (recordLength a name value.length).toNat).length ≤
        asSize (recordLength a name value.length) := by
      have hlen : (strncpyBytes name (recordLength a name value.length).toNat).length =
          (recordLength a name value.length).toNat := by
        simp only [strncpyBytes, List.length_append, List.length_take, List.length_replicate]
        omega
      rw [hlen]
      rcases lt_or_ge (recordLength a name value.length) 0 with hneg | hpos
      · omega
      · have hlt : recordLength a name value.length < 2 ^ 64 := by
          unfold recordLength toS32
          split_ifs <;> omega
        exact (asSize_of_nonneg hpos hlt).ge
    have hval : value.length ≤ asSize value.length := by
      rw [asSize_of_nonneg (by omega) (by omega), Int.toNat_natCast]
    unfold nvalWrite
    rw [store_outside hval h3, store_outside hpad h2, store_outside (s32Bytes_length _ _).le h1]
    unfold withoutRecord
    split_ifs
    · exact nvalDel_frame hdel
    · rfl

/-- The flags forbid the call : the name exists, or it does not. -/
def FlagsForbid (a : AttrArea) (m : Mem) (name : List UInt8) (create replace : Bool) : Prop :=
  create = true ∧ (nvalFind a m name).isSome = true ∨ replace = true ∧ (nvalFind a m name).isNone = true

instance : Decidable (FlagsForbid a m name create replace) :=
  inferInstanceAs (Decidable (_ ∨ _))

/-- The test of `nval_set` for the length of the record, as an `s32`. -/
def Refused (a : AttrArea) (m : Mem) (name : List UInt8) (bsize : ℤ) : Prop :=
  (a.size : ℤ) - nvalUsed a m + ((nvalFind a m name).map Prod.snd).getD 0 < recordLength a name bsize

/-- The record fits in what the other records leave, with `spare` bytes more. -/
def FitsWith (a : AttrArea) (m : Mem) (name : List UInt8) (bsize : ℤ) (spare : ℕ) : Prop :=
  (nvalUsed a (withoutRecord a m name) : ℤ) + (4 + name.length + 1 + bsize) + spare ≤ a.size

instance : Decidable (Refused a m name bsize) :=
  inferInstanceAs (Decidable (_ < _))

instance (spare : ℕ) : Decidable (FitsWith a m name bsize spare) :=
  inferInstanceAs (Decidable (_ ≤ _))

/-- `nval_set` and `nval_del` write inside the area, and a record that does not fit is refused. -/
structure WritesInside (a : AttrArea) (m : Mem) (name : List UInt8) (bsize : ℤ) (create replace : Bool) : Prop where
  del : AllInside a (nvalDelWrites a m name)
  set : AllInside a (nvalSetWrites a m name bsize create replace)
  noSpace : ¬FitsWith a m name bsize 0 → nvalSetResult a m name bsize create replace = .error .noSpc

theorem nvalSetResult_cases : nvalSetResult a m name bsize create replace ≠ .error .noSpc ∧
      nvalSetWrites a m name bsize create replace = [] ∧ FlagsForbid a m name create replace ∨
    nvalSetResult a m name bsize create replace = .error .noSpc ∧
      nvalSetWrites a m name bsize create replace = [] ∧ ¬FlagsForbid a m name create replace ∧ Refused a m name bsize ∨
    nvalSetResult a m name bsize create replace = .ok () ∧ ¬FlagsForbid a m name create replace ∧
      ¬Refused a m name bsize := by
  unfold nvalSetWrites nvalSetResult FlagsForbid Refused
  dsimp only
  split_ifs with h1 h2 h3
  · exact .inl ⟨by simp, rfl, .inl h1⟩
  · exact .inl ⟨by simp, rfl, .inr h2⟩
  · exact .inr (.inl ⟨rfl, rfl, not_or.mpr ⟨h1, h2⟩, h3⟩)
  · exact .inr (.inr ⟨rfl, not_or.mpr ⟨h1, h2⟩, h3⟩)

/-- The length of a record as it is padded, and as the size of the value is added to it. -/
theorem recordLength_eq (h0 : 0 ≤ bsize) (hhi : bsize < 2 ^ 31) :
    recordLength a name bsize = 4 + (min name.length a.size : ℕ) + 1 + bsize ∨
      recordLength a name bsize < 0 ∧ -2 ^ 31 ≤ recordLength a name bsize ∧
        2 ^ 31 ≤ 4 + (min name.length a.size : ℕ) + 1 + bsize := by
  have hbound := a.size_lt
  unfold recordLength
  rw [asSize_of_nonneg (by omega) (by omega)]
  unfold toS32
  split_ifs <;> omega

/-- A record that is written lies inside the area with its padding when four more bytes fit. -/
theorem setWrites_inside (hlo : -2 ^ 31 ≤ bsize) (hhi : bsize < 2 ^ 31)
    (hok : nvalSetResult a m name bsize create replace = .ok ()) :
    AllInside a (nvalSetWrites a m name bsize create replace) ↔ 0 ≤ bsize ∧ FitsWith a m name bsize 4 := by
  have hbound := a.size_lt
  unfold nvalSetWrites FitsWith
  rw [hok]
  dsimp only
  rw [allInside_append, and_iff_right nvalDelWrites_inside]
  generalize nvalUsed a (withoutRecord a m name) = start
  simp only [allInside_cons, allInside_nil, and_true]
  rw [Span.inside_iff, Span.inside_iff, Span.inside_iff]
  dsimp only
  rcases lt_or_ge bsize 0 with hneg | h0
  · have := le_asSize_of_neg hneg (by omega)
    constructor <;> intro h <;> omega
  rw [asSize_of_nonneg h0 (by omega)]
  rcases recordLength_eq (a := a) h0 hhi with hlen | ⟨hlen, hlow, hover⟩
  · rw [hlen, asSize_of_nonneg (by omega) (by omega)]
    constructor <;> intro h <;> omega
  · have := le_asSize_of_neg hlen (by omega)
    constructor <;> intro h <;> omega

/-- `nval_set` and `nval_del` keep to the area, and refuse what does not fit, exactly when : the flags
forbid a call for a record that would fit, or they do not and the test refuses the record, or the size
of the value is not negative and the record fits with four bytes to spare. -/
theorem writesInside_iff (hlo : -2 ^ 31 ≤ bsize) (hhi : bsize < 2 ^ 31) :
    WritesInside a m name bsize create replace ↔
      if FlagsForbid a m name create replace then FitsWith a m name bsize 0
      else Refused a m name bsize ∨ 0 ≤ bsize ∧ FitsWith a m name bsize 4 := by
  rcases nvalSetResult_cases (a := a) (m := m)
    with ⟨hres, hnil, hflag⟩ | ⟨hres, hnil, hflag, href⟩ | ⟨hok, hflag, href⟩
  · rw [if_pos hflag]
    constructor
    · intro h
      by_contra hfit
      exact hres (h.noSpace hfit)
    · exact fun h => ⟨nvalDelWrites_inside, hnil ▸ allInside_nil, fun hno => absurd h hno⟩
  · rw [if_neg hflag]
    exact iff_of_true ⟨nvalDelWrites_inside, hnil ▸ allInside_nil, fun _ => hres⟩ (.inl href)
  · rw [if_neg hflag, or_iff_right href, ← setWrites_inside hlo hhi hok]
    refine ⟨WritesInside.set, fun h => ⟨nvalDelWrites_inside, h, fun hno => absurd ?_ hno⟩⟩
    have hfit := ((setWrites_inside hlo hhi hok).mp h).2
    unfold FitsWith at hfit ⊢
    omega

/-- A value of ten bytes fills the area of 16 bytes, and the padding of its name ends four bytes behind
it. -/
theorem smallArea_overrun : ¬∀ (a : XattrArea) (m : Mem), Blank a m → ∀ (name : List UInt8) (bsize : ℤ)
    (create replace : Bool), -2 ^ 31 ≤ bsize → bsize < 2 ^ 31 → WritesInside a m name bsize create replace := by
  intro h
  have hset := (h smallArea (fun _ => 0) (Or.inl fun _ _ => rfl) [97] 10 false false (by decide) (by decide)).set
  exact absurd (hset ⟨4, 16⟩ (by decide) 12 (by decide)) (by decide)

theorem smallArea_fits : WritesInside smallArea (fun _ => 0) [97] 6 false false :=
  (writesInside_iff (by decide) (by decide)).mpr (Or.inr ⟨by decide, by decide⟩)

end Yaffs
