import Yaffs.Path
import Yaffs.StoredName
import Mathlib.Data.List.DropRight

/-!
# Paths as texts

`yaffsfs_FindDevice` walks a device name and a path side by side and takes the device with
the longest match. The two strings are compared here as lists of components, in which
repeated, leading and trailing dividers do not show.

`yaffsfs_alt_dir_path` takes the dividers off the end of a path, in a copy. The copy has room
for 769 characters, while `yaffsfs_CheckPath` bounds the parts of a path and their number.
-/

namespace Yaffs

/-! ## Components -/

/-- The components of a path. -/
def components (s : Name) : List Name :=
  (s.splitOnP isPathDivider).filter (!·.isEmpty)

/-- The text a string starts with. -/
def headText (s : Name) : Name :=
  s.takeWhile fun c => !isPathDivider c

/-- What follows the text a string starts with. -/
def skipText (s : Name) : Name :=
  s.dropWhile fun c => !isPathDivider c

@[simp] theorem components_nil : components [] = [] := rfl

theorem components_divider {c : Char} {s : Name} (hc : isPathDivider c = true) :
    components (c :: s) = components s := by
  unfold components
  rw [List.splitOnP_cons_eq_if_modifyHead, if_pos hc]
  rfl

@[simp] theorem components_skipDividers (s : Name) : components (skipDividers s) = components s := by
  unfold skipDividers
  induction s with
  | nil => rfl
  | cons c s ih =>
    by_cases hc : isPathDivider c = true
    · rw [List.dropWhile_cons_of_pos hc, components_divider hc, ih]
    · rw [List.dropWhile_cons_of_neg hc]

theorem components_text {u s : Name} (hu : ∀ c ∈ u, isPathDivider c = false) (hne : u ≠ [])
    (hs : headText s = []) : components (u ++ s) = u :: components s := by
  have hu' : u.isEmpty = false := by simpa using hne
  cases s with
  | nil => simp [components, List.splitOnP_eq_singleton hu, hu']
  | cons c s =>
    have hc : isPathDivider c = true := by
      unfold headText at hs
      rw [List.takeWhile_eq_nil_iff] at hs
      simpa using hs (Nat.succ_pos _)
    rw [components_divider hc]
    simp [components, List.splitOnP_append_cons_of_forall_mem hu c hc, hu']

theorem headText_divider {s : Name} : ∀ c ∈ headText s, isPathDivider c = false := by
  intro c hc
  simpa using List.mem_takeWhile_imp hc

@[simp] theorem headText_skipText (s : Name) : headText (skipText s) = [] := by
  unfold headText skipText
  rw [List.takeWhile_eq_nil_iff]
  exact fun hlen => List.dropWhile_get_zero_not _ _ hlen

theorem headText_append {u s : Name} (hu : ∀ c ∈ u, isPathDivider c = false) :
    headText (u ++ s) = u ++ headText s := by
  unfold headText
  rw [List.takeWhile_append_of_pos]
  simpa using hu

theorem skipText_append {u s : Name} (hu : ∀ c ∈ u, isPathDivider c = false) :
    skipText (u ++ s) = skipText s := by
  unfold skipText
  rw [List.dropWhile_append_of_pos]
  simpa using hu

/-- A string that starts with text starts with its first component. -/
theorem components_headText {s : Name} (h : headText s ≠ []) :
    components s = headText s :: components (skipText s) := by
  rw [← components_text headText_divider h (headText_skipText s)]
  unfold headText skipText
  rw [List.takeWhile_append_dropWhile]

theorem components_ne_nil {s : Name} {u : Name} (h : u ∈ components s) : u ≠ [] := by
  have := (List.mem_filter.mp h).2
  simpa using this

/-- Prefixes of one list of components compare by the characters in them. -/
theorem length_le_of_flatten {a b l : List Name} (ha : a <+: l) (hb : b <+: l)
    (hl : ∀ u ∈ l, u ≠ []) (h : a.flatten.length ≤ b.flatten.length) : a.length ≤ b.length := by
  rcases List.prefix_or_prefix_of_prefix ha hb with hab | ⟨t, rfl⟩
  · exact hab.length_le
  · have ht : t.flatten = [] := by
      rw [List.flatten_append, List.length_append] at h
      exact List.eq_nil_of_length_eq_zero (by omega)
    cases t with
    | nil => simp
    | cons u t =>
      have := hl u (ha.subset (by simp))
      simp_all

/-! ## Matching a name -/

@[simp] theorem atText_iff (s : Name) : atText s = true ↔ headText s ≠ [] := by
  cases s with
  | nil => simp [atText, headText]
  | cons c s => by_cases hc : isPathDivider c = true <;> simp [atText, headText, hc]

/-- The inner loop takes text off both strings, up to a divider, an end or a difference. -/
theorem matchTextLoop_spec (p c : Name) (n : ℕ) :
    ∃ u, (∀ x ∈ u, isPathDivider x = false) ∧ p = u ++ (matchTextLoop p c n).1 ∧
      c = u ++ (matchTextLoop p c n).2.1 ∧ (matchTextLoop p c n).2.2.1 = n + u.length ∧
      if (matchTextLoop p c n).2.2.2 then
        headText (matchTextLoop p c n).1 = [] ∨ headText (matchTextLoop p c n).2.1 = []
      else ∃ a b s t, a ≠ b ∧ headText (matchTextLoop p c n).1 = a :: s ∧
        headText (matchTextLoop p c n).2.1 = b :: t := by
  fun_induction matchTextLoop p c n with
  | case1 p ps c cs n hdiv =>
    refine ⟨[], by simp, rfl, rfl, rfl, ?_⟩
    simp only [Bool.or_eq_true] at hdiv
    rcases hdiv with h | h <;> simp [headText, h]
  | case2 ps c cs n hdiv ih =>
    obtain ⟨u, hu, hp, hc, hn, hend⟩ := ih
    refine ⟨c :: u, ?_, congrArg (c :: ·) hp, congrArg (c :: ·) hc, ?_, hend⟩
    swap
    · rw [hn, List.length_cons]
      omega
    intro x hx
    rcases List.mem_cons.mp hx with rfl | hx
    · simpa using hdiv
    · exact hu x hx
  | case3 p ps c cs n hdiv hne =>
    simp only [Bool.or_eq_true, not_or, Bool.not_eq_true] at hdiv
    refine ⟨[], by simp, rfl, rfl, rfl, ?_⟩
    exact ⟨p, c, headText ps, headText cs, hne, by simp [headText, hdiv.1], by simp [headText, hdiv.2]⟩
  | case4 p c n h =>
    refine ⟨[], by simp, rfl, rfl, rfl, ?_⟩
    cases p with
    | nil => exact Or.inl rfl
    | cons a p =>
      cases c with
      | nil => exact Or.inr rfl
      | cons b c => exact (h a p b c rfl rfl).elim

theorem headText_skipDividers {s : Name} (h : headText (skipDividers s) = []) :
    skipDividers s = [] := by
  unfold skipDividers headText at *
  induction s with
  | nil => rfl
  | cons c s ih =>
    by_cases hc : isPathDivider c = true
    · rw [List.dropWhile_cons_of_pos hc] at h ⊢
      exact ih h
    · simp [hc] at h

theorem skipDividers_of_components {s : Name} (h : components s = []) : skipDividers s = [] := by
  by_contra hs
  have := components_headText fun ht => hs (headText_skipDividers ht)
  rw [components_skipDividers, h] at this
  exact List.cons_ne_nil _ _ this.symm

/-- What is left of the two strings, the length of the match and whether it goes on agree with
a comparison of the components. -/
structure Matched (p path : Name) (n : ℕ) (r : Name × Name × ℕ × Bool) : Prop where
  rest : r.2.1 <:+ path
  matched : r.2.2.2 = true → components r.1 = [] →
    components path = components p ++ components r.2.1 ∧
      r.2.2.1 = n + (components p).flatten.length
  differs : (r.2.2.2 = true → components r.1 ≠ []) → ¬components p <+: components path

@[simp] theorem skipDividers_skipDividers (s : Name) :
    skipDividers (skipDividers s) = skipDividers s := by
  unfold skipDividers
  rw [List.dropWhile_idempotent]

theorem skipDividers_suffix (s : Name) : skipDividers s <:+ s :=
  List.dropWhile_suffix _

theorem matchNameLoop_matched {fuel : ℕ} {p path : Name} {n : ℕ} (hf : p.length < fuel)
    (hp : skipDividers p = p) (hpath : skipDividers path = path) :
    Matched p path n (matchNameLoop fuel p path n) := by
  induction fuel generalizing p path n with
  | zero => omega
  | succ fuel ih =>
    rw [matchNameLoop]
    by_cases hend : (p.isEmpty || path.isEmpty) = true
    · rw [if_pos hend]
      simp only [Bool.or_eq_true, List.isEmpty_iff] at hend
      rcases hend with rfl | rfl
      · exact ⟨List.suffix_rfl, by simp, by simp⟩
      · refine ⟨List.suffix_rfl, fun _ h => by simp [h], fun h hpre => ?_⟩
        exact h rfl (List.prefix_nil.mp hpre)
    rw [if_neg hend]
    simp only [Bool.or_eq_true, List.isEmpty_iff, not_or] at hend
    obtain ⟨u, hu, hpu, hcu, hn, hstop⟩ := matchTextLoop_spec p path n
    generalize matchTextLoop p path n = r at *
    obtain ⟨p', path', n', ok⟩ := r
    simp only at hpu hcu hn hstop ⊢
    have hpt : headText p ≠ [] := fun h => hend.1 (by rw [← hp] at h ⊢; exact headText_skipDividers h)
    have hct : headText path ≠ [] :=
      fun h => hend.2 (by rw [← hpath] at h ⊢; exact headText_skipDividers h)
    have hp1 := components_headText hpt
    have hc1 := components_headText hct
    rw [hpu, headText_append hu, skipText_append hu, ← hpu] at hp1
    rw [hcu, headText_append hu, skipText_append hu, ← hcu] at hc1
    by_cases hgo : (!ok || atText p' || atText path') = true
    · rw [if_pos hgo]
      refine ⟨⟨u, hcu.symm⟩, by simp, fun _ hpre => ?_⟩
      rw [hp1, hc1, List.cons_prefix_cons] at hpre
      have heq := List.append_cancel_left hpre.1
      cases ok with
      | true => simp_all
      | false =>
        obtain ⟨a, b, s, t, hab, ha, hb⟩ := hstop
        rw [ha, hb, List.cons.injEq] at heq
        exact hab heq.1
    · rw [if_neg hgo]
      simp only [Bool.or_eq_true, not_or, atText_iff, not_not] at hgo
      rw [hgo.1.2, List.append_nil] at hp1
      rw [hgo.2, List.append_nil] at hc1
      have hune : u ≠ [] := by
        rintro rfl
        exact hpt (by rw [hpu, List.nil_append, hgo.1.2])
      have hlen : (skipDividers p').length < fuel := by
        have := (skipDividers_suffix p').length_le
        have := List.length_pos_iff.mpr hune
        rw [hpu, List.length_append] at hf
        omega
      have h := @ih (skipDividers p') (skipDividers path') n' hlen (by simp) (by simp)
      have hp2 : components p = u :: components (skipDividers p') := by
        rw [hpu, components_text hu hune hgo.1.2, components_skipDividers]
      have hc2 : components path = u :: components (skipDividers path') := by
        rw [hcu, components_text hu hune hgo.2, components_skipDividers]
      refine ⟨h.rest.trans ((skipDividers_suffix _).trans ⟨u, hcu.symm⟩), fun hok hend => ?_,
        fun hdiff hpre => ?_⟩
      · obtain ⟨hcomp, hlen⟩ := h.matched hok hend
        refine ⟨by rw [hc2, hp2, hcomp, List.cons_append], ?_⟩
        rw [hlen, hn, hp2, List.flatten_cons, List.length_append, Nat.add_assoc]
      · rw [hp2, hc2, List.cons_prefix_cons] at hpre
        exact h.differs hdiff hpre.2

/-- A device name matches a path by components. -/
theorem matchName_some {name path rest : Name} {n : ℕ} (h : matchName name path = some (rest, n)) :
    components path = components name ++ components rest ∧
      n = (components name).flatten.length ∧ rest <:+ path := by
  have hm := @matchNameLoop_matched _ (skipDividers name) (skipDividers path) 0
    (Nat.lt_succ_of_le (length_skipDividers_le name)) (by simp) (by simp)
  unfold matchName at h
  simp only [Option.ite_none_right_eq_some, Bool.and_eq_true, List.isEmpty_iff, Option.some.injEq,
    Prod.mk.injEq] at h
  obtain ⟨⟨hok, hend⟩, rfl, rfl⟩ := h
  obtain ⟨hcomp, hlen⟩ := hm.matched hok (by rw [← components_skipDividers, hend]; rfl)
  simp only [components_skipDividers, Nat.zero_add] at hcomp hlen ⊢
  exact ⟨hcomp, hlen, (skipDividers_suffix _).trans (hm.rest.trans (skipDividers_suffix _))⟩

theorem matchName_none {name path : Name} (h : matchName name path = none) :
    ¬components name <+: components path := by
  have hm := @matchNameLoop_matched _ (skipDividers name) (skipDividers path) 0
    (Nat.lt_succ_of_le (length_skipDividers_le name)) (by simp) (by simp)
  unfold matchName at h
  simp only [ite_eq_right_iff, reduceCtorEq, imp_false, Bool.and_eq_true, List.isEmpty_iff,
    not_and] at h
  simpa using hm.differs fun hok hend => h hok (skipDividers_of_components hend)

/-! ## The longest match -/

variable {fs : List MountedDev} {path : Name}

/-- A name of a device that the path starts with. -/
def MountedOver (m : MountedDev) (path name : Name) : Prop :=
  m.name = some name ∧ components name <+: components path

/-- The best device among those looked at. -/
def Best (l : List (MountedDev × ℕ)) (path : Name) : Option (ℕ × Name × ℕ) → Prop
  | none => ∀ m ∈ l, ∀ name, ¬MountedOver m.1 path name
  | some (i, rest, n) =>
    (∃ m ∈ l, m.2 = i ∧ ∃ name, m.1.name = some name ∧ matchName name path = some (rest, n)) ∧
      ∀ m ∈ l, ∀ name, MountedOver m.1 path name → (components name).flatten.length ≤ n

theorem matchName_of_mountedOver {m : MountedDev} {name : Name} (h : MountedOver m path name) :
    ∃ rest, matchName name path = some (rest, (components name).flatten.length) := by
  cases hm : matchName name path with
  | none => exact absurd h.2 (matchName_none hm)
  | some r =>
    obtain ⟨rest, n⟩ := r
    exact ⟨rest, by rw [(matchName_some hm).2.1]⟩

theorem best_step {l : List (MountedDev × ℕ)} {best : Option (ℕ × Name × ℕ)} (m : MountedDev × ℕ)
    (h : Best l path best) : Best (l ++ [m]) path (findDeviceStep path best m) := by
  unfold findDeviceStep
  cases hm : m.1.name.bind (matchName · path) with
  | none =>
    have hno : ∀ name, ¬MountedOver m.1 path name := by
      intro name hname
      obtain ⟨rest, hrest⟩ := matchName_of_mountedOver hname
      simp [hname.1, hrest] at hm
    cases best with
    | none =>
      intro m' hm'
      rcases List.mem_append.mp hm' with hm' | hm'
      · exact h m' hm'
      · rw [List.mem_singleton.mp hm']
        exact hno
    | some b =>
      obtain ⟨⟨m', hm', hb⟩, hmax⟩ := h
      refine ⟨⟨m', List.mem_append_left _ hm', hb⟩, fun m' hm' name hname => ?_⟩
      rcases List.mem_append.mp hm' with hm' | hm'
      · exact hmax m' hm' name hname
      · rw [List.mem_singleton.mp hm'] at hname
        exact absurd hname (hno name)
  | some r =>
    obtain ⟨rest, n⟩ := r
    obtain ⟨name, hname, hmatch⟩ := Option.bind_eq_some_iff.mp hm
    have hn := (matchName_some hmatch).2.1
    have hlast : ∀ name', MountedOver m.1 path name' → (components name').flatten.length ≤ n := by
      intro name' hname'
      rw [hname'.1] at hname
      rw [hn, Option.some.inj hname]
    dsimp only
    split_ifs with hlt
    · refine ⟨⟨m, by simp, rfl, name, hname, hmatch⟩, fun m' hm' name' hname' => ?_⟩
      rcases List.mem_append.mp hm' with hm' | hm'
      · cases best with
        | none => exact absurd hname' (h m' hm' name')
        | some b =>
          have hlt : b.2.2 < n := by simpa using hlt
          exact (h.2 m' hm' name' hname').trans hlt.le
      · rw [List.mem_singleton.mp hm'] at hname'
        exact hlast name' hname'
    · cases best with
      | none => exact absurd rfl hlt
      | some b =>
        obtain ⟨⟨m', hm', hb⟩, hmax⟩ := h
        have hle : n ≤ b.2.2 := by simpa using hlt
        refine ⟨⟨m', List.mem_append_left _ hm', hb⟩, fun m' hm' name' hname' => ?_⟩
        rcases List.mem_append.mp hm' with hm' | hm'
        · exact hmax m' hm' name' hname'
        · rw [List.mem_singleton.mp hm'] at hname'
          exact (hlast name' hname').trans hle

theorem best_foldl (l done : List (MountedDev × ℕ)) {best : Option (ℕ × Name × ℕ)}
    (h : Best done path best) : Best (done ++ l) path (l.foldl (findDeviceStep path) best) := by
  induction l generalizing done best with
  | nil => simpa using h
  | cons m l ih =>
    have := ih (done ++ [m]) (best_step m h)
    rwa [List.append_assoc] at this

/-- `yaffsfs_FindDevice` returns the device whose name is the longest to start the path, by
components, and what is left of the path ; it finds none when no name starts the path. -/
theorem findDevice_longest (fs : List MountedDev) (path : Name) :
    match findDevice fs path with
    | some (i, rest) => ∃ name, (fs[i]?).bind (·.name) = some name ∧
        components path = components name ++ components rest ∧ rest <:+ path ∧
          ∀ m ∈ fs, ∀ name', m.name = some name' → components name' <+: components path →
            (components name').length ≤ (components name).length
    | none => ∀ m ∈ fs, ∀ name, m.name = some name → ¬components name <+: components path := by
  have h := best_foldl fs.zipIdx [] (by simp [Best] : Best [] path none)
  unfold findDevice
  cases hb : fs.zipIdx.foldl (findDeviceStep path) none with
  | none =>
    rw [hb] at h
    intro m hm name hname hpre
    obtain ⟨i, hi, rfl⟩ := List.mem_iff_getElem.mp hm
    exact h (fs[i], i) (by simp [List.mem_zipIdx_iff_getElem?, hi]) name ⟨hname, hpre⟩
  | some b =>
    obtain ⟨i, rest, n⟩ := b
    rw [hb] at h
    obtain ⟨⟨m, hm, rfl, name, hname, hmatch⟩, hmax⟩ := h
    obtain ⟨hcomp, hn, hrest⟩ := matchName_some hmatch
    refine ⟨name, ?_, hcomp, hrest, fun m' hm' name' hname' hpre => ?_⟩
    · rw [List.nil_append, List.mem_zipIdx_iff_getElem?] at hm
      rw [hm, Option.bind_some, hname]
    · obtain ⟨i, hi, rfl⟩ := List.mem_iff_getElem.mp hm'
      have := hmax (fs[i], i) (by simp [List.mem_zipIdx_iff_getElem?, hi]) name' ⟨hname', hpre⟩
      rw [hn] at this
      exact length_le_of_flatten hpre ⟨_, hcomp.symm⟩ (fun u hu => components_ne_nil hu) this

/-! ## Trailing dividers -/

/-- The copy of a path : the bytes allocated, the `YCHAR`s written there and at which indices. What
is written behind the end of the block is kept as well. -/
structure PathCopy where
  size : ℕ
  cells : YName
  written : List ℕ

namespace NameMode

variable (m : NameMode)

/-- `yaffsfs_IsPathDivider`. -/
def isDivider (w : ℕ) : Bool :=
  w = '/'.toNat

/-- The loop of `yaffsfs_alt_dir_path`, from the index below `i` downwards. -/
def trimLoop : ℕ → PathCopy → PathCopy
  | 0, b => b
  | i + 1, b =>
    if (b.cells[i]?).any isDivider then
      trimLoop i { b with cells := b.cells.set i 0, written := b.written ++ [i] }
    else b

/-- `yaffs_strcpy` into a block of `size` bytes. -/
def strcpyPath (size : ℕ) (path : YName) : PathCopy :=
  { size := size, cells := path ++ [0], written := List.range (path.length + 1) }

/-- The bound on a path, `(YAFFS_MAX_NAME_LENGTH + 1) * 3 + 1`. -/
def pathBound : ℕ :=
  (m.maxNameLength + 1) * 3 + 1

/-- `yaffsfs_alt_dir_path`, when `kmalloc` succeeds or fails : `none` is the result -1, and without a
copy `*ret_path` is null. -/
def altDirPath (kmalloc : Bool) (path : YName) : Option (Option PathCopy) :=
  let pathLength := min path.length m.pathBound
  if 0 < pathLength ∧ (path[pathLength - 1]?).any isDivider then
    if kmalloc then some (some (trimLoop pathLength (strcpyPath (pathLength + 1) path))) else none
  else some none

/-- The path ends in a divider. -/
def EndsInDivider (path : YName) : Prop :=
  path.getLast?.any isDivider = true

/-- The `YCHAR`s written are in the block. -/
def CopyFits (b : PathCopy) : Prop :=
  ∀ i ∈ b.written, m.unitSize * (i + 1) ≤ b.size

/-- The path has no dividers at its end, or a copy without them is made inside its block. -/
def Trims (kmalloc : Bool) (path : YName) : Prop :=
  match m.altDirPath kmalloc path with
  | none => kmalloc = false
  | some none => ¬EndsInDivider path
  | some (some b) => m.CopyFits b ∧
      ∃ k, b.cells = path.rdropWhile isDivider ++ List.replicate (k + 1) 0

/-- Below the loop, the cells are those of the path without the dividers at its end. -/
theorem trimLoop_cells (path : YName) (k : ℕ) (b : PathCopy)
    (hb : b.cells = path ++ List.replicate (k + 1) 0) :
    ∃ k, (trimLoop path.length b).cells = path.rdropWhile isDivider ++ List.replicate (k + 1) 0 := by
  induction path using List.reverseRecOn generalizing k b with
  | nil => exact ⟨k, hb⟩
  | append_singleton path w ih =>
    rw [List.length_append, List.length_singleton, trimLoop]
    by_cases hw : isDivider w = true
    · rw [if_pos (by simp [hb, hw]), List.rdropWhile_concat_pos _ _ _ hw]
      refine ih (k + 1) _ ?_
      simp [hb, List.replicate_succ]
    · rw [if_neg (by simp [hb, hw]), List.rdropWhile_concat_neg _ _ _ hw]
      exact ⟨k, hb⟩

theorem trimLoop_written (n : ℕ) (b : PathCopy) {i : ℕ} (h : i ∈ (trimLoop n b).written) :
    i ∈ b.written ∨ i < n := by
  induction n generalizing b with
  | zero => exact Or.inl h
  | succ n ih =>
    rw [trimLoop] at h
    split_ifs at h with hd
    · rcases ih _ h with h | h
      · rcases List.mem_append.mp h with h | h
        · exact Or.inl h
        · right
          rw [List.mem_singleton.mp h]
          omega
      · omega
    · exact Or.inl h

theorem written_trimLoop (n : ℕ) (b : PathCopy) : b.written ⊆ (trimLoop n b).written := by
  induction n generalizing b with
  | zero => exact List.Subset.refl _
  | succ n ih =>
    rw [trimLoop]
    split_ifs with hd
    · exact fun i hi => ih _ (List.mem_append_left _ hi)
    · exact List.Subset.refl _

@[simp] theorem trimLoop_size (n : ℕ) (b : PathCopy) : (trimLoop n b).size = b.size := by
  induction n generalizing b with
  | zero => rfl
  | succ n ih =>
    rw [trimLoop]
    split_ifs with hd
    · exact ih _
    · rfl

variable {m} {path : YName}

/-- The copy needs room for the path and a zero. -/
theorem copyFits_iff {n size : ℕ} (hn : n ≤ path.length) :
    m.CopyFits (trimLoop n (strcpyPath size path)) ↔ m.unitSize * (path.length + 1) ≤ size := by
  constructor
  · intro h
    have := h path.length (written_trimLoop n _ (by simp [strcpyPath]))
    rwa [trimLoop_size] at this
  · intro h i hi
    have hle : i ≤ path.length := by
      rcases trimLoop_written n _ hi with hi | hi
      · have : i < path.length + 1 := by simpa [strcpyPath] using hi
        omega
      · omega
    rw [trimLoop_size]
    exact (Nat.mul_le_mul_left _ (by omega)).trans h

theorem unitSize_le_iff (n : ℕ) : m.unitSize * (n + 1) ≤ n + 1 ↔ m.unicode = false := by
  unfold unitSize
  cases m.unicode <;> simp

theorem endsInDivider_iff : EndsInDivider path ↔ (path[path.length - 1]?).any isDivider = true := by
  rw [EndsInDivider, List.getLast?_eq_getElem?]

/-- No copy is made of a path without a divider at the bound or at its end. -/
theorem trims_of_text {kmalloc : Bool}
    (hdiv : (path[min path.length m.pathBound - 1]?).any isDivider = false) :
    m.Trims kmalloc path ↔ ¬EndsInDivider path := by
  unfold Trims altDirPath
  rw [if_neg (by simp [hdiv])]

/-- The copy of a path that keeps to the bound. -/
theorem trims_of_divider (hlen : path.length ≤ m.pathBound) (h : EndsInDivider path) :
    (∀ kmalloc, m.Trims kmalloc path) ↔ m.unicode = false := by
  have hmin : min path.length m.pathBound = path.length := min_eq_left hlen
  have hpos : 0 < path.length := by
    cases path with
    | nil => simp [EndsInDivider] at h
    | cons w path => exact Nat.succ_pos _
  obtain ⟨k, hcells⟩ := trimLoop_cells path 0 (strcpyPath (path.length + 1) path) rfl
  unfold Trims altDirPath
  simp only [hmin, hpos, endsInDivider_iff.mp h, true_and, if_true]
  constructor
  · intro h
    exact (unitSize_le_iff _).mp ((copyFits_iff le_rfl).mp (h true).1)
  · intro hm kmalloc
    cases kmalloc with
    | false => rfl
    | true => exact ⟨(copyFits_iff le_rfl).mpr ((unitSize_le_iff _).mpr hm), k, hcells⟩

/-- A path longer than the bound, with a divider at the bound, does not fit its copy. -/
theorem not_trims (hlen : m.pathBound < path.length)
    (hdiv : (path[m.pathBound - 1]?).any isDivider = true) : ¬m.Trims true path := by
  have hmin : min path.length m.pathBound = m.pathBound := min_eq_right hlen.le
  have hpos : 0 < m.pathBound := Nat.succ_pos _
  unfold Trims altDirPath
  simp only [hmin, hpos, hdiv, true_and, if_true]
  rintro ⟨hin, -⟩
  have hin := (copyFits_iff hlen.le).mp hin
  have : 1 ≤ m.unitSize := by
    unfold unitSize
    split_ifs <;> omega
  have := Nat.le_mul_of_pos_left (path.length + 1) this
  omega

/-- Trimming is right when the path keeps to the bound, or has no divider at the bound nor at
its end ; with `YCHAR`s of 16 bits, the path must not end in a divider at all. -/
theorem trims_iff (m : NameMode) (path : YName) :
    (∀ kmalloc, m.Trims kmalloc path) ↔
      (path.length ≤ m.pathBound ∨
        (path[m.pathBound - 1]?).any isDivider = false ∧ ¬EndsInDivider path) ∧
      (m.unicode = false ∨ ¬EndsInDivider path) := by
  by_cases hlong : m.pathBound < path.length
  · cases hdiv : (path[m.pathBound - 1]?).any isDivider with
    | true =>
      refine iff_of_false (fun h => not_trims hlong hdiv (h true)) ?_
      rintro ⟨h | ⟨h, -⟩, -⟩
      · omega
      · exact Bool.noConfusion h
    | false =>
      have hmin : min path.length m.pathBound = m.pathBound := min_eq_right hlong.le
      simp only [trims_of_text (m := m) (by rw [hmin, hdiv])]
      exact ⟨fun h => ⟨Or.inr ⟨trivial, h true⟩, Or.inr (h true)⟩,
        fun h _ => h.1.elim (by omega) And.right⟩
  · have hlen : path.length ≤ m.pathBound := by omega
    by_cases hends : EndsInDivider path
    · rw [trims_of_divider hlen hends]
      exact ⟨fun h => ⟨Or.inl hlen, Or.inl h⟩, fun h => h.2.resolve_right (not_not_intro hends)⟩
    · have hdiv : (path[min path.length m.pathBound - 1]?).any isDivider = false := by
        rw [min_eq_left hlen]
        simpa [endsInDivider_iff] using hends
      simp only [trims_of_text hdiv]
      exact ⟨fun _ => ⟨Or.inl hlen, Or.inr hends⟩, fun _ _ => hends⟩

/-- A path of 770 characters in four parts, with a divider at the bound. -/
def longPath : YName :=
  (List.replicate 3 (List.replicate 254 'a'.toNat ++ ['/'.toNat])).flatten ++ "aaa/b".toList.map Char.toNat

set_option maxRecDepth 4000 in
theorem not_trims_longPath : ¬∀ (m : NameMode) (path : YName), m.checkPath path = true →
    ∀ kmalloc, m.Trims kmalloc path := by
  intro h
  let m : NameMode := ⟨false, false, false, false⟩
  have hpath : m.checkPath longPath = true := by decide +kernel
  have hlen : m.pathBound < longPath.length := by decide +kernel
  have hdiv : (longPath[m.pathBound - 1]?).any isDivider = true := by decide +kernel
  exact not_trims hlen hdiv (h m longPath hpath true)

end NameMode

end Yaffs
