import Yaffs.Mount
import Yaffs.Run
import Yaffs.Ties

/-!
# Hanging objects

`yaffs_fix_hanging_objs` follows the parents of an object at most `101` steps up, and moves the object
to lost+found when it does not come to the root; the objects are looked at in the order of the hash
table, and the moves of those before count. An object is `Anchored` when nothing about it calls for a
move, and `fixHangingObjs_exact` says which objects move, that the others stay, and that afterwards
every object comes to one of the directories without a parent.
-/

namespace Yaffs

/-! ## Chains of a partial map -/

section Chain

variable {α : Type*} {f f' : α → Option α} {n k j : ℕ} {o q r l : α}

/-- The element `k` steps behind `o`. -/
def chain (f : α → Option α) : ℕ → α → Option α
  | 0, o => some o
  | k + 1, o => (f o).bind (chain f k)

/-- The element `r` is at most `n` steps behind `o`. -/
def Within (f : α → Option α) (n : ℕ) (o r : α) : Prop :=
  ∃ k ≤ n, chain f k o = some r

theorem chain_succ (h : f o = some q) : chain f (k + 1) o = chain f k q := by
  simp [chain, h]

theorem within_self : Within f n o o :=
  ⟨0, Nat.zero_le n, rfl⟩

theorem Within.mono (h : Within f k o r) (hk : k ≤ n) : Within f n o r :=
  let ⟨j, hj, hr⟩ := h
  ⟨j, hj.trans hk, hr⟩

theorem Within.step (hq : f o = some q) (h : Within f n q r) : Within f (n + 1) o r :=
  let ⟨j, hj, hr⟩ := h
  ⟨j + 1, by omega, (chain_succ hq).trans hr⟩

theorem within_zero : Within f 0 o r ↔ o = r := by
  constructor
  · rintro ⟨k, hk, hr⟩
    obtain rfl : k = 0 := by omega
    exact Option.some.inj hr
  · rintro rfl
    exact within_self

theorem within_succ : Within f (n + 1) o r ↔ o = r ∨ ∃ q, f o = some q ∧ Within f n q r := by
  constructor
  · rintro ⟨k, hk, hr⟩
    cases k with
    | zero => exact Or.inl (Option.some.inj hr)
    | succ k =>
      obtain ⟨q, hq, hrest⟩ := Option.bind_eq_some_iff.mp hr
      exact Or.inr ⟨q, hq, k, by omega, hrest⟩
  · rintro (rfl | ⟨q, hq, h⟩)
    · exact within_self
    · exact h.step hq

/-- Two maps that agree along the chain of one have the same chain. -/
theorem chain_congr (h : ∀ i < k, ∀ q, chain f i o = some q → f' q = f q) : chain f' k o = chain f k o := by
  induction k generalizing o with
  | zero => rfl
  | succ k ih =>
    have ho : f' o = f o := h 0 (Nat.succ_pos k) o rfl
    cases hq : f o with
    | none => simp [chain, ho, hq]
    | some p =>
      rw [chain_succ (ho.trans hq), chain_succ hq]
      exact ih fun i hi q hc => h (i + 1) (by omega) q ((chain_succ hq).trans hc)

variable {S : α → Prop}

/-- Elements that do not come to `r` are led to `l` instead, which is one step before `r` : an element
then comes to `r` when it did, or when it comes to one of these early enough. -/
theorem within_redirect (hS : ∀ q, S q → f' q = some l) (hn : ∀ q, ¬S q → f' q = f q)
    (hl : f' l = some r) (hlr : l ≠ r) (hbad : ∀ q, S q → ¬Within f n q r) (hk : k ≤ n) :
    Within f' k o r ↔ Within f k o r ∨ ∃ j, j + 2 ≤ k ∧ ∃ q, S q ∧ Within f j o q := by
  induction k generalizing o with
  | zero =>
    rw [within_zero, within_zero]
    exact ⟨Or.inl, fun h => h.resolve_right fun ⟨j, hj, _⟩ => by omega⟩
  | succ k ih =>
    by_cases ho : S o
    · refine ⟨fun h => ?_, fun h => ?_⟩
      · rcases within_succ.mp h with rfl | ⟨q, hq, hrest⟩
        · exact Or.inl within_self
        · obtain rfl : l = q := Option.some.inj ((hS o ho).symm.trans hq)
          cases k with
          | zero => exact absurd (within_zero.mp hrest) hlr
          | succ k => exact Or.inr ⟨0, by omega, o, ho, within_self⟩
      · rcases h with h | ⟨j, hj, -⟩
        · exact absurd (h.mono hk) (hbad o ho)
        · exact (((within_self (n := 0)).step hl).step (hS o ho)).mono (by omega)
    · rw [within_succ, within_succ, hn o ho]
      constructor
      · rintro (rfl | ⟨p, hp, hrest⟩)
        · exact Or.inl (Or.inl rfl)
        · rcases (ih (by omega)).mp hrest with h | ⟨j, hj, q, hq, hw⟩
          · exact Or.inl (Or.inr ⟨p, hp, h⟩)
          · exact Or.inr ⟨j + 1, by omega, q, hq, hw.step hp⟩
      · rintro ((rfl | ⟨p, hp, h⟩) | ⟨j, hj, q, hq, hw⟩)
        · exact Or.inl rfl
        · exact Or.inr ⟨p, hp, (ih (by omega)).mpr (Or.inl h)⟩
        · cases j with
          | zero => exact absurd (within_zero.mp hw ▸ hq) ho
          | succ j =>
            rcases within_succ.mp hw with rfl | ⟨p, hp, hrest⟩
            · exact absurd hq ho
            · exact Or.inr ⟨p, hp, (ih (by omega)).mpr (Or.inr ⟨j, by omega, q, hq, hrest⟩)⟩

end Chain

/-! ## The objects that hang -/

variable {m : MountParam} {d x : Dev} {o q : ℕ}

/-- The parent of `o`, when it is a directory. -/
def dirParent (d : Dev) (o : ℕ) : Option ℕ :=
  (d.obj o).parent.filter fun p => (d.obj p).variantType = .directory

/-- The object `o` comes to one of the directories without a parent, from directory to directory. -/
def ReachesTop (d : Dev) (o : ℕ) : Prop :=
  ∃ k r, chain (dirParent d) k o = some r ∧ hasNullParent r = true

/-- Nothing calls for a move of `o` : it is one of the directories without a parent, it is in the
directory of the unlinked or the deleted objects, or the root is at most 101 directories up. -/
def Anchored (d : Dev) (o : ℕ) : Prop :=
  hasNullParent o = true ∨ dirParent d o = some objectIdUnlinked ∨ dirParent d o = some objectIdDeleted ∨
    Within (dirParent d) 101 o objectIdRoot

/-- The source's comment on `yaffs_fix_hanging_objs` : lost+found is in the root, and each object is in
the hash table once. -/
structure LostFoundRooted (d : Dev) : Prop where
  nodup : d.ids.Nodup
  root : (d.obj objectIdRoot).variantType = .directory
  lost : (d.obj objectIdLostNFound).variantType = .directory
  parent : (d.obj objectIdLostNFound).parent = some objectIdRoot

theorem dirParent_eq_some {p : ℕ} : dirParent d o = some p ↔
    (d.obj o).parent = some p ∧ (d.obj p).variantType = .directory := by
  simp [dirParent, Option.filter_eq_some_iff]

theorem Anchored.reachesTop (h : Anchored d o) : ReachesTop d o := by
  rcases h with h | h | h | ⟨k, -, h⟩
  · exact ⟨0, o, rfl, h⟩
  · exact ⟨1, objectIdUnlinked, (chain_succ h).trans rfl, rfl⟩
  · exact ⟨1, objectIdDeleted, (chain_succ h).trans rfl, rfl⟩
  · exact ⟨k, objectIdRoot, h, rfl⟩

theorem followParents_eq {n p : ℕ} :
    followParents d n p = objectIdRoot ↔ Within (dirParent d) n p objectIdRoot := by
  induction n generalizing p with
  | zero => exact within_zero.symm
  | succ n ih =>
    rw [within_succ]
    unfold followParents
    split_ifs with hroot
    · exact iff_of_true hroot (Or.inl hroot)
    rw [or_iff_right hroot]
    cases hp : (d.obj p).parent with
    | none =>
      refine iff_of_false hroot ?_
      rintro ⟨q, hq, -⟩
      rw [dirParent_eq_some, hp] at hq
      exact Option.some_ne_none q hq.1.symm
    | some q =>
      dsimp only
      split_ifs with hdir
      · have hq : dirParent d p = some q := dirParent_eq_some.mpr ⟨hp, hdir⟩
        simp only [hq, Option.some.injEq, exists_eq_left', ih]
      · refine iff_of_false hroot ?_
        rintro ⟨r, hr, -⟩
        obtain ⟨hpar, htype⟩ := dirParent_eq_some.mp hr
        obtain rfl : q = r := Option.some.inj (hp.symm.trans hpar)
        exact hdir htype

/-- The test of `yaffs_fix_hanging_objs` on one object. -/
theorem isHanging_iff : isHanging d o = true ↔ ¬Anchored d o := by
  unfold isHanging Anchored
  split_ifs with hnull
  · simp [hnull]
  simp only [hnull, Bool.false_eq_true, false_or]
  have hroot : o ≠ objectIdRoot := by
    rintro rfl
    exact hnull rfl
  rw [within_succ, or_iff_right hroot]
  cases hp : (d.obj o).parent with
  | none => simp [dirParent, hp]
  | some p =>
    dsimp only
    by_cases hdir : (d.obj p).variantType = .directory
    · have hq : dirParent d o = some p := dirParent_eq_some.mpr ⟨hp, hdir⟩
      simp only [hq, Option.some.injEq, exists_eq_left', hdir, ne_eq, not_true_eq_false, if_false,
        ← followParents_eq]
      by_cases hn : hasNullParent p = true
      · rw [if_pos hn]
        simp only [Bool.false_eq_true, false_iff, not_not]
        simp only [hasNullParent, Bool.or_eq_true, decide_eq_true_eq] at hn
        rcases hn with (rfl | rfl) | rfl
        · exact Or.inr (Or.inl rfl)
        · exact Or.inl rfl
        · exact Or.inr (Or.inr (by simp [followParents]))
      · rw [if_neg hn]
        have hu : p ≠ objectIdUnlinked := by
          rintro rfl
          exact hn rfl
        have hdel : p ≠ objectIdDeleted := by
          rintro rfl
          exact hn rfl
        simp [hu, hdel]
    · have hq : dirParent d o = none := by
        rw [dirParent, hp]
        simp [hdir]
      simp [hq, hdir]

/-! ## One object -/

/-- The device `x` is `d` with the objects `S` in lost+found, the latest first. -/
structure MovedTo (d : Dev) (S : List ℕ) (x : Dev) : Prop where
  rest : x = { d with obj := x.obj }
  obj : ∀ q, x.obj q = { d.obj q with
    parent := if q ∈ S then some objectIdLostNFound else (d.obj q).parent
    children := (x.obj q).children }
  lost : (x.obj objectIdLostNFound).children = S ++ (d.obj objectIdLostNFound).children
  left : ∀ q ≠ objectIdLostNFound, (x.obj q).children.Sublist (d.obj q).children
  kept : ∀ q, ∀ c ∈ (d.obj q).children, c ∉ S → c ∈ (x.obj q).children
  bad : ∀ q ∈ S, ¬Anchored d q

theorem movedTo_nil : MovedTo d [] d where
  rest := rfl
  obj _ := rfl
  lost := rfl
  left _ _ := List.Sublist.refl _
  kept _ _ hc _ := hc
  bad _ hq := absurd hq List.not_mem_nil

theorem LostFoundRooted.dirParent_lost (hd : LostFoundRooted d) :
    dirParent d objectIdLostNFound = some objectIdRoot :=
  dirParent_eq_some.mpr ⟨hd.parent, hd.root⟩

/-- What is in lost+found does not hang. -/
theorem LostFoundRooted.anchored (hd : LostFoundRooted d) (ho : (d.obj o).parent = some objectIdLostNFound) :
    Anchored d o := by
  have hlost : Within (dirParent d) 1 objectIdLostNFound objectIdRoot := within_self.step hd.dirParent_lost
  exact Or.inr (Or.inr (Or.inr ((hlost.step (dirParent_eq_some.mpr ⟨ho, hd.lost⟩)).mono (by omega))))

theorem addObjToDir_lost_obj (o : ℕ) (x : Dev) (q : ℕ) : (addObjToDir objectIdLostNFound o x).obj q =
    { x.obj q with
      parent := if q = o then some objectIdLostNFound else (x.obj q).parent
      children := if q = objectIdLostNFound then o :: leftChildren x o q else leftChildren x o q } := by
  have hrem := removeObjFromDir_obj o x
  unfold addObjToDir
  rw [if_neg (by decide)]
  generalize removeObjFromDir o x = y at *
  by_cases hq : q = o
  · subst hq
    by_cases hql : q = objectIdLostNFound
    · simp [Dev.modObj, hrem, ← hql]
    · simp [Dev.modObj, hrem, hql]
  · by_cases hql : q = objectIdLostNFound
    · subst hql
      simp [Dev.modObj, hrem, hq]
    · simp [Dev.modObj, hrem, hq, hql]

theorem addObjToDir_lost_rest (o : ℕ) (x : Dev) : addObjToDir objectIdLostNFound o x =
    { x with obj := (addObjToDir objectIdLostNFound o x).obj } := by
  unfold addObjToDir removeObjFromDir
  rw [if_neg (by decide)]
  cases (x.obj o).parent <;> rfl

namespace MovedTo

variable {S : List ℕ} (h : MovedTo d S x)
include h

theorem variantType (q : ℕ) : (x.obj q).variantType = (d.obj q).variantType := by
  rw [h.obj]

theorem parent (q : ℕ) :
    (x.obj q).parent = if q ∈ S then some objectIdLostNFound else (d.obj q).parent := by
  rw [h.obj]

theorem lost_notMem (hd : LostFoundRooted d) : objectIdLostNFound ∉ S := fun hm =>
  h.bad _ hm (Or.inr (Or.inr (Or.inr (((within_self (n := 0)).step hd.dirParent_lost).mono (by omega)))))

theorem rooted (hd : LostFoundRooted d) : LostFoundRooted x where
  nodup := by
    rw [h.rest]
    exact hd.nodup
  root := (h.variantType _).trans hd.root
  lost := (h.variantType _).trans hd.lost
  parent := by rw [h.parent, if_neg (h.lost_notMem hd), hd.parent]

theorem dirParent_mem (hd : LostFoundRooted d) (hq : q ∈ S) : dirParent x q = some objectIdLostNFound :=
  dirParent_eq_some.mpr ⟨by rw [h.parent, if_pos hq], (h.variantType _).trans hd.lost⟩

theorem dirParent_notMem (hq : q ∉ S) : dirParent x q = dirParent d q := by
  unfold dirParent
  rw [h.parent, if_neg hq]
  simp only [h.variantType]

/-- An object that is where it was is anchored when it was, or when one that was moved is at most 99
directories up. -/
theorem anchored_iff (hd : LostFoundRooted d) (ho : o ∉ S) :
    Anchored x o ↔ Anchored d o ∨ ∃ q ∈ S, Within (dirParent d) 99 o q := by
  have hwithin := within_redirect (f := dirParent d) (S := (· ∈ S)) (n := 101) (o := o)
    (fun q hq => h.dirParent_mem hd hq) (fun q hq => h.dirParent_notMem hq) (h.rooted hd).dirParent_lost
    (by decide) (fun q hq hw => h.bad q hq (Or.inr (Or.inr (Or.inr hw)))) le_rfl
  have hnear : (∃ j, j + 2 ≤ 101 ∧ ∃ q, q ∈ S ∧ Within (dirParent d) j o q) ↔
      ∃ q ∈ S, Within (dirParent d) 99 o q := by
    constructor
    · rintro ⟨j, hj, q, hq, hw⟩
      exact ⟨q, hq, hw.mono (by omega)⟩
    · rintro ⟨q, hq, hw⟩
      exact ⟨99, le_rfl, q, hq, hw⟩
  unfold Anchored
  rw [h.dirParent_notMem ho, hwithin, hnear]
  simp only [or_assoc]

/-- An object that hangs goes to the front of lost+found. -/
theorem cons (hd : LostFoundRooted d) (ho : o ∉ S) (hang : ¬Anchored x o) :
    MovedTo d (o :: S) (addObjToDir objectIdLostNFound o x) := by
  have hleft : ∀ q, leftChildren x o q = (x.obj q).children ∨ leftChildren x o q = (x.obj q).children.erase o :=
    fun q => by
      unfold leftChildren
      split_ifs
      · exact Or.inr rfl
      · exact Or.inl rfl
  have hsub : ∀ q, (leftChildren x o q).Sublist (x.obj q).children := fun q => by
    rcases hleft q with heq | heq <;> rw [heq]
    exact List.erase_sublist
  have hobj := addObjToDir_lost_obj o x
  have hlost : leftChildren x o objectIdLostNFound = (x.obj objectIdLostNFound).children := by
    unfold leftChildren
    rw [if_neg fun hp => hang ((h.rooted hd).anchored hp)]
  refine ⟨?_, fun q => ?_, ?_, fun q hq => ?_, fun q c hc hcS => ?_, fun q hq => ?_⟩
  · rw [addObjToDir_lost_rest o x]
    generalize (addObjToDir objectIdLostNFound o x).obj = f
    rw [h.rest]
  · rw [hobj, h.obj]
    by_cases hqo : q = o <;> simp [hqo]
  · rw [hobj, if_pos rfl, hlost, h.lost]
    rfl
  · rw [hobj, if_neg hq]
    exact (hsub q).trans (h.left q hq)
  · have hx := h.kept q c hc fun hm => hcS (List.mem_cons_of_mem _ hm)
    have hin : c ∈ leftChildren x o q := mem_leftChildren hx fun heq => hcS (heq ▸ List.mem_cons_self)
    rw [congrArg Obj.children (hobj q)]
    dsimp only
    split_ifs
    · exact List.mem_cons_of_mem _ hin
    · exact hin
  · rcases List.mem_cons.mp hq with rfl | hq
    · exact fun hanch => hang ((h.anchored_iff hd ho).mpr (Or.inl hanch))
    · exact h.bad q hq

end MovedTo

/-! ## The run over the hash table -/

/-- The object was moved to lost+found. -/
def MovedBetween (d x : Dev) (o : ℕ) : Prop :=
  (x.obj o).parent = some objectIdLostNFound ∧ (d.obj o).parent ≠ some objectIdLostNFound

theorem MovedTo.mem_iff {S : List ℕ} (h : MovedTo d S x) (hd : LostFoundRooted d) :
    o ∈ S ↔ MovedBetween d x o := by
  unfold MovedBetween
  rw [h.parent]
  constructor
  · intro ho
    exact ⟨if_pos ho, fun hp => h.bad o ho (hd.anchored hp)⟩
  · rintro ⟨hx, hnot⟩
    by_contra ho
    rw [if_neg ho] at hx
    exact hnot hx

theorem fixHangingStep_moves {S : List ℕ} (h : MovedTo d S x) (hd : LostFoundRooted d) (ho : o ∉ S) :
    ∃ S', MovedTo d S' (fixHangingStep x o) ∧ (∀ q ≠ o, q ∈ S' ↔ q ∈ S) ∧
      (o ∈ S' ↔ ¬Anchored d o ∧ ∀ q ∈ S, ¬Within (dirParent d) 99 o q) := by
  have hiff : ¬Anchored x o ↔ ¬Anchored d o ∧ ∀ q ∈ S, ¬Within (dirParent d) 99 o q := by
    rw [h.anchored_iff hd ho, not_or]
    simp only [not_exists, not_and]
  unfold fixHangingStep
  split_ifs with hang
  · have hno := isHanging_iff.mp hang
    refine ⟨o :: S, h.cons hd ho hno, fun q hq => ?_, iff_of_true List.mem_cons_self (hiff.mp hno)⟩
    rw [List.mem_cons, or_iff_right hq]
  · refine ⟨S, h, fun q _ => Iff.rfl, iff_of_false ho fun hm => hang ?_⟩
    exact isHanging_iff.mpr (hiff.mpr hm)

/-- Over a list of objects : an object moves when it hangs where it was and none of those moved before
it is at most 99 directories up. -/
theorem fixHangingStep_run (hd : LostFoundRooted d) (l : List ℕ) (hl : l.Nodup) :
    ∃ S, MovedTo d S (l.foldl fixHangingStep d) ∧ (∀ q ∈ S, q ∈ l) ∧
      ∀ pre o post, l = pre ++ o :: post →
        (o ∈ S ↔ ¬Anchored d o ∧ ∀ q ∈ pre, q ∈ S → ¬Within (dirParent d) 99 o q) := by
  induction l using List.reverseRecOn with
  | nil =>
    refine ⟨[], movedTo_nil, by simp, fun pre o post h => ?_⟩
    simp at h
  | append_singleton l a ih =>
    rw [List.nodup_append] at hl
    obtain ⟨S, hS, hsub, hspec⟩ := ih hl.1
    have ha : a ∉ l := fun hm => hl.2.2 a hm a (List.mem_singleton_self a) rfl
    obtain ⟨S', hS', hother, hnew⟩ := fixHangingStep_moves hS hd fun hm => ha (hsub a hm)
    rw [List.foldl_append]
    refine ⟨S', hS', fun q hq => ?_, fun pre o post heq => ?_⟩
    · rw [List.mem_append, List.mem_singleton]
      by_cases hqa : q = a
      · exact Or.inr hqa
      · exact Or.inl (hsub q ((hother q hqa).mp hq))
    · rcases List.eq_nil_or_concat post with rfl | ⟨post', b, rfl⟩
      · obtain ⟨rfl, hlast⟩ := List.append_inj' heq rfl
        obtain rfl := List.singleton_inj.mp hlast
        rw [hnew]
        refine and_congr_right fun _ => ⟨fun h q _ hq => h q ?_, fun h q hq => h q (hsub q hq) ?_⟩
        · exact (hother q (fun hqa => ha (hqa ▸ ‹_›))).mp hq
        · exact (hother q (fun hqa => ha (hqa ▸ hsub q hq))).mpr hq
      · have heq' : l ++ [a] = (pre ++ o :: post') ++ [b] := by simpa using heq
        obtain ⟨rfl, hlast⟩ := List.append_inj' heq' rfl
        have hoa : o ≠ a := fun hoa => ha (hoa ▸ by simp)
        rw [hother o hoa, hspec pre o post' rfl]
        refine and_congr_right fun _ => forall₂_congr fun q hq => ?_
        rw [hother q fun hqa => ha (hqa ▸ by simp [hq])]

theorem mem_bucketOrder {ids : List ℕ} : o ∈ bucketOrder ids ↔ o ∈ ids := by
  simp only [bucketOrder, List.mem_flatMap, List.mem_range, List.mem_filter, decide_eq_true_eq]
  constructor
  · rintro ⟨i, -, ho, -⟩
    exact ho
  · exact fun ho => ⟨o % nObjectBuckets, Nat.mod_lt _ (by decide), ho, rfl⟩

theorem bucketOrder_nodup {ids : List ℕ} (h : ids.Nodup) : (bucketOrder ids).Nodup := by
  refine List.nodup_flatMap.mpr ⟨fun i _ => h.filter _, ?_⟩
  refine List.nodup_range.imp fun {i j} hij => ?_
  simp only [Function.onFun, List.disjoint_left, List.mem_filter, decide_eq_true_eq]
  rintro o ⟨-, hi⟩ ⟨-, hj⟩
  exact hij (hi.symm.trans hj)

/-- What `yaffs_fix_hanging_objs` makes of `d`. -/
structure HangingFixed (d x : Dev) : Prop where
  moves : ∀ pre o post, bucketOrder d.ids = pre ++ o :: post →
    (MovedBetween d x o ↔ ¬Anchored d o ∧ ∀ q ∈ pre, MovedBetween d x q → ¬Within (dirParent d) 99 o q)
  obj : ∀ o, x.obj o = { d.obj o with parent := (x.obj o).parent, children := (x.obj o).children }
  stays : ∀ o, ¬MovedBetween d x o → (x.obj o).parent = (d.obj o).parent
  listed : ∀ o ∈ d.ids, MovedBetween d x o → o ∈ (x.obj objectIdLostNFound).children
  left : ∀ q ≠ objectIdLostNFound, (x.obj q).children.Sublist (d.obj q).children
  kept : ∀ q, ∀ c ∈ (d.obj q).children, ¬MovedBetween d x c → c ∈ (x.obj q).children
  unreached : ∀ o ∈ d.ids, ¬ReachesTop d o → ∃ n q, MovedBetween d x q ∧ Within (dirParent d) n o q
  reaches : ∀ o ∈ d.ids, ReachesTop x o

/-- On a writable device exactly those objects move that hang where they were found and have no object
that moved before them less than a hundred directories up; the others stay, and every object comes to
one of the directories without a parent. -/
theorem fixHangingObjs_exact (hro : m.readOnly = false) (hd : LostFoundRooted d) :
    HangingFixed d (fixHangingObjs m d) := by
  have hfix : fixHangingObjs m d = (bucketOrder d.ids).foldl fixHangingStep d := by
    rw [fixHangingObjs, hro]
    rfl
  obtain ⟨S, hS, hsub, hspec⟩ := fixHangingStep_run hd _ (bucketOrder_nodup hd.nodup)
  rw [hfix]
  generalize (bucketOrder d.ids).foldl fixHangingStep d = x at *
  have hmem : ∀ {o}, o ∈ S ↔ MovedBetween d x o := hS.mem_iff hd
  simp only [hmem] at hspec
  have hreach : ∀ o ∈ d.ids, ReachesTop x o := fun o ho => by
    refine Anchored.reachesTop ?_
    by_cases hmoved : o ∈ S
    · exact (hS.rooted hd).anchored (by rw [hS.parent, if_pos hmoved])
    · obtain ⟨pre, post, heq⟩ := List.append_of_mem (mem_bucketOrder.mpr ho)
      have hnot := (hspec pre o post heq).not.mp (hmem.not.mp hmoved)
      rw [hS.anchored_iff hd hmoved]
      by_contra hcon
      obtain ⟨hanch, hfar⟩ := not_or.mp hcon
      exact hnot ⟨hanch, fun q _ hq hw => hfar ⟨q, hmem.mpr hq, hw⟩⟩
  refine ⟨hspec, fun o => ?_, fun o ho => ?_, fun o _ ho => ?_, hS.left, fun q c hc hno => ?_, fun o ho hno => ?_,
    hreach⟩
  · rw [hS.parent]
    exact hS.obj o
  · rw [hS.parent, if_neg (hmem.not.mpr ho)]
  · rw [hS.lost]
    exact List.mem_append_left _ (hmem.mpr ho)
  · exact hS.kept q c hc (hmem.not.mpr hno)
  · by_contra hcon
    obtain ⟨k, r, hr, hnull⟩ := hreach o ho
    refine hno ⟨k, r, ?_, hnull⟩
    rw [← hr]
    -- without a moved object on the way the chain is the one that was found
    refine (chain_congr fun i _ q hc => hS.dirParent_notMem fun hq => ?_).symm
    exact hcon ⟨i, q, hmem.mp hq, i, le_rfl, hc⟩

/-- Two directories, each the parent of the other. -/
def cycleDev : Dev :=
  { freshDev sampleGeometry fun _ => false with
    obj := fun o =>
      if o = 257 then { variantType := .directory, parent := some 258, children := [258] }
      else if o = 258 then { variantType := .directory, parent := some 257, children := [257] }
      else initialObj o
    ids := [258, 257, objectIdLostNFound, objectIdRoot, objectIdDeleted, objectIdUnlinked] }

def writableMount : MountParam where
  readOnly := false
  disableLazyLoad := false
  emptyLostNFound := false
  hideLostNFound := false
  useHeaderFileSize := true
  reader := flashReader fun _ => none
  query := fun _ => .empty
  stale := 0

theorem cycleDev_rooted : LostFoundRooted cycleDev where
  nodup := by decide
  root := rfl
  lost := rfl
  parent := rfl

/-- The directories of the cycle lead to each other only. -/
theorem cycleDev_unreached : ¬ReachesTop cycleDev 258 := by
  rintro ⟨k, r, hr, hnull⟩
  have hcycle : ∀ k, (chain (dirParent cycleDev) k 257 = some 257 ∨ chain (dirParent cycleDev) k 257 = some 258) ∧
      (chain (dirParent cycleDev) k 258 = some 257 ∨ chain (dirParent cycleDev) k 258 = some 258) := fun k => by
    induction k with
    | zero => exact ⟨Or.inl rfl, Or.inr rfl⟩
    | succ k ih =>
      rw [chain_succ (show dirParent cycleDev 257 = some 258 from rfl),
        chain_succ (show dirParent cycleDev 258 = some 257 from rfl)]
      exact ih.symm
  rcases (hcycle k).2 with h | h <;> obtain rfl := Option.some.inj (h.symm.trans hr) <;> exact absurd hnull (by decide)

/-- Of two directories that are each other's parent only the first is moved, although neither reaches
the root. -/
theorem cycleDev_moves : ¬∀ (m : MountParam) (d : Dev), m.readOnly = false → LostFoundRooted d →
    (∀ o ∈ d.ids, MovedBetween d (fixHangingObjs m d) o ↔ ¬ReachesTop d o) ∧
      (∀ o ∈ d.ids, ¬MovedBetween d (fixHangingObjs m d) o → ((fixHangingObjs m d).obj o).parent = (d.obj o).parent) ∧
      ∀ o ∈ d.ids, ReachesTop (fixHangingObjs m d) o := by
  intro h
  have hmoved := ((h writableMount cycleDev rfl cycleDev_rooted).1 258 (by decide)).mpr cycleDev_unreached
  have hstays : ((fixHangingObjs writableMount cycleDev).obj 258).parent = some 257 := by decide +kernel
  exact absurd (hstays.symm.trans hmoved.1) (by decide)

theorem cycleDev_fixed : HangingFixed cycleDev (fixHangingObjs writableMount cycleDev) :=
  fixHangingObjs_exact rfl cycleDev_rooted

end Yaffs
