import Yaffs.CheckptRead
import Yaffs.ChunkTree

/-!
# The trees in a checkpoint

A checkpoint has of a tree its level-0 tnodes, each with the first of its chunks. Read one after the
other into the tree of a new file, they make a tree that holds the same.
-/

namespace Yaffs

open LittleEndian
open scoped Tnode

/-! ## Level-0 tnodes -/

/-- The level-0 tnodes below a tnode, each with its first chunk, in the order in which
`yaffs2_checkpt_tnode_worker` writes them. -/
def Tnode.leafList : (n : ℕ) → Tnode n → ℕ → List (ℕ × Tnode 0)
  | 0, t, off => [(off * 16, t)]
  | n + 1, t, off => (List.finRange 8).flatMap fun i =>
    match t.internal i with
    | some t' => leafList n t' (off * 8 + i)
    | none => []

/-- The level-0 tnodes of a file. -/
def FileVar.leafList (f : FileVar) : List (ℕ × Tnode 0) :=
  f.top.elim [] fun t => Tnode.leafList f.topLevel t 0

/-- What is held for chunks after a level-0 tnode has taken the place of another. -/
def putLeaf (M : ℕ → ℕ) (p : ℕ × Tnode 0) : ℕ → ℕ :=
  fun k => if k / 16 = p.1 / 16 then p.2.group (Fin.ofNat 16 k) else M k

section

variable {n off k : ℕ} {M : ℕ → ℕ}

theorem putLeaf_leafList (t : Tnode n) (off : ℕ) (M : ℕ → ℕ) (k : ℕ) :
    (Tnode.leafList n t off).foldl putLeaf M k =
      if k / 16 / 8 ^ n = off then (Tnode.find n t k).getD (M k) else M k := by
  induction n generalizing off M with
  | zero => simp [Tnode.leafList, putLeaf, Tnode.find]
  | succ n ih =>
    have hdiv : k / 16 / 8 ^ (n + 1) = k / 16 / 8 ^ n / 8 := by
      rw [Nat.pow_succ, Nat.div_div_eq_div_mul (k / 16)]
    have hslot : (tnodeSlot n k).val = k / 16 / 8 ^ n % 8 := by
      simp [tnodeSlot, Fin.ofNat, tnodeSpan, Nat.div_div_eq_div_mul]
    -- Of the slots gone through, only the one of the chunk matters.
    have hsome : ∀ (l : List (Fin 8)) (M : ℕ → ℕ), l.Nodup →
        (l.flatMap fun i => match t.internal i with
          | some t' => Tnode.leafList n t' (off * 8 + i)
          | none => []).foldl putLeaf M k =
        if k / 16 / 8 ^ (n + 1) = off ∧ tnodeSlot n k ∈ l then (Tnode.find (n + 1) t k).getD (M k) else M k := by
      intro l
      induction l with
      | nil => simp
      | cons i l ihl =>
        intro M hnodup
        obtain ⟨hi, hl⟩ := List.nodup_cons.mp hnodup
        rw [List.flatMap_cons, List.foldl_append, ihl _ hl]
        have hhead : ((match t.internal i with
            | some t' => Tnode.leafList n t' (off * 8 + i)
            | none => []).foldl putLeaf M) k =
            if k / 16 / 8 ^ (n + 1) = off ∧ tnodeSlot n k = i then (Tnode.find (n + 1) t k).getD (M k) else M k := by
          have hiff : k / 16 / 8 ^ n = off * 8 + i ↔ k / 16 / 8 ^ (n + 1) = off ∧ tnodeSlot n k = i := by
            rw [Fin.ext_iff, hslot, hdiv]
            have := i.isLt
            omega
          cases ht : t.internal i with
          | none =>
            split_ifs with h
            · simp [Tnode.find, h.2, ht]
            · rfl
          | some t' =>
            simp only [ih, hiff]
            split_ifs with h
            · simp [Tnode.find, h.2, ht]
            · rfl
        rw [hhead]
        by_cases hoff : k / 16 / 8 ^ (n + 1) = off
        · by_cases hs : tnodeSlot n k = i
          · subst hs
            simp [hoff, hi]
          · simp [hoff, hs]
        · simp [hoff]
    rw [Tnode.leafList, hsome _ M (List.nodup_finRange 8)]
    simp

/-- The level-0 tnodes of a file, put one after the other, hold what its tree holds. -/
theorem putLeaf_fileLeaves {f : FileVar} (hl : f.topLevel ≤ tnodesMaxLevel) (hk : k ≤ maxChunkId) :
    f.leafList.foldl putLeaf (fun _ => 0) k = f.entry k := by
  unfold FileVar.leafList
  cases ht : f.top with
  | none => simp [FileVar.entry, FileVar.find, ht]
  | some t =>
    have hspan : k / 16 / 8 ^ f.topLevel = 0 ↔ k < tnodeSpan f.topLevel := by
      rw [Nat.div_eq_zero_iff, tnodeSpan, Nat.div_lt_iff_lt_mul (by decide), Nat.mul_comm]
      simp
    rw [Option.elim_some, putLeaf_leafList]
    by_cases hs : k < tnodeSpan f.topLevel
    · rw [if_pos (hspan.mpr hs), FileVar.entry, FileVar.find_of_lt hl hk hs, ht, Option.bind_some]
    · have hnone : f.find k = none := by
        by_contra h
        exact hs (FileVar.Has.bounds h).2.2
      rw [if_neg fun h => hs (hspan.mp h), FileVar.entry, hnone]
      rfl

theorem leafList_base (t : Tnode n) (off : ℕ) {p : ℕ × Tnode 0} (hp : p ∈ Tnode.leafList n t off) :
    p.1 < (off + 1) * tnodeSpan n := by
  induction n generalizing off with
  | zero =>
    obtain rfl : p = (off * 16, t) := by simpa [Tnode.leafList] using hp
    simp only [tnodeSpan_zero]
    omega
  | succ n ih =>
    obtain ⟨i, -, hi⟩ := List.mem_flatMap.mp hp
    cases ht : t.internal i with
    | none => simp [ht] at hi
    | some t' =>
      rw [ht] at hi
      have hlt := ih t' (off * 8 + i) hi
      have hle : off * 8 + i + 1 ≤ (off + 1) * 8 := by
        have := i.isLt
        omega
      calc p.1 < (off * 8 + i + 1) * tnodeSpan n := hlt
        _ ≤ (off + 1) * 8 * tnodeSpan n := Nat.mul_le_mul_right _ hle
        _ = (off + 1) * tnodeSpan (n + 1) := by rw [tnodeSpan_succ, Nat.mul_assoc, Nat.mul_comm 8]

theorem fileLeaves_base {f : FileVar} (hl : f.topLevel ≤ tnodesMaxLevel) {p : ℕ × Tnode 0}
    (hp : p ∈ f.leafList) : p.1 ≤ maxChunkId := by
  unfold FileVar.leafList at hp
  cases ht : f.top with
  | none => simp [ht] at hp
  | some t =>
    rw [ht, Option.elim_some] at hp
    have hlt := leafList_base t 0 hp
    have hmax : tnodeSpan tnodesMaxLevel = maxChunkId + 1 := by decide
    have := tnodeSpan_mono hl
    omega

end

/-! ## Loading a tnode -/

section

variable {e : Env} {v : Tnode 0} {n k : ℕ}

/-- What loading a level-0 tnode does below a tnode. -/
structure LeafAdded (v : Tnode 0) (n : ℕ) (t : Tnode n) (k : ℕ) (d : BlockDev) (r : BlockDev × Tnode n × Bool) :
    Prop where
  counts : CountsOnly d r.1
  done : r.2.2 = true
  entry : ∀ k', Tnode.entry n r.2.1 k' = if SameLeaf n k k' then v.group (Fin.ofNat 16 k') else Tnode.entry n t k'
  rooted : FileVar.Rooted n (some t) → FileVar.Rooted n (some r.2.1)

theorem LeafAdded.below {t : Tnode (n + 1)} {t' : Tnode n} {d d' : BlockDev} {r : BlockDev × Tnode n × Bool}
    (h : LeafAdded v n t' k d' r) (hd : CountsOnly d d')
    (hentry : ∀ k', Tnode.entry n t' k' = Tnode.subEntry n (t.internal (tnodeSlot n k)) k')
    (hroot : tnodeSlot n k = 0 → FileVar.Rooted n (t.internal 0) → FileVar.Rooted n (some t')) :
    LeafAdded v (n + 1) t k d (r.1, t.setInternal (tnodeSlot n k) (some r.2.1), r.2.2) where
  counts := hd.trans h.counts
  done := h.done
  entry k' := by
    simp only [Tnode.entry_succ, Tnode.internal_setInternal, sameLeaf_succ]
    by_cases hs : tnodeSlot n k' = tnodeSlot n k
    · rw [if_pos hs, hs, ← hentry]
      simpa [Tnode.subEntry, Tnode.entry] using h.entry k'
    · simp [hs, Ne.symm hs]
  rooted hr := rooted_setInternal hr fun h0 hi => h.rooted (hroot h0 hi)

/-- With memory for every tnode, a level-0 tnode is loaded. -/
theorem Tnode.addLeaf_spec (he : ∀ n, e.allocOk n = true) (n : ℕ) (t : Tnode n) (k : ℕ) (d : BlockDev) :
    LeafAdded v n t k d (Tnode.addLeaf e v n t k d) := by
  induction n generalizing d with
  | zero =>
    refine ⟨CountsOnly.freeTnode, rfl, fun k' => ?_, fun _ => trivial⟩
    have hleaf : SameLeaf 0 k k' := by simp [SameLeaf, Nat.mod_one]
    rw [if_pos hleaf]
    rfl
  | succ n ih =>
    cases n with
    | zero =>
      have hleaf : ∀ k', SameLeaf 0 k k' := fun k' => by simp [SameLeaf, Nat.mod_one]
      refine ⟨?_, rfl, fun k' => ?_, fun hr => rooted_setInternal hr fun _ _ => trivial⟩
      · unfold Tnode.addLeaf
        dsimp only
        split_ifs
        · exact CountsOnly.freeTnode
        · exact CountsOnly.refl d
      · simp only [Tnode.addLeaf, Tnode.entry_succ, Tnode.internal_setInternal, sameLeaf_succ, hleaf, and_true]
        by_cases hs : tnodeSlot 0 k' = tnodeSlot 0 k
        · rw [if_pos hs, if_pos hs.symm]
          rfl
        · rw [if_neg hs, if_neg (Ne.symm hs)]
    | succ n =>
      unfold Tnode.addLeaf
      cases ht : t.internal (tnodeSlot (n + 1) k) with
      | some t' =>
        refine (ih t' d).below (CountsOnly.refl d) (fun k' => ?_) fun h0 hr => ?_
        · rw [ht]
          rfl
        · rwa [← h0, ht] at hr
      | none =>
        have hok : (getTnode e d).2 = true := he _
        simp only [hok, if_true]
        refine (ih (Tnode.empty (n + 1)) (getTnode e d).1).below CountsOnly.getTnode (fun k' => ?_) fun h0 hr => ?_
        · rw [ht, Tnode.entry_empty]
          rfl
        · rw [← h0, ht] at hr
          exact hr.elim

/-- The file `f` with a level-0 tnode loaded for the chunks beside `k`. -/
structure LeafLoaded (v : Tnode 0) (k : ℕ) (f : FileVar) (d : BlockDev) (r : BlockDev × FileVar × Bool) : Prop where
  counts : CountsOnly d r.1
  done : r.2.2 = true
  sound : r.2.1.Sound
  same : FileVar.SameFile f r.2.1
  entry : ∀ k' ≤ maxChunkId, r.2.1.entry k' = putLeaf f.entry (k, v) k'

theorem FileVar.addLeaf_spec (he : ∀ n, e.allocOk n = true) {f : FileVar} (hf : f.Sound) (hk : k ≤ maxChunkId)
    (v : Tnode 0) (d : BlockDev) : LeafLoaded v k f d (f.addLeaf e k v d) := by
  have hl := hf.level
  have hdepth := FileVar.requiredDepth_le_max hk
  obtain ⟨h1, h2, h3, h4, h5, h6⟩ := FileVar.grow_spec (e := e) (requiredDepth k - f.topLevel) f d (by omega)
  have hok := FileVar.grow_ok he (requiredDepth k - f.topLevel) f d
  unfold FileVar.addLeaf
  rw [if_neg (by omega), if_neg (by omega)]
  simp only [hok, if_true]
  have hlevel := h6 hok
  have hroot := h5 hf.rooted
  generalize FileVar.grow e (requiredDepth k - f.topLevel) f d = r at *
  obtain ⟨b, f', x⟩ := r
  dsimp only at *
  have hmax : f'.topLevel ≤ tnodesMaxLevel := by omega
  have hspan : k < tnodeSpan f'.topLevel := (requiredDepth_le_iff hk).mp (by omega)
  obtain ⟨t, ht⟩ := hroot.top
  have hadd := Tnode.addLeaf_spec (v := v) he f'.topLevel t k b
  simp only [ht]
  refine ⟨h1.trans hadd.counts, hadd.done, ⟨hmax, hadd.rooted (ht ▸ hroot)⟩, h2.trans ⟨rfl, rfl, rfl⟩,
    fun k' hk' => ?_⟩
  by_cases hs : k' < tnodeSpan f'.topLevel
  · have hentry : ∀ c, FileVar.entry { f' with top := some c } k' = Tnode.entry f'.topLevel c k' := fun c => by
      rw [FileVar.entry, FileVar.find_of_lt (f := { f' with top := some c }) hmax hk' hs]
      rfl
    have hold : Tnode.entry f'.topLevel t k' = f.entry k' := by
      rw [← h3, ← hentry, ← ht]
    rw [hentry, hadd.entry, hold, putLeaf]
    simp only [TreeFile.sameLeaf_iff hspan hs]
  · have hout : ∀ f'' : FileVar, f''.topLevel = f'.topLevel → f''.entry k' = 0 := fun f'' hf'' => by
      by_contra h
      have := (FileVar.Has.bounds (FileVar.has_of_entry h)).2.2
      rw [hf''] at this
      exact hs this
    have hne : k' / 16 ≠ k / 16 := by
      intro h
      have hspan' : ∀ m, m < tnodeSpan f'.topLevel ↔ m / 16 < 8 ^ f'.topLevel := fun m => by
        rw [Nat.div_lt_iff_lt_mul (by decide), tnodeSpan, Nat.mul_comm]
      exact hs ((hspan' k').mpr (h ▸ (hspan' k).mp hspan))
    have hnew := hout { f' with top := some (Tnode.addLeaf e v f'.topLevel t k b).2.1 } rfl
    rw [putLeaf, if_neg hne, ← h3 k', hout f' rfl]
    exact hnew

end

end Yaffs
