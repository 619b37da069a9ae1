import Yaffs.Block
import Mathlib.Data.List.FinRange
import Mathlib.Tactic.Positivity

/-!
# Tnodes

The look-up tree of a file. A tnode of level `0` holds sixteen chunk groups and one of a
higher level eight tnodes of the level below, so a tree of level `n` has the
`16 * 8 ^ n` positions of the chunks `0, 1, ...` of its file. The proofs see a tree
through `Tnode.find` : what the level-0 tnode of a chunk holds for it, if there is one.
-/

namespace Yaffs

/-! ## The tree -/

/-- `struct yaffs_tnode`, of a given level. -/
def Tnode : ℕ → Type
  | 0 => Fin 16 → ℕ
  | n + 1 => Fin 8 → Option (Tnode n)

/-- Number of positions of a tree of level `n`. -/
def tnodeSpan (n : ℕ) : ℕ :=
  16 * 8 ^ n

/-- `YAFFS_TNODES_MAX_LEVEL`. -/
def tnodesMaxLevel : ℕ := 8

/-- `YAFFS_MAX_CHUNK_ID`. -/
def maxChunkId : ℕ := 2 ^ 28 - 1

/-- The place of chunk `k` among the tnodes of level `n` under one tnode. -/
def tnodeSlot (n k : ℕ) : Fin 8 :=
  Fin.ofNat 8 (k / tnodeSpan n)

namespace Tnode

variable {n : ℕ}

/-- An empty tnode. -/
def empty : (n : ℕ) → Tnode n
  | 0 => fun _ => 0
  | _ + 1 => fun _ => none

/-- The chunk groups of a tnode of level `0`. -/
def group (t : Tnode 0) (i : Fin 16) : ℕ :=
  t i

def setGroup (t : Tnode 0) (i : Fin 16) (v : ℕ) : Tnode 0 :=
  fun j => if j = i then v else t.group j

/-- `tn->internal`. -/
def internal (t : Tnode (n + 1)) (i : Fin 8) : Option (Tnode n) :=
  t i

def setInternal (t : Tnode (n + 1)) (i : Fin 8) (c : Option (Tnode n)) : Tnode (n + 1) :=
  fun j => if j = i then c else t.internal j

@[simp] theorem group_empty (i : Fin 16) : (empty 0).group i = 0 := rfl

@[simp] theorem internal_empty (i : Fin 8) : (empty (n + 1)).internal i = none := rfl

@[simp] theorem group_setGroup (t : Tnode 0) (i j : Fin 16) (v : ℕ) :
    (t.setGroup i v).group j = if j = i then v else t.group j := rfl

@[simp] theorem internal_setInternal (t : Tnode (n + 1)) (i j : Fin 8) (c : Option (Tnode n)) :
    (t.setInternal i c).internal j = if j = i then c else t.internal j := rfl

/-- `yaffs_find_tnode_0` below a tnode, with what the level-0 tnode holds for `k`. -/
def find : (n : ℕ) → Tnode n → ℕ → Option ℕ
  | 0, t, k => some (t.group (Fin.ofNat 16 k))
  | n + 1, t, k => (t.internal (tnodeSlot n k)).bind fun t' => find n t' k

/-- `yaffs_load_tnode_0` : the level-0 tnode of `k`, if there is one, gets `v`. -/
def load : (n : ℕ) → Tnode n → ℕ → ℕ → Tnode n
  | 0, t, k, v => t.setGroup (Fin.ofNat 16 k) v
  | n + 1, t, k, v =>
    t.setInternal (tnodeSlot n k) ((t.internal (tnodeSlot n k)).map fun t' => load n t' k v)

/-- What is held for `k`, zero where there is no level-0 tnode. -/
def entry (n : ℕ) (t : Tnode n) (k : ℕ) : ℕ :=
  (find n t k).getD 0

end Tnode

/-- `yaffs_get_tnode`, without the tnode. -/
def getTnode (e : Env) (d : BlockDev) : BlockDev × Bool :=
  let ok := e.allocOk d.nand.calls
  ({ d with
    nand := { d.nand with calls := d.nand.calls + 1 }
    nTnodes := if ok then d.nTnodes + 1 else d.nTnodes }, ok)

/-- `yaffs_free_tnode`. -/
def freeTnode (d : BlockDev) : BlockDev :=
  { d with nTnodes := d.nTnodes - 1 }

namespace Tnode

/-- The way down of `yaffs_add_find_tnode_0`, adding the tnodes that are missing. -/
def addFind (e : Env) : (n : ℕ) → Tnode n → ℕ → BlockDev → BlockDev × Tnode n × Bool
  | 0, t, _, d => (d, t, true)
  | n + 1, t, k, d =>
    match t.internal (tnodeSlot n k) with
    | some t' =>
      let r := addFind e n t' k d
      (r.1, t.setInternal (tnodeSlot n k) (some r.2.1), r.2.2)
    | none =>
      let a := getTnode e d
      if a.2 then
        let r := addFind e n (empty n) k a.1
        (r.1, t.setInternal (tnodeSlot n k) (some r.2.1), r.2.2)
      else (a.1, t, false)

/-- The soft deletion of one chunk of a level-0 tnode; `base` takes what the tnode holds
to a chunk. -/
def softDelGroup (g : Geometry) (base : ℕ → ℕ) (r : BlockDev × Tnode 0) (i : Fin 16) :
    BlockDev × Tnode 0 :=
  if base (r.2.group i) ≠ 0 then (softDelChunk g (base (r.2.group i)) r.1, r.2.setGroup i 0) else r

/-- The soft deletion of what is below one slot of a tnode, which is then freed. -/
def softDelSlot (worker : Tnode n → BlockDev → BlockDev × Tnode n) (r : BlockDev × Tnode (n + 1))
    (i : Fin 8) : BlockDev × Tnode (n + 1) :=
  match r.2.internal i with
  | some t => (freeTnode (worker t r.1).1, r.2.setInternal i none)
  | none => r

/-- `yaffs_soft_del_worker`, which always gets all done. -/
def softDelWorker (g : Geometry) (base : ℕ → ℕ) : (n : ℕ) → Tnode n → BlockDev → BlockDev × Tnode n
  | 0, t, d => (List.finRange 16).reverse.foldl (softDelGroup g base) (d, t)
  | n + 1, t, d =>
    (List.finRange 8).reverse.foldl (softDelSlot fun t d => softDelWorker g base n t d) (d, t)

/-- The pruning of what is below one slot of a tnode. -/
def pruneSlot (worker : Tnode n → Bool → BlockDev → BlockDev × Option (Tnode n)) (del0 : Bool)
    (r : BlockDev × Tnode (n + 1)) (i : Fin 8) : BlockDev × Tnode (n + 1) :=
  match r.2.internal i with
  | some t =>
    let q := worker t (if i = 0 then del0 else true) r.1
    (q.1, r.2.setInternal i q.2)
  | none => r

/-- `yaffs_prune_worker`. -/
def pruneWorker : (n : ℕ) → Tnode n → Bool → BlockDev → BlockDev × Option (Tnode n)
  | 0, t, del0, d => if (∀ i, t.group i = 0) ∧ del0 then (freeTnode d, none) else (d, some t)
  | n + 1, t, del0, d =>
    let r := (List.finRange 8).foldl (pruneSlot (fun t b d => pruneWorker n t b d) del0) (d, t)
    if (∀ i, (r.2.internal i).isNone) ∧ del0 then (freeTnode r.1, none) else (r.1, some r.2)

end Tnode

/-! ## Files -/

/-- `struct yaffs_file_var`. -/
structure FileVar where
  fileSize : ℕ := 0
  storedSize : ℕ := 0
  shrinkSize : ℕ := 0
  topLevel : ℕ := 0
  top : Option (Tnode topLevel) := none

/-- The loop that computes `required_depth`, over the 32 bits of a chunk id. -/
def requiredDepthLoop : ℕ → ℕ → ℕ
  | 0, _ => 0
  | n + 1, x => if x = 0 then 0 else requiredDepthLoop n (x / 8) + 1

/-- The level of tree chunk `k` needs. -/
def requiredDepth (k : ℕ) : ℕ :=
  requiredDepthLoop 32 (k / 16)

namespace FileVar

/-- `yaffs_find_tnode_0`, with what the tnode holds for `k`. -/
def find (f : FileVar) (k : ℕ) : Option ℕ :=
  if tnodesMaxLevel < f.topLevel then none
  else if maxChunkId < k then none
  else if f.topLevel < requiredDepth k then none
  else f.top.bind fun t => t.find f.topLevel k

/-- What the tree holds for `k`, zero where it holds nothing. -/
def entry (f : FileVar) (k : ℕ) : ℕ :=
  (f.find k).getD 0

/-- `yaffs_load_tnode_0` on the level-0 tnode of `k`. -/
def load (f : FileVar) (k v : ℕ) : FileVar :=
  { f with top := f.top.map fun t => t.load f.topLevel k v }

/-- One more level on top of the tree. -/
def raise (f : FileVar) : FileVar :=
  { f with
    topLevel := f.topLevel + 1
    top := some ((Tnode.empty (f.topLevel + 1)).setInternal 0 f.top) }

/-- The loop of `yaffs_add_find_tnode_0` that makes the tree taller. -/
def grow (e : Env) : ℕ → FileVar → BlockDev → BlockDev × FileVar × Bool
  | 0, f, d => (d, f, true)
  | n + 1, f, d =>
    let a := getTnode e d
    if a.2 then grow e n f.raise a.1 else (a.1, f, false)

/-- The way down of `yaffs_add_find_tnode_0`, from the top. -/
def descend (e : Env) (f : FileVar) (k : ℕ) (d : BlockDev) : BlockDev × FileVar × Bool :=
  match f.top with
  | some t =>
    let r := t.addFind e f.topLevel k d
    (r.1, { f with top := some r.2.1 }, r.2.2)
  | none => (d, f, false)

/-- `yaffs_add_find_tnode_0`, when it is passed no tnode. -/
def addFind (e : Env) (f : FileVar) (k : ℕ) (d : BlockDev) : BlockDev × FileVar × Bool :=
  if tnodesMaxLevel < f.topLevel then (d, f, false)
  else if maxChunkId < k then (d, f, false)
  else
    let r := grow e (requiredDepth k - f.topLevel) f d
    if r.2.2 then descend e r.2.1 k r.1 else r

/-- The loop of `yaffs_prune_tree` that makes the tree shorter. -/
def lower : (n : ℕ) → Tnode n → BlockDev → BlockDev × (m : ℕ) × Option (Tnode m)
  | 0, t, d => (d, ⟨0, some t⟩)
  | n + 1, t, d =>
    if ∀ i, i ≠ 0 → (t.internal i).isNone then
      match t.internal 0 with
      | some t' => lower n t' (freeTnode d)
      | none => (freeTnode d, ⟨n, none⟩)
    else (d, ⟨n + 1, some t⟩)

/-- `yaffs_prune_tree`. -/
def prune (f : FileVar) (d : BlockDev) : BlockDev × FileVar :=
  if f.topLevel < 1 then (d, f)
  else
    match f.top with
    | none => (d, f)
    | some t =>
      match t.pruneWorker f.topLevel false d with
      | (d, some t) =>
        let r := lower f.topLevel t d
        (r.1, { f with topLevel := r.2.1, top := r.2.2 })
      | (d, none) => (d, { f with top := none })

/-- The soft deletion of the chunks of a file. -/
def softDel (g : Geometry) (base : ℕ → ℕ) (f : FileVar) (d : BlockDev) : BlockDev × FileVar :=
  match f.top with
  | none => (d, f)
  | some t =>
    let r := t.softDelWorker g base f.topLevel d
    (r.1, { f with top := some r.2 })

end FileVar

/-! ## Looking up -/

theorem tnodeSpan_zero : tnodeSpan 0 = 16 := rfl

theorem tnodeSpan_succ (n : ℕ) : tnodeSpan (n + 1) = tnodeSpan n * 8 := by
  simp only [tnodeSpan, Nat.pow_succ]
  omega

theorem tnodeSpan_pos (n : ℕ) : 0 < tnodeSpan n := by
  unfold tnodeSpan
  positivity

theorem tnodeSpan_mono {m n : ℕ} (h : m ≤ n) : tnodeSpan m ≤ tnodeSpan n :=
  Nat.mul_le_mul_left _ (Nat.pow_le_pow_right (by omega) h)

theorem tnodeSlot_eq_iff {n k k' : ℕ} :
    tnodeSlot n k = tnodeSlot n k' ↔ k / tnodeSpan n % 8 = k' / tnodeSpan n % 8 := by
  simp [tnodeSlot, Fin.ext_iff, Fin.ofNat]

/-- Two chunks share a position of a tree if they share the slot and the position below. -/
theorem mod_tnodeSpan_succ {n k m : ℕ} : k % tnodeSpan (n + 1) = m % tnodeSpan (n + 1) ↔
    tnodeSlot n k = tnodeSlot n m ∧ k % tnodeSpan n = m % tnodeSpan n := by
  have hpos := tnodeSpan_pos n
  rw [tnodeSpan_succ, Nat.mod_mul, Nat.mod_mul, tnodeSlot_eq_iff]
  constructor
  · intro h
    have h1 : k % tnodeSpan n = m % tnodeSpan n := by
      have := congrArg (· % tnodeSpan n) h
      simpa using this
    refine ⟨?_, h1⟩
    rw [h1, Nat.add_left_cancel_iff] at h
    exact Nat.eq_of_mul_eq_mul_left hpos h
  · rintro ⟨h1, h2⟩
    rw [h1, h2]

theorem tnodeSlot_of_lt {n k : ℕ} (hs : k < tnodeSpan n) : tnodeSlot n k = 0 := by
  simp [tnodeSlot, Nat.div_eq_of_lt hs]

theorem tnodeSlot_ne_zero {n k : ℕ} (h : tnodeSpan n ≤ k) (hs : k < tnodeSpan (n + 1)) :
    tnodeSlot n k ≠ 0 := by
  rw [tnodeSpan_succ] at hs
  have h1 : k / tnodeSpan n < 8 := Nat.div_lt_of_lt_mul hs
  have h2 : 0 < k / tnodeSpan n := Nat.div_pos h (tnodeSpan_pos _)
  simp only [tnodeSlot, ne_eq, Fin.ext_iff, Fin.ofNat, Fin.val_zero]
  omega

namespace Tnode

variable {n k k' v : ℕ}

theorem find_empty (n k : ℕ) : find n (empty n) k = if n = 0 then some 0 else none := by
  cases n <;> simp [find]

theorem entry_empty (n k : ℕ) : entry n (empty n) k = 0 := by
  unfold entry
  rw [find_empty]
  split_ifs <;> rfl

/-- Loading `k` changes what is found at the position of `k` only. -/
theorem find_load (n : ℕ) (t : Tnode n) (k v k' : ℕ) : find n (load n t k v) k' =
    if k' % tnodeSpan n = k % tnodeSpan n then (find n t k').map fun _ => v else find n t k' := by
  induction n with
  | zero =>
    have hi : (Fin.ofNat 16 k' = Fin.ofNat 16 k) ↔ k' % tnodeSpan 0 = k % tnodeSpan 0 := by
      simp [Fin.ext_iff, Fin.ofNat, tnodeSpan_zero]
    simp only [find, load, group_setGroup, hi, Option.map_some]
    split_ifs <;> rfl
  | succ n ih =>
    simp only [find, load, internal_setInternal, mod_tnodeSpan_succ]
    by_cases hs : tnodeSlot n k' = tnodeSlot n k
    · rw [if_pos hs, hs]
      cases t.internal (tnodeSlot n k) with
      | none => simp
      | some t' => simp [ih]
    · simp [hs]

end Tnode

theorem requiredDepthLoop_le_iff {n x : ℕ} (fuel : ℕ) (hx : x < 8 ^ fuel) :
    requiredDepthLoop fuel x ≤ n ↔ x < 8 ^ n := by
  induction fuel generalizing n x with
  | zero =>
    obtain rfl : x = 0 := by simpa using hx
    simp [requiredDepthLoop]
  | succ fuel ih =>
    unfold requiredDepthLoop
    split_ifs with h0
    · simp [h0]
    · have hx' : x / 8 < 8 ^ fuel := by
        rw [Nat.pow_succ] at hx
        omega
      cases n with
      | zero => simp [h0]
      | succ n =>
        rw [Nat.add_le_add_iff_right, ih hx', Nat.pow_succ]
        omega

/-- A chunk has its place in every tree of its required depth. -/
theorem requiredDepth_le_iff {n k : ℕ} (hk : k ≤ maxChunkId) :
    requiredDepth k ≤ n ↔ k < tnodeSpan n := by
  have hk' : k / 16 < 8 ^ 32 := by
    simp only [maxChunkId] at hk
    omega
  rw [requiredDepth, requiredDepthLoop_le_iff 32 hk', tnodeSpan]
  omega

namespace FileVar

variable {f : FileVar} {k k' v : ℕ}

/-- `k` has a level-0 tnode. -/
def Has (f : FileVar) (k : ℕ) : Prop :=
  f.find k ≠ none

theorem find_of_lt (hl : f.topLevel ≤ tnodesMaxLevel) (hk : k ≤ maxChunkId)
    (hs : k < tnodeSpan f.topLevel) : f.find k = f.top.bind fun t => t.find f.topLevel k := by
  have := (requiredDepth_le_iff hk).mpr hs
  unfold find
  rw [if_neg (by omega), if_neg (by omega), if_neg (by omega)]

/-- Where a tree has a level-0 tnode. -/
theorem Has.bounds (h : f.Has k) :
    f.topLevel ≤ tnodesMaxLevel ∧ k ≤ maxChunkId ∧ k < tnodeSpan f.topLevel := by
  unfold Has find at h
  split_ifs at h with h1 h2 h3
  all_goals first | exact absurd rfl h | skip
  exact ⟨by omega, by omega, (requiredDepth_le_iff (by omega)).mp (by omega)⟩

theorem has_of_entry (h : f.entry k ≠ 0) : f.Has k := by
  intro hn
  simp [entry, hn] at h

theorem find_load (h : f.Has k) (k' v : ℕ) :
    (f.load k v).find k' = if k' = k then some v else f.find k' := by
  obtain ⟨hl, hk, hs⟩ := h.bounds
  have heq := find_of_lt hl hk hs
  by_cases hb : k' ≤ maxChunkId ∧ k' < tnodeSpan f.topLevel
  · rw [find_of_lt (f := f.load k v) hl hb.1 hb.2, find_of_lt hl hb.1 hb.2]
    unfold Has at h
    rw [heq] at h
    simp only [load]
    cases ht : f.top with
    | none => simp [ht] at h
    | some t =>
      simp only [ht, Option.bind_some] at h
      simp only [Option.map_some, Option.bind_some, Tnode.find_load, Nat.mod_eq_of_lt hs,
        Nat.mod_eq_of_lt hb.2]
      split_ifs with hkk
      · subst hkk
        cases hf : t.find f.topLevel k' with
        | none => exact absurd hf h
        | some x => rfl
      · rfl
  · have hne : k' ≠ k := fun h0 => hb (h0 ▸ ⟨hk, hs⟩)
    have hout : ∀ f' : FileVar, f'.topLevel = f.topLevel → f'.find k' = none := by
      intro f' hf'
      by_contra hh
      have := Has.bounds (f := f') (k := k') hh
      rw [hf'] at this
      exact hb this.2
    rw [hout (f.load k v) rfl, hout f rfl, if_neg hne]

theorem entry_load (h : f.Has k) (k' v : ℕ) :
    (f.load k v).entry k' = if k' = k then v else f.entry k' := by
  unfold entry
  rw [find_load h]
  split_ifs <;> rfl

end FileVar

/-! ## Adding tnodes -/

/-- `d'` differs from `d` at most in the tnode count and the number of calls answered. -/
def CountsOnly (d d' : BlockDev) : Prop :=
  ∃ n t, d' = { d with nand := { d.nand with calls := n }, nTnodes := t }

namespace CountsOnly

variable {d d' d'' : BlockDev} {e : Env}

theorem refl (d : BlockDev) : CountsOnly d d :=
  ⟨d.nand.calls, d.nTnodes, rfl⟩

theorem trans (h : CountsOnly d d') (h' : CountsOnly d' d'') : CountsOnly d d'' := by
  obtain ⟨n, t, rfl⟩ := h
  obtain ⟨n', t', rfl⟩ := h'
  exact ⟨n', t', rfl⟩

theorem getTnode : CountsOnly d (getTnode e d).1 :=
  ⟨_, _, rfl⟩

theorem freeTnode : CountsOnly d (freeTnode d) :=
  ⟨d.nand.calls, _, rfl⟩

end CountsOnly

namespace Tnode

variable {e : Env}

/-- Adding tnodes changes nothing that is held. -/
theorem addFind_spec (n : ℕ) (t : Tnode n) (k : ℕ) (d : BlockDev) :
    CountsOnly d (addFind e n t k d).1 ∧
    (∀ k', entry n (addFind e n t k d).2.1 k' = entry n t k') ∧
    ((addFind e n t k d).2.2 = true → find n (addFind e n t k d).2.1 k ≠ none) := by
  induction n generalizing d with
  | zero => exact ⟨CountsOnly.refl d, fun _ => rfl, fun _ => by simp [addFind, find]⟩
  | succ n ih =>
    unfold addFind
    cases hc : t.internal (tnodeSlot n k) with
    | some t' =>
      obtain ⟨h1, h2, h3⟩ := ih t' d
      refine ⟨h1, fun k' => ?_, fun hok => by simpa [find] using h3 hok⟩
      simp only [entry, find, internal_setInternal]
      split_ifs with hs
      · rw [hs, hc]
        exact h2 k'
      · rfl
    | none =>
      simp only
      split_ifs with hok
      · obtain ⟨h1, h2, h3⟩ := ih (empty n) (getTnode e d).1
        refine ⟨CountsOnly.getTnode.trans h1, fun k' => ?_, fun hok => by simpa [find] using h3 hok⟩
        simp only [entry, find, internal_setInternal]
        split_ifs with hs
        · rw [hs, hc]
          exact (h2 k').trans (entry_empty n k')
        · rfl
      · exact ⟨CountsOnly.getTnode, fun _ => rfl, fun h => absurd h (by simp)⟩

theorem setInternal_self {n : ℕ} {t : Tnode (n + 1)} {i : Fin 8} {c : Option (Tnode n)}
    (h : t.internal i = c) : t.setInternal i c = t := by
  funext j
  unfold setInternal
  split_ifs with hj
  · rw [hj, ← h]
    rfl
  · rfl

/-- Where there is a level-0 tnode, nothing is added. -/
theorem addFind_of_find (n : ℕ) (t : Tnode n) (k : ℕ) (d : BlockDev) (h : find n t k ≠ none) :
    addFind e n t k d = (d, t, true) := by
  induction n with
  | zero => rfl
  | succ n ih =>
    cases ht : t.internal (tnodeSlot n k) with
    | none => simp [find, ht] at h
    | some t' =>
      have hfind : find n t' k ≠ none := by simpa [find, ht] using h
      simp only [addFind, ht, ih t' hfind]
      rw [setInternal_self ht]

/-- With memory for every tnode, adding succeeds. -/
theorem addFind_ok (he : ∀ n, e.allocOk n = true) (n : ℕ) (t : Tnode n) (k : ℕ) (d : BlockDev) :
    (addFind e n t k d).2.2 = true := by
  induction n generalizing d with
  | zero => rfl
  | succ n ih =>
    unfold addFind
    cases t.internal (tnodeSlot n k) with
    | some t' => exact ih t' d
    | none =>
      simp only [getTnode, he, if_true]
      exact ih _ _

end Tnode

namespace FileVar

variable {e : Env} {f : FileVar} {k : ℕ} {d : BlockDev}

/-- The first tnode of every level is there, so that a file never loses its top. -/
def Rooted : (n : ℕ) → Option (Tnode n) → Prop
  | _, none => False
  | 0, some _ => True
  | n + 1, some t => Rooted n (t.internal 0)

theorem entry_raise (hl : f.topLevel < tnodesMaxLevel) (k : ℕ) : f.raise.entry k = f.entry k := by
  by_cases hk : k ≤ maxChunkId
  · by_cases hs : k < tnodeSpan (f.topLevel + 1)
    · unfold entry
      rw [find_of_lt (f := f.raise) hl hk hs]
      simp only [raise, Option.bind_some, Tnode.find, Tnode.internal_setInternal,
        Tnode.internal_empty]
      by_cases hs' : k < tnodeSpan f.topLevel
      · rw [find_of_lt hl.le hk hs']
        simp [tnodeSlot_of_lt hs']
      · have hslot := tnodeSlot_ne_zero (Nat.le_of_not_lt hs') hs
        have hout : f.find k = none := by
          by_contra hh
          exact hs' (Has.bounds hh).2.2
        simp [hslot, hout]
    · have hout : ∀ f' : FileVar, f'.topLevel ≤ f.topLevel + 1 → f'.find k = none := by
        intro f' hf'
        by_contra hh
        have := (Has.bounds hh).2.2
        exact hs (this.trans_le (tnodeSpan_mono hf'))
      simp [entry, hout f.raise le_rfl, hout f (Nat.le_succ _)]
  · have hout : ∀ f' : FileVar, f'.find k = none := fun f' => by
      by_contra hh
      exact hk (Has.bounds hh).2.1
    simp [entry, hout]

theorem rooted_raise (h : Rooted f.topLevel f.top) : Rooted f.raise.topLevel f.raise.top := by
  simpa [raise, Rooted] using h

/-- What a change of a file's tree may not touch. -/
structure SameFile (f f' : FileVar) : Prop where
  fileSize : f'.fileSize = f.fileSize
  storedSize : f'.storedSize = f.storedSize
  shrinkSize : f'.shrinkSize = f.shrinkSize

theorem SameFile.refl (f : FileVar) : SameFile f f :=
  ⟨rfl, rfl, rfl⟩

theorem SameFile.trans {f f' f'' : FileVar} (h : SameFile f f') (h' : SameFile f' f'') :
    SameFile f f'' :=
  ⟨h'.fileSize.trans h.fileSize, h'.storedSize.trans h.storedSize, h'.shrinkSize.trans h.shrinkSize⟩

theorem grow_spec (n : ℕ) (f : FileVar) (d : BlockDev) (hl : f.topLevel + n ≤ tnodesMaxLevel) :
    CountsOnly d (grow e n f d).1 ∧ SameFile f (grow e n f d).2.1 ∧
    (∀ k, (grow e n f d).2.1.entry k = f.entry k) ∧
    (grow e n f d).2.1.topLevel ≤ f.topLevel + n ∧
    (Rooted f.topLevel f.top → Rooted (grow e n f d).2.1.topLevel (grow e n f d).2.1.top) ∧
    ((grow e n f d).2.2 = true → (grow e n f d).2.1.topLevel = f.topLevel + n) := by
  induction n generalizing f d with
  | zero => exact ⟨CountsOnly.refl d, SameFile.refl f, fun _ => rfl, le_rfl, fun h => h, fun _ => rfl⟩
  | succ n ih =>
    by_cases hok : (getTnode e d).2 = true
    · have hg : grow e (n + 1) f d = grow e n f.raise (getTnode e d).1 := by simp [grow, hok]
      have hraise : f.raise.topLevel = f.topLevel + 1 := rfl
      have hsame : SameFile f f.raise := ⟨rfl, rfl, rfl⟩
      obtain ⟨h1, h2, h3, h4, h5, h6⟩ := ih f.raise (getTnode e d).1 (by omega)
      rw [hg]
      exact ⟨CountsOnly.getTnode.trans h1, hsame.trans h2,
        fun k => (h3 k).trans (entry_raise (by omega) k), by omega, fun h => h5 (rooted_raise h),
        fun h => by rw [h6 h]; omega⟩
    · have hg : grow e (n + 1) f d = ((getTnode e d).1, f, false) := by simp [grow, hok]
      rw [hg]
      exact ⟨CountsOnly.getTnode, SameFile.refl f, fun _ => rfl, Nat.le_add_right _ _, fun h => h,
        fun h => absurd h (by simp)⟩

theorem rooted_addFind (n : ℕ) (t : Tnode n) (k : ℕ) (d : BlockDev) (h : Rooted n (some t)) :
    Rooted n (some (t.addFind e n k d).2.1) := by
  induction n generalizing d with
  | zero => trivial
  | succ n ih =>
    unfold Tnode.addFind
    cases hc : t.internal (tnodeSlot n k) with
    | some t' =>
      simp only [Rooted, Tnode.internal_setInternal]
      split_ifs with hs
      · rw [Rooted, hs, hc] at h
        exact ih t' d h
      · exact h
    | none =>
      have hs : (0 : Fin 8) ≠ tnodeSlot n k := by
        intro hs
        rw [Rooted, hs, hc] at h
        cases n <;> exact h
      simp only
      split_ifs
      · simpa only [Rooted, Tnode.internal_setInternal, if_neg hs] using h
      · exact h

theorem rooted_load (n : ℕ) (t : Option (Tnode n)) (k v : ℕ) (h : Rooted n t) :
    Rooted n (t.map fun t => t.load n k v) := by
  induction n with
  | zero => cases t <;> trivial
  | succ n ih =>
    cases t with
    | none => exact h
    | some t =>
      simp only [Option.map_some, Tnode.load, Rooted, Tnode.internal_setInternal] at h ⊢
      split_ifs with hs
      · rw [← hs]
        exact ih _ h
      · exact h

/-- A file's tree is no taller than the source allows, and rooted. -/
structure Sound (f : FileVar) : Prop where
  level : f.topLevel ≤ tnodesMaxLevel
  rooted : Rooted f.topLevel f.top

theorem Rooted.top {n : ℕ} {t : Option (Tnode n)} (h : Rooted n t) : ∃ t', t = some t' := by
  cases t with
  | none => cases n <;> exact h.elim
  | some t => exact ⟨t, rfl⟩

theorem Sound.load (h : f.Sound) (k v : ℕ) : (f.load k v).Sound :=
  ⟨h.level, rooted_load _ _ _ _ h.rooted⟩

theorem requiredDepth_le_max (hk : k ≤ maxChunkId) : requiredDepth k ≤ tnodesMaxLevel := by
  rw [requiredDepth_le_iff hk]
  have : tnodeSpan tnodesMaxLevel = maxChunkId + 1 := by decide
  omega

/-- `yaffs_add_find_tnode_0` leaves what the tree holds, and gives `k` its tnode. -/
structure Added (f f' : FileVar) : Prop where
  same : SameFile f f'
  entry : ∀ k, f'.entry k = f.entry k
  level : f.topLevel ≤ tnodesMaxLevel → f'.topLevel ≤ tnodesMaxLevel
  rooted : Rooted f.topLevel f.top → Rooted f'.topLevel f'.top

theorem Added.refl (f : FileVar) : Added f f :=
  ⟨SameFile.refl f, fun _ => rfl, fun h => h, fun h => h⟩

theorem Added.trans {f f' f'' : FileVar} (h : Added f f') (h' : Added f' f'') : Added f f'' :=
  ⟨h.same.trans h'.same, fun k => (h'.entry k).trans (h.entry k), fun hl => h'.level (h.level hl),
    fun hr => h'.rooted (h.rooted hr)⟩

theorem Added.sound {f f' : FileVar} (h : Added f f') (hf : f.Sound) : f'.Sound :=
  ⟨h.level hf.level, h.rooted hf.rooted⟩

theorem descend_spec (f : FileVar) (d : BlockDev) (hk : k ≤ maxChunkId)
    (hl : f.topLevel ≤ tnodesMaxLevel) (hspan : k < tnodeSpan f.topLevel) :
    CountsOnly d (descend e f k d).1 ∧ Added f (descend e f k d).2.1 ∧
    ((descend e f k d).2.2 = true → (descend e f k d).2.1.Has k) := by
  cases ht : f.top with
  | none =>
    rw [show descend e f k d = (d, f, false) by simp [descend, ht]]
    exact ⟨CountsOnly.refl d, Added.refl f, by simp⟩
  | some t =>
    obtain ⟨q1, q2, q3⟩ := Tnode.addFind_spec (e := e) f.topLevel t k d
    rw [show descend e f k d = ((t.addFind e f.topLevel k d).1,
      { f with top := some (t.addFind e f.topLevel k d).2.1 },
      (t.addFind e f.topLevel k d).2.2) by simp [descend, ht]]
    refine ⟨q1, ⟨⟨rfl, rfl, rfl⟩, fun k' => ?_, fun h => h, fun hr => ?_⟩, fun hq => ?_⟩
    · unfold FileVar.entry FileVar.find
      simp only [ht, Option.bind_some]
      split_ifs <;> first | rfl | exact q2 k'
    · refine rooted_addFind _ t k d ?_
      rw [← ht]
      exact hr
    · unfold Has
      rw [find_of_lt (f := { f with top := some (t.addFind e f.topLevel k d).2.1 }) hl hk hspan]
      simpa using q3 hq

theorem addFind_spec (f : FileVar) (k : ℕ) (d : BlockDev) :
    CountsOnly d (addFind e f k d).1 ∧ Added f (addFind e f k d).2.1 ∧
    ((addFind e f k d).2.2 = true → (addFind e f k d).2.1.Has k) := by
  by_cases hl : tnodesMaxLevel < f.topLevel
  · rw [show addFind e f k d = (d, f, false) by simp [addFind, hl]]
    exact ⟨CountsOnly.refl d, Added.refl f, by simp⟩
  by_cases hk : maxChunkId < k
  · rw [show addFind e f k d = (d, f, false) by simp [addFind, hk]]
    exact ⟨CountsOnly.refl d, Added.refl f, by simp⟩
  have hdepth := requiredDepth_le_max (k := k) (by omega)
  obtain ⟨h1, h2, h3, h4, h5, h6⟩ := grow_spec (e := e) (requiredDepth k - f.topLevel) f d (by omega)
  have hadd : Added f (grow e (requiredDepth k - f.topLevel) f d).2.1 :=
    ⟨h2, h3, fun _ => by omega, h5⟩
  cases hok : (grow e (requiredDepth k - f.topLevel) f d).2.2 with
  | false =>
    rw [show addFind e f k d = grow e (requiredDepth k - f.topLevel) f d by simp [addFind, hl, hk, hok]]
    exact ⟨h1, hadd, fun h => by simp [hok] at h⟩
  | true =>
    have hlevel := h6 hok
    rw [show addFind e f k d = descend e (grow e (requiredDepth k - f.topLevel) f d).2.1 k
      (grow e (requiredDepth k - f.topLevel) f d).1 by simp [addFind, hl, hk, hok]]
    obtain ⟨q1, q2, q3⟩ := descend_spec (e := e) (k := k)
      (grow e (requiredDepth k - f.topLevel) f d).2.1 (grow e (requiredDepth k - f.topLevel) f d).1
      (by omega) (by omega) ((requiredDepth_le_iff (by omega)).mp (by omega))
    exact ⟨h1.trans q1, hadd.trans q2, q3⟩

theorem grow_ok (he : ∀ n, e.allocOk n = true) (n : ℕ) (f : FileVar) (d : BlockDev) :
    (grow e n f d).2.2 = true := by
  induction n generalizing f d with
  | zero => rfl
  | succ n ih =>
    simp only [grow, getTnode, he, if_true]
    exact ih _ _

/-- A chunk that has its tnode needs no other. -/
theorem addFind_of_has (h : f.Has k) (d : BlockDev) : addFind e f k d = (d, f, true) := by
  obtain ⟨hl, hk, hs⟩ := h.bounds
  have hdepth := (requiredDepth_le_iff hk).mpr hs
  unfold Has at h
  rw [find_of_lt hl hk hs] at h
  obtain ⟨t, ht, hfind⟩ : ∃ t, f.top = some t ∧ t.find f.topLevel k ≠ none := by
    cases ht : f.top with
    | none => simp [ht] at h
    | some t => exact ⟨t, rfl, by simpa [ht] using h⟩
  have hadd := Tnode.addFind_of_find (e := e) f.topLevel t k d hfind
  rw [addFind, if_neg hl.not_gt, if_neg hk.not_gt, Nat.sub_eq_zero_of_le hdepth]
  simp only [grow, if_true, descend, ht, hadd]
  rw [← ht]

/-- With memory for every tnode, a chunk of a sound file gets its tnode. -/
theorem addFind_ok (he : ∀ n, e.allocOk n = true) (hf : f.Sound) (hk : k ≤ maxChunkId)
    (d : BlockDev) : (addFind e f k d).2.2 = true := by
  have hl := hf.level
  have hdepth := requiredDepth_le_max hk
  have hok := grow_ok he (requiredDepth k - f.topLevel) f d
  obtain ⟨-, -, -, -, h5, -⟩ := grow_spec (e := e) (requiredDepth k - f.topLevel) f d (by omega)
  obtain ⟨t, ht⟩ := (h5 hf.rooted).top
  rw [show addFind e f k d = descend e (grow e (requiredDepth k - f.topLevel) f d).2.1 k
    (grow e (requiredDepth k - f.topLevel) f d).1 by simp [addFind, hl.not_gt, hk.not_gt, hok]]
  unfold descend
  rw [ht]
  exact Tnode.addFind_ok he _ _ _ _

end FileVar

/-! ## Pruning -/

namespace Tnode

/-- What is held for `k` below a place that may have no tnode. -/
def subEntry (n : ℕ) (c : Option (Tnode n)) (k : ℕ) : ℕ :=
  (c.bind fun t => find n t k).getD 0

theorem entry_succ (n : ℕ) (t : Tnode (n + 1)) (k : ℕ) :
    entry (n + 1) t k = subEntry n (t.internal (tnodeSlot n k)) k := rfl

theorem entry_setInternal {n : ℕ} (t : Tnode (n + 1)) (i : Fin 8) (c : Option (Tnode n))
    (h : ∀ k, subEntry n c k = subEntry n (t.internal i) k) (k : ℕ) :
    entry (n + 1) (t.setInternal i c) k = entry (n + 1) t k := by
  simp only [entry_succ, internal_setInternal]
  split_ifs with hs
  · rw [h, hs]
  · rfl

/-- What pruning below `t` keeps. -/
structure Pruned (n : ℕ) (t : Tnode n) (del0 : Bool) (d : BlockDev)
    (r : BlockDev × Option (Tnode n)) : Prop where
  counts : CountsOnly d r.1
  entry : ∀ k, subEntry n r.2 k = entry n t k
  rooted : del0 = false → FileVar.Rooted n (some t) → FileVar.Rooted n r.2

theorem pruneSlot_spec {n : ℕ} {worker : Tnode n → Bool → BlockDev → BlockDev × Option (Tnode n)}
    (hw : ∀ t del0 d, Pruned n t del0 d (worker t del0 d)) {t : Tnode (n + 1)} {del0 : Bool}
    {d : BlockDev} {r : BlockDev × Tnode (n + 1)} (hr : Pruned (n + 1) t del0 d (r.1, some r.2))
    (i : Fin 8) : Pruned (n + 1) t del0 d
      ((pruneSlot worker del0 r i).1, some (pruneSlot worker del0 r i).2) := by
  unfold pruneSlot
  cases hc : r.2.internal i with
  | none => exact hr
  | some t' =>
    have hq := hw t' (if i = 0 then del0 else true) r.1
    refine ⟨hr.counts.trans hq.counts, fun k => ?_, fun h0 hroot => ?_⟩
    · rw [← hr.entry k]
      refine entry_setInternal r.2 i _ (fun k => ?_) k
      rw [hq.entry, hc]
      rfl
    · have hold : FileVar.Rooted n (r.2.internal 0) := hr.rooted h0 hroot
      by_cases hi : i = 0
      · subst hi
        rw [hc] at hold
        simpa [FileVar.Rooted] using hq.rooted (by simp [h0]) hold
      · simpa [FileVar.Rooted, Ne.symm hi] using hold

theorem pruneWorker_spec (n : ℕ) (t : Tnode n) (del0 : Bool) (d : BlockDev) :
    Pruned n t del0 d (pruneWorker n t del0 d) := by
  induction n generalizing del0 d with
  | zero =>
    unfold pruneWorker
    split_ifs with h
    · exact ⟨CountsOnly.freeTnode, fun k => by simp [subEntry, entry, find, h.1], fun h0 => by simp [h0] at h⟩
    · exact ⟨CountsOnly.refl d, fun _ => rfl, fun _ h => h⟩
  | succ n ih =>
    have hloop := List.foldlRecOn
      (motive := fun r : BlockDev × Tnode (n + 1) => Pruned (n + 1) t del0 d (r.1, some r.2))
      (List.finRange 8) (pruneSlot (fun t b d => pruneWorker n t b d) del0) (b := (d, t))
      ⟨CountsOnly.refl d, fun _ => rfl, fun _ h => h⟩
      fun r hr i _ => pruneSlot_spec (fun t del0 d => ih t del0 d) hr i
    unfold pruneWorker
    simp only
    split_ifs with h
    · refine ⟨hloop.counts.trans CountsOnly.freeTnode, fun k => ?_, fun h0 => by simp [h0] at h⟩
      rw [← hloop.entry k]
      have hnone := h.1 (tnodeSlot n k)
      rw [Option.isNone_iff_eq_none] at hnone
      simp [subEntry, find, hnone]
    · exact hloop

end Tnode

namespace FileVar

variable {f : FileVar} {k : ℕ} {d : BlockDev}

/-- What a tree of level `n` holds for `k`. -/
def treeEntry (n : ℕ) (c : Option (Tnode n)) (k : ℕ) : ℕ :=
  if k < tnodeSpan n then Tnode.subEntry n c k else 0

theorem entry_eq (hl : f.topLevel ≤ tnodesMaxLevel) (hk : k ≤ maxChunkId) :
    f.entry k = treeEntry f.topLevel f.top k := by
  unfold entry treeEntry
  split_ifs with hs
  · rw [find_of_lt hl hk hs]
    rfl
  · have hout : f.find k = none := by
      by_contra hh
      exact hs (Has.bounds hh).2.2
    rw [hout]
    rfl

theorem entry_of_gt (hk : maxChunkId < k) : f.entry k = 0 := by
  have hout : f.find k = none := by
    by_contra hh
    exact absurd (Has.bounds hh).2.1 (by omega)
  rw [entry, hout]
  rfl

/-- A tree with one slot in use holds what is below that slot. -/
theorem treeEntry_succ {n : ℕ} {t : Tnode (n + 1)} (h : ∀ i, i ≠ 0 → (t.internal i).isNone) (k : ℕ) :
    treeEntry (n + 1) (some t) k = treeEntry n (t.internal 0) k := by
  unfold treeEntry
  have hmono := tnodeSpan_mono (Nat.le_succ n)
  by_cases hs : k < tnodeSpan n
  · rw [if_pos (hs.trans_le hmono), if_pos hs]
    simp [Tnode.subEntry, Tnode.find, tnodeSlot_of_lt hs]
  · rw [if_neg hs]
    split_ifs with hs'
    · have hnone := h _ (tnodeSlot_ne_zero (by omega) hs')
      rw [Option.isNone_iff_eq_none] at hnone
      simp [Tnode.subEntry, Tnode.find, hnone]
    · rfl

theorem lower_spec (n : ℕ) (t : Tnode n) (d : BlockDev) :
    CountsOnly d (lower n t d).1 ∧ (lower n t d).2.1 ≤ n ∧
    (Rooted n (some t) → Rooted (lower n t d).2.1 (lower n t d).2.2) ∧
    ∀ k, treeEntry (lower n t d).2.1 (lower n t d).2.2 k = treeEntry n (some t) k := by
  induction n generalizing d with
  | zero => exact ⟨CountsOnly.refl d, le_rfl, fun h => h, fun _ => rfl⟩
  | succ n ih =>
    by_cases h : ∀ i, i ≠ 0 → (t.internal i).isNone
    · cases hc : t.internal 0 with
      | none =>
        have heq : lower (n + 1) t d = (freeTnode d, ⟨n, none⟩) := by rw [lower, if_pos h, hc]
        rw [heq]
        refine ⟨CountsOnly.freeTnode, Nat.le_succ n, fun hr => ?_, fun k => ?_⟩
        · rw [Rooted, hc] at hr
          cases n <;> exact hr.elim
        · rw [treeEntry_succ h, hc]
      | some t' =>
        have heq : lower (n + 1) t d = lower n t' (freeTnode d) := by
          rw [lower, if_pos h, hc]
        obtain ⟨h1, h2, h3, h4⟩ := ih t' (freeTnode d)
        rw [heq]
        refine ⟨CountsOnly.freeTnode.trans h1, h2.trans (Nat.le_succ n), fun hr => h3 ?_, fun k => ?_⟩
        · rw [Rooted, hc] at hr
          exact hr
        · rw [h4, treeEntry_succ h, hc]
    · have heq : lower (n + 1) t d = (d, ⟨n + 1, some t⟩) := by rw [lower, if_neg h]
      rw [heq]
      exact ⟨CountsOnly.refl d, le_rfl, fun h => h, fun _ => rfl⟩

/-- `yaffs_prune_tree` takes away tnodes that hold nothing. -/
theorem prune_spec (f : FileVar) (hl : f.topLevel ≤ tnodesMaxLevel) (d : BlockDev) :
    CountsOnly d (prune f d).1 ∧ Added f (prune f d).2 := by
  unfold prune
  split_ifs with h0
  · exact ⟨CountsOnly.refl d, Added.refl f⟩
  cases ht : f.top with
  | none => exact ⟨CountsOnly.refl d, Added.refl f⟩
  | some t =>
    have hw := Tnode.pruneWorker_spec f.topLevel t false d
    simp only
    generalize hr : t.pruneWorker f.topLevel false d = r at *
    obtain ⟨d1, top1⟩ := r
    cases top1 with
    | none =>
      refine ⟨hw.counts, ⟨rfl, rfl, rfl⟩, fun k => ?_, fun h => h, fun hroot => ?_⟩
      · by_cases hk : k ≤ maxChunkId
        · rw [entry_eq (f := { f with top := none }) hl hk, entry_eq hl hk, ht]
          unfold treeEntry
          split_ifs
          · exact hw.entry k
          · rfl
        · rw [entry_of_gt (by omega), entry_of_gt (by omega)]
      · exact hw.rooted rfl (ht ▸ hroot)
    | some t' =>
      obtain ⟨l1, l2, l3, l4⟩ := lower_spec f.topLevel t' d1
      have hlevel := l2.trans hl
      refine ⟨hw.counts.trans l1, ⟨rfl, rfl, rfl⟩, fun k => ?_, fun _ => hlevel, fun hroot => ?_⟩
      · by_cases hk : k ≤ maxChunkId
        · rw [entry_eq hlevel hk, entry_eq hl hk, l4, ht]
          unfold treeEntry
          split_ifs
          · exact hw.entry k
          · rfl
        · rw [entry_of_gt (by omega), entry_of_gt (by omega)]
      · exact l3 (hw.rooted rfl (ht ▸ hroot))

end FileVar

/-! ## Soft deletion -/

/-- What `yaffs_soft_del_chunk` does to the chunks `cs`, one after the other. -/
def softDelChunks (g : Geometry) (cs : List ℕ) (d : BlockDev) : BlockDev :=
  cs.foldl (fun d c => softDelChunk g c d) d

theorem updateOldestDirtySeq_nTnodes (g : Geometry) (b t : ℕ) (d : BlockDev) :
    updateOldestDirtySeq g b { d with nTnodes := t } =
      { updateOldestDirtySeq g b d with nTnodes := t } := by
  unfold updateOldestDirtySeq
  dsimp only
  split_ifs <;> rfl

theorem softDelChunk_nTnodes (g : Geometry) (c t : ℕ) (d : BlockDev) :
    softDelChunk g c { d with nTnodes := t } = { softDelChunk g c d with nTnodes := t } :=
  updateOldestDirtySeq_nTnodes g _ t
    { d.modBlock (c / g.chunksPerBlock) fun bi => { bi with softDelPages := bi.softDelPages + 1 } with
      nFreeChunks := d.nFreeChunks + 1 }

theorem softDelChunks_nTnodes (g : Geometry) (cs : List ℕ) (t : ℕ) (d : BlockDev) :
    softDelChunks g cs { d with nTnodes := t } = { softDelChunks g cs d with nTnodes := t } := by
  induction cs generalizing d with
  | nil => rfl
  | cons c cs ih =>
    simp only [softDelChunks, List.foldl_cons] at ih ⊢
    rw [softDelChunk_nTnodes, ih]

theorem softDelChunks_append (g : Geometry) (cs cs' : List ℕ) (d : BlockDev) :
    softDelChunks g (cs ++ cs') d = softDelChunks g cs' (softDelChunks g cs d) :=
  List.foldl_append

/-- `d'` is `d` after the soft deletion of `cs` and the freeing of some tnodes. -/
def SoftDeleted (g : Geometry) (cs : List ℕ) (d d' : BlockDev) : Prop :=
  ∃ t, d' = { softDelChunks g cs d with nTnodes := t }

namespace SoftDeleted

variable {g : Geometry} {cs cs' : List ℕ} {d d' d'' : BlockDev}

theorem refl (d : BlockDev) : SoftDeleted g [] d d :=
  ⟨d.nTnodes, rfl⟩

theorem trans (h : SoftDeleted g cs d d') (h' : SoftDeleted g cs' d' d'') :
    SoftDeleted g (cs ++ cs') d d'' := by
  obtain ⟨t, rfl⟩ := h
  obtain ⟨t', rfl⟩ := h'
  exact ⟨t', by rw [softDelChunks_append, softDelChunks_nTnodes]⟩

theorem freeTnode (h : SoftDeleted g cs d d') : SoftDeleted g cs d (freeTnode d') := by
  obtain ⟨t, rfl⟩ := h
  exact ⟨t - 1, rfl⟩

end SoftDeleted

namespace Tnode

variable {g : Geometry} {base : ℕ → ℕ} {n : ℕ}

/-- The chunks of the file with what the tree holds for them, in the order of
`yaffs_soft_del_worker`; the tree stands at offset `off` among those of its level. -/
def held : (n : ℕ) → Tnode n → ℕ → List (ℕ × ℕ)
  | 0, t, off => (List.finRange 16).reverse.filterMap fun i =>
    if t.group i ≠ 0 then some (off * 16 + i, t.group i) else none
  | n + 1, t, off => (List.finRange 8).reverse.flatMap fun i =>
    match t.internal i with
    | some t' => held n t' (off * 8 + i)
    | none => []

theorem find_mod (n : ℕ) (t : Tnode n) (k : ℕ) : find n t (k % tnodeSpan n) = find n t k := by
  induction n generalizing k with
  | zero => simp [find, Fin.ofNat, tnodeSpan_zero]
  | succ n ih =>
    have hpos := tnodeSpan_pos n
    have h := mod_tnodeSpan_succ (n := n) (k := k % tnodeSpan (n + 1)) (m := k)
    rw [Nat.mod_mod] at h
    obtain ⟨h1, h2⟩ := h.mp rfl
    unfold find
    rw [h1]
    congr 1
    funext t'
    rw [← ih t' (k % tnodeSpan (n + 1)), h2, ih t' k]

theorem mem_held (n : ℕ) (t : Tnode n) (off k v : ℕ) : (k, v) ∈ held n t off ↔
    k / tnodeSpan n = off ∧ find n t k = some v ∧ v ≠ 0 := by
  induction n generalizing off with
  | zero =>
    simp only [held, List.mem_filterMap, List.mem_reverse, List.mem_finRange, true_and, find,
      tnodeSpan_zero]
    constructor
    · rintro ⟨i, hi⟩
      split_ifs at hi with h0
      obtain ⟨rfl, rfl⟩ := Prod.mk.inj (Option.some.inj hi)
      have hi16 : Fin.ofNat 16 (off * 16 + (i : ℕ)) = i := by
        ext
        simp only [Fin.ofNat]
        omega
      exact ⟨by omega, by rw [hi16], h0⟩
    · rintro ⟨rfl, hv, h0⟩
      have hv := Option.some.inj hv
      refine ⟨Fin.ofNat 16 k, ?_⟩
      rw [hv, if_pos h0]
      simp only [Fin.ofNat, Option.some.injEq, Prod.mk.injEq, and_true]
      omega
  | succ n ih =>
    have hpos := tnodeSpan_pos n
    simp only [held, List.mem_flatMap, List.mem_reverse, List.mem_finRange, true_and]
    have hdiv : k / tnodeSpan (n + 1) = k / tnodeSpan n / 8 := by
      rw [tnodeSpan_succ, Nat.div_div_eq_div_mul]
    constructor
    · rintro ⟨i, hi⟩
      cases hc : t.internal i with
      | none => simp [hc] at hi
      | some t' =>
        simp only [hc] at hi
        obtain ⟨h1, h2, h3⟩ := (ih t' _).mp hi
        have hslot : tnodeSlot n k = i := by
          ext
          simp only [tnodeSlot, Fin.ofNat]
          omega
        refine ⟨by omega, ?_, h3⟩
        rw [find, hslot, hc]
        exact h2
    · rintro ⟨h1, h2, h3⟩
      refine ⟨tnodeSlot n k, ?_⟩
      unfold find at h2
      cases hc : t.internal (tnodeSlot n k) with
      | none => simp [hc] at h2
      | some t' =>
        simp only [hc, Option.bind_some] at h2
        refine (ih t' _).mpr ⟨?_, h2, h3⟩
        simp only [tnodeSlot, Fin.ofNat]
        omega

theorem nodup_held (n : ℕ) (t : Tnode n) (off : ℕ) : (held n t off).Nodup := by
  induction n generalizing off with
  | zero =>
    refine List.Nodup.filterMap ?_ (List.nodup_reverse.mpr (List.nodup_finRange 16))
    intro i j p hi hj
    simp only [ne_eq, Option.mem_def] at hi hj
    split_ifs at hi hj
    obtain rfl := Option.some.inj hi
    obtain ⟨h1, -⟩ := Prod.mk.inj (Option.some.inj hj)
    ext
    omega
  | succ n ih =>
    rw [held, List.nodup_flatMap]
    refine ⟨fun i _ => ?_, ?_⟩
    · cases t.internal i with
      | none => simp
      | some t' => exact ih t' _
    · refine List.Nodup.pairwise_of_forall_ne (List.nodup_reverse.mpr (List.nodup_finRange 8)) ?_
      rintro i - j - hij ⟨k, v⟩ hi hj
      cases hci : t.internal i with
      | none => simp [hci] at hi
      | some ti =>
        cases hcj : t.internal j with
        | none => simp [hcj] at hj
        | some tj =>
          simp only [hci, hcj] at hi hj
          have h1 := ((mem_held n ti _ k v).mp hi).1
          have h2 := ((mem_held n tj _ k v).mp hj).1
          exact hij (by ext; omega)

/-- The chunks `yaffs_soft_del_worker` deletes. -/
def heldChunks (base : ℕ → ℕ) (l : List (ℕ × ℕ)) : List ℕ :=
  l.map fun kv => base kv.2

/-- What the loop over the slots `l` of a level-0 tnode does. -/
theorem foldl_softDelGroup (hbase : ∀ v, base v = 0 ↔ v = 0) (l : List (Fin 16)) (hl : l.Nodup)
    (off : ℕ) (t : Tnode 0) (d : BlockDev) :
    SoftDeleted g (heldChunks base (l.filterMap fun i =>
        if t.group i ≠ 0 then some (off * 16 + i, t.group i) else none)) d
      (l.foldl (softDelGroup g base) (d, t)).1 ∧
    ∀ i, (l.foldl (softDelGroup g base) (d, t)).2.group i = if i ∈ l then 0 else t.group i := by
  induction l generalizing t d with
  | nil => exact ⟨SoftDeleted.refl d, fun i => by simp⟩
  | cons i l ih =>
    obtain ⟨hi, hl⟩ := List.nodup_cons.mp hl
    rw [List.foldl_cons]
    by_cases h0 : t.group i = 0
    · have hstep : softDelGroup g base (d, t) i = (d, t) := by
        simp [softDelGroup, (hbase _).mpr h0]
      obtain ⟨h1, h2⟩ := ih hl t d
      rw [hstep]
      refine ⟨by simpa [h0] using h1, fun j => ?_⟩
      rw [h2 j]
      by_cases hj : j = i <;> simp [hj, h0]
    · have hstep : softDelGroup g base (d, t) i =
          (softDelChunk g (base (t.group i)) d, t.setGroup i 0) := by
        simp [softDelGroup, mt (hbase _).mp h0]
      obtain ⟨h1, h2⟩ := ih hl (t.setGroup i 0) (softDelChunk g (base (t.group i)) d)
      have hcongr : (l.filterMap fun j => if (t.setGroup i 0).group j ≠ 0 then
            some (off * 16 + (j : ℕ), (t.setGroup i 0).group j) else none) =
          l.filterMap fun j => if t.group j ≠ 0 then some (off * 16 + (j : ℕ), t.group j) else none := by
        refine List.filterMap_congr fun j hj => ?_
        have hne : j ≠ i := fun h => hi (h ▸ hj)
        simp [hne]
      rw [hstep]
      rw [hcongr] at h1
      refine ⟨?_, fun j => ?_⟩
      · have hone : SoftDeleted g [base (t.group i)] d (softDelChunk g (base (t.group i)) d) :=
          ⟨_, rfl⟩
        simpa [heldChunks, h0] using hone.trans h1
      · rw [h2 j, group_setGroup]
        by_cases hj : j = i <;> simp [hj]

/-- What the loop over the slots `l` of a higher tnode does, if the worker below deletes all
that is held. -/
theorem foldl_softDelSlot {worker : Tnode n → BlockDev → BlockDev × Tnode n} {off : ℕ}
    (hw : ∀ t off d, SoftDeleted g (heldChunks base (held n t off)) d (worker t d).1)
    (l : List (Fin 8)) (hl : l.Nodup) (t : Tnode (n + 1)) (d : BlockDev) :
    SoftDeleted g (heldChunks base (l.flatMap fun i =>
        match t.internal i with
        | some t' => held n t' (off * 8 + i)
        | none => [])) d (l.foldl (softDelSlot worker) (d, t)).1 ∧
    ∀ i, (l.foldl (softDelSlot worker) (d, t)).2.internal i =
      if i ∈ l then none else t.internal i := by
  induction l generalizing t d with
  | nil => exact ⟨SoftDeleted.refl d, fun i => by simp⟩
  | cons i l ih =>
    obtain ⟨hi, hl⟩ := List.nodup_cons.mp hl
    rw [List.foldl_cons]
    cases hc : t.internal i with
    | none =>
      have hstep : softDelSlot worker (d, t) i = (d, t) := by simp [softDelSlot, hc]
      obtain ⟨h1, h2⟩ := ih hl t d
      rw [hstep]
      refine ⟨by simpa [hc] using h1, fun j => ?_⟩
      rw [h2 j]
      by_cases hj : j = i <;> simp [hj, hc]
    | some t' =>
      have hstep : softDelSlot worker (d, t) i =
          (freeTnode (worker t' d).1, t.setInternal i none) := by simp [softDelSlot, hc]
      obtain ⟨h1, h2⟩ := ih hl (t.setInternal i none) (freeTnode (worker t' d).1)
      have hcongr : (l.flatMap fun j => match (t.setInternal i none).internal j with
            | some t' => held n t' (off * 8 + (j : ℕ))
            | none => []) =
          l.flatMap fun j => match t.internal j with
            | some t' => held n t' (off * 8 + (j : ℕ))
            | none => [] := by
        refine List.flatMap_congr fun j hj => ?_
        have hne : j ≠ i := fun h => hi (h ▸ hj)
        simp [hne]
      rw [hstep]
      rw [hcongr] at h1
      refine ⟨?_, fun j => ?_⟩
      · simpa [heldChunks, hc] using (hw t' (off * 8 + i) d).freeTnode.trans h1
      · rw [h2 j, internal_setInternal]
        by_cases hj : j = i <;> simp [hj]

/-- `yaffs_soft_del_worker` soft deletes every chunk that is held, and nothing is held after. -/
theorem softDelWorker_spec (hbase : ∀ v, base v = 0 ↔ v = 0) (n : ℕ) (t : Tnode n) (off : ℕ)
    (d : BlockDev) :
    SoftDeleted g (heldChunks base (held n t off)) d (softDelWorker g base n t d).1 ∧
    ∀ k, entry n (softDelWorker g base n t d).2 k = 0 := by
  induction n generalizing off d with
  | zero =>
    obtain ⟨h1, h2⟩ := foldl_softDelGroup (g := g) hbase (List.finRange 16).reverse
      (List.nodup_reverse.mpr (List.nodup_finRange 16)) off t d
    exact ⟨h1, fun k => (h2 (Fin.ofNat 16 k)).trans (if_pos (by simp))⟩
  | succ n ih =>
    obtain ⟨h1, h2⟩ := foldl_softDelSlot (fun t off d => (ih t off d).1)
      (List.finRange 8).reverse (List.nodup_reverse.mpr (List.nodup_finRange 8)) t d
    refine ⟨h1, fun k => ?_⟩
    have hnone : (softDelWorker g base (n + 1) t d).2.internal (tnodeSlot n k) = none :=
      (h2 (tnodeSlot n k)).trans (if_pos (by simp))
    rw [entry_succ, hnone]
    rfl

end Tnode

namespace FileVar

variable {g : Geometry} {f : FileVar}

/-- The chunks of the file with what the tree holds for them. -/
def held (f : FileVar) : List (ℕ × ℕ) :=
  match f.top with
  | some t => t.held f.topLevel 0
  | none => []

theorem nodup_held (f : FileVar) : f.held.Nodup := by
  unfold held
  cases f.top with
  | none => exact List.nodup_nil
  | some t => exact t.nodup_held f.topLevel 0

theorem tnodeSpan_le (h : f.topLevel ≤ tnodesMaxLevel) : tnodeSpan f.topLevel ≤ maxChunkId + 1 := by
  have hmax : tnodeSpan tnodesMaxLevel = maxChunkId + 1 := by decide
  rw [← hmax]
  exact tnodeSpan_mono h

theorem mem_held (hl : f.topLevel ≤ tnodesMaxLevel) (k v : ℕ) :
    (k, v) ∈ f.held ↔ f.entry k = v ∧ v ≠ 0 := by
  cases ht : f.top with
  | none =>
    have hnone : f.find k = none := by simp [find, ht]
    simp only [held, ht, List.not_mem_nil, entry, hnone, Option.getD_none, false_iff]
    rintro ⟨rfl, h⟩
    exact h rfl
  | some t =>
    have hspan := tnodeSpan_le hl
    have hiff : k / tnodeSpan f.topLevel = 0 ↔ k < tnodeSpan f.topLevel := by
      rw [Nat.div_eq_zero_iff]
      have := tnodeSpan_pos f.topLevel
      omega
    simp only [held, ht, Tnode.mem_held, hiff]
    by_cases hs : k < tnodeSpan f.topLevel
    · rw [entry, find_of_lt hl (by omega) hs, ht, Option.bind_some]
      cases t.find f.topLevel k with
      | none => simp [eq_comm]
      | some x => simp [hs]
    · have hout : f.find k = none := by
        by_contra hh
        exact hs (Has.bounds hh).2.2
      simp only [hs, false_and, entry, hout, Option.getD_none, false_iff]
      rintro ⟨rfl, h⟩
      exact h rfl

/-- The soft deletion of a file soft deletes all that its tree holds. -/
theorem softDel_spec (hl : f.topLevel ≤ tnodesMaxLevel) {base : ℕ → ℕ}
    (hbase : ∀ v, base v = 0 ↔ v = 0) (d : BlockDev) :
    SoftDeleted g (Tnode.heldChunks base f.held) d (softDel g base f d).1 ∧
    SameFile f (softDel g base f d).2 ∧ (softDel g base f d).2.topLevel = f.topLevel ∧
    (∀ k, (softDel g base f d).2.entry k = 0) := by
  cases ht : f.top with
  | none =>
    have hk : ∀ k, f.entry k = 0 := fun k => by simp [entry, find, ht]
    rw [show softDel g base f d = (d, f) by simp [softDel, ht], show f.held = [] by simp [held, ht]]
    exact ⟨SoftDeleted.refl d, SameFile.refl f, rfl, hk⟩
  | some t =>
    obtain ⟨h1, h2⟩ := Tnode.softDelWorker_spec (g := g) hbase f.topLevel t 0 d
    rw [show softDel g base f d = ((t.softDelWorker g base f.topLevel d).1,
        { f with top := some (t.softDelWorker g base f.topLevel d).2 }) by simp [softDel, ht],
      show f.held = t.held f.topLevel 0 by simp [held, ht]]
    refine ⟨h1, ⟨rfl, rfl, rfl⟩, rfl, fun k => ?_⟩
    by_cases hk : k ≤ maxChunkId
    · rw [entry_eq (f := { f with top := some (t.softDelWorker g base f.topLevel d).2 }) hl hk]
      unfold treeEntry
      split_ifs
      · exact h2 k
      · rfl
    · exact entry_of_gt (by omega)

end FileVar

/-! ## Places -/

namespace Tnode

scoped instance neZero_eight : NeZero 8 := ⟨by decide⟩

scoped instance neZero_sixteen : NeZero 16 := ⟨by decide⟩

end Tnode

end Yaffs
