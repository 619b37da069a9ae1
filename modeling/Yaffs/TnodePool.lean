import Yaffs.Ownership
import Yaffs.Scan

/-!
# Tnodes in memory

The tnodes of a device with their addresses : the allocator of `yaffs_allocator.c` takes memory
for a hundred tnodes at a time and keeps a list of the free ones, and the tree of a file is the
tnodes that can be reached from its top through the pointers.

`tnodeTree` reads the look-up tree off the memory, so that what is known of `Tnode` holds of it,
and `tnodesBelow` lists the tnodes of all ways down. A function of the source moves tnodes between
such a list and the free list (`TnodesMove`), and takes none from two places.
-/

namespace Yaffs

open scoped Tnode

/-! ## The memory -/

/-- `struct yaffs_tnode` : the chunk groups of level `0`, and the pointers of a higher level. -/
structure TnodeCell where
  group : Fin 16 → ℕ := fun _ => 0
  internal : Fin 8 → Option ℕ := fun _ => none

/-- The memory of the tnodes and `struct yaffs_allocator`. The addresses are counted in tnodes, in
the order in which `kmalloc` gives them out. -/
structure TnodePool where
  cell : ℕ → TnodeCell
  freeTnodes : List ℕ := []
  nTnodesCreated : ℕ := 0
  /-- Calls of `kmalloc` so far. -/
  mallocs : ℕ := 0
  /-- `dev->n_tnodes`. -/
  nTnodes : ℤ := 0

/-- `YAFFS_ALLOCATION_NTNODES`. -/
def allocationNTnodes : ℕ := 100

namespace TnodePool

/-- `tn->internal[i] = c`. -/
def setInternal (a : ℕ) (i : Fin 8) (c : Option ℕ) (p : TnodePool) : TnodePool :=
  let tn : TnodeCell := { p.cell a with internal := Function.update (p.cell a).internal i c }
  { p with cell := Function.update p.cell a tn }

/-- The chunk groups of the tnode at `a`. -/
def setGroups (a : ℕ) (v : Fin 16 → ℕ) (p : TnodePool) : TnodePool :=
  let tn : TnodeCell := { p.cell a with group := v }
  { p with cell := Function.update p.cell a tn }

/-- `yaffs_create_tnodes` : the new tnodes are chained before the free ones. A second call of
`kmalloc`, for the list of the allocations, may fail without consequence. -/
def createTnodes (e : Env) (n : ℕ) (p : TnodePool) : TnodePool :=
  if e.allocOk p.mallocs then
    let q := (List.range n).foldl (fun q i => q.setInternal (p.nTnodesCreated + i) 0
      (if i + 1 < n then some (p.nTnodesCreated + i + 1) else p.freeTnodes.head?)) p
    { q with
      freeTnodes := List.range' p.nTnodesCreated n ++ p.freeTnodes
      nTnodesCreated := p.nTnodesCreated + n
      mallocs := p.mallocs + 2 }
  else { p with mallocs := p.mallocs + 1 }

/-- `yaffs_alloc_raw_tnode`. -/
def allocRawTnode (e : Env) (p : TnodePool) : TnodePool × Option ℕ :=
  let p := if p.freeTnodes = [] then createTnodes e allocationNTnodes p else p
  match p.freeTnodes with
  | a :: l => ({ p with freeTnodes := l }, some a)
  | [] => (p, none)

/-- `yaffs_get_tnode`. -/
def getTnode (e : Env) (p : TnodePool) : TnodePool × Option ℕ :=
  match allocRawTnode e p with
  | (p, some a) =>
    let tn : TnodeCell := {}
    ({ p with cell := Function.update p.cell a tn, nTnodes := p.nTnodes + 1 }, some a)
  | (p, none) => (p, none)

/-- `yaffs_free_tnode`, on a tnode. -/
def freeTnode (a : ℕ) (p : TnodePool) : TnodePool :=
  let q := p.setInternal a 0 p.freeTnodes.head?
  { q with freeTnodes := a :: q.freeTnodes, nTnodes := q.nTnodes - 1 }

end TnodePool

/-! ## Trees in the memory -/

section trees

variable (cell : ℕ → TnodeCell)

/-- The tree of level `n` at an address. -/
def tnodeTree : (n : ℕ) → ℕ → Tnode n
  | 0, a => (cell a).group
  | n + 1, a => fun i => ((cell a).internal i).map (tnodeTree n)

/-- The tnodes of all ways down from a tnode of level `n`, one for each way. -/
def tnodesBelow : (n : ℕ) → ℕ → List ℕ
  | 0, a => [a]
  | n + 1, a => a :: (List.finRange 8).flatMap fun i =>
      match (cell a).internal i with
      | some b => tnodesBelow n b
      | none => []

/-- The tnodes from a pointer on. -/
def tnodesFrom (n : ℕ) (c : Option ℕ) : List ℕ :=
  match c with
  | some b => tnodesBelow cell n b
  | none => []

/-- The tnodes below all pointers of a tnode but one. -/
def tnodesBeside (n a : ℕ) (i : Fin 8) : List ℕ :=
  ((List.finRange 8).erase i).flatMap fun j => tnodesFrom cell n ((cell a).internal j)

/-- The way down to the level-0 tnode of `k`. -/
def tnodeAt : (n : ℕ) → ℕ → ℕ → Option ℕ
  | 0, a, _ => some a
  | n + 1, a, k => ((cell a).internal (tnodeSlot n k)).bind fun b => tnodeAt n b k

end trees

section trees

variable {cell cell' : ℕ → TnodeCell} {n a b : ℕ} {i : Fin 8} {c : Option ℕ}

theorem tnodesBelow_succ (n a : ℕ) : tnodesBelow cell (n + 1) a =
    a :: (List.finRange 8).flatMap fun i => tnodesFrom cell n ((cell a).internal i) :=
  rfl

theorem tnodesBelow_perm (cell : ℕ → TnodeCell) (n a : ℕ) (i : Fin 8) : (tnodesBelow cell (n + 1) a).Perm
    (a :: (tnodesFrom cell n ((cell a).internal i) ++ tnodesBeside cell n a i)) := by
  rw [tnodesBelow_succ]
  exact ((List.perm_cons_erase (List.mem_finRange i)).flatMap_right _).cons a

theorem internal_tnodeTree (n a : ℕ) (i : Fin 8) :
    (tnodeTree cell (n + 1) a).internal i = ((cell a).internal i).map (tnodeTree cell n) :=
  rfl

theorem self_mem_tnodesBelow (n a : ℕ) : a ∈ tnodesBelow cell n a := by
  cases n <;> simp [tnodesBelow]

theorem mem_tnodesBelow_of_slot (hb : (cell a).internal i = some b) {x : ℕ}
    (hx : x ∈ tnodesBelow cell n b) : x ∈ tnodesBelow cell (n + 1) a := by
  rw [tnodesBelow_succ]
  refine List.mem_cons_of_mem _ (List.mem_flatMap.mpr ⟨i, List.mem_finRange i, ?_⟩)
  rw [hb]
  exact hx

/-- A tree depends on its own tnodes only. -/
theorem tnodeTree_congr (n a : ℕ) (h : ∀ x ∈ tnodesBelow cell n a, cell' x = cell x) :
    tnodeTree cell' n a = tnodeTree cell n a ∧ tnodesBelow cell' n a = tnodesBelow cell n a := by
  induction n generalizing a with
  | zero => exact ⟨congrArg TnodeCell.group (h a (by simp [tnodesBelow])), rfl⟩
  | succ n ih =>
    have ha := h a (self_mem_tnodesBelow _ _)
    have hsub : ∀ i b, (cell a).internal i = some b →
        tnodeTree cell' n b = tnodeTree cell n b ∧ tnodesBelow cell' n b = tnodesBelow cell n b :=
      fun i b hb => ih b fun x hx => h x (mem_tnodesBelow_of_slot hb hx)
    constructor
    · funext i
      change ((cell' a).internal i).map _ = ((cell a).internal i).map _
      rw [ha]
      cases hb : (cell a).internal i with
      | none => rfl
      | some b => exact congrArg some (hsub i b hb).1
    · rw [tnodesBelow_succ, tnodesBelow_succ, ha]
      congr 1
      refine List.flatMap_congr fun i _ => ?_
      cases hb : (cell a).internal i with
      | none => rfl
      | some b => exact (hsub i b hb).2

/-- The groups do not matter for the ways down. -/
theorem tnodesBelow_congr (n a : ℕ) (h : ∀ x, (cell' x).internal = (cell x).internal) :
    tnodesBelow cell' n a = tnodesBelow cell n a := by
  induction n generalizing a with
  | zero => rfl
  | succ n ih =>
    rw [tnodesBelow_succ, tnodesBelow_succ, h]
    congr 1
    refine List.flatMap_congr fun i _ => ?_
    cases (cell a).internal i with
    | none => rfl
    | some b => exact ih b

theorem tnodeAt_mem (n a k : ℕ) (h : tnodeAt cell n a k = some b) : b ∈ tnodesBelow cell n a := by
  induction n generalizing a with
  | zero =>
    obtain rfl : a = b := by simpa [tnodeAt] using h
    exact self_mem_tnodesBelow _ _
  | succ n ih =>
    obtain ⟨c, hc, hb⟩ := Option.bind_eq_some_iff.mp h
    exact mem_tnodesBelow_of_slot hc (ih c hb)

/-- The way down finds what the tree holds. -/
theorem find_tnodeTree (n a k : ℕ) : Tnode.find n (tnodeTree cell n a) k =
    (tnodeAt cell n a k).map fun b => (cell b).group (Fin.ofNat 16 k) := by
  induction n generalizing a with
  | zero => rfl
  | succ n ih =>
    simp only [Tnode.find, internal_tnodeTree, tnodeAt]
    cases (cell a).internal (tnodeSlot n k) with
    | none => rfl
    | some b => exact ih b

end trees

/-! ## Moving tnodes -/

/-- The tnodes `l` become `l'` : the others come from the free list or go there, and only `l` and
free tnodes are written. -/
structure TnodesMove (l l' : List ℕ) (p p' : TnodePool) : Prop where
  created : p.nTnodesCreated ≤ p'.nTnodesCreated
  perm : (l' ++ p'.freeTnodes).Perm (l ++ p.freeTnodes ++
    List.range' p.nTnodesCreated (p'.nTnodesCreated - p.nTnodesCreated))
  count : p'.nTnodes + l.length = p.nTnodes + l'.length
  frame : ∀ x < p.nTnodesCreated, x ∉ l → x ∉ p.freeTnodes → p'.cell x = p.cell x

/-- The tnodes `l` are apart from each other and from the free ones. -/
structure TnodesApart (l : List ℕ) (p : TnodePool) : Prop where
  nodup : (l ++ p.freeTnodes).Nodup
  created : ∀ x ∈ l ++ p.freeTnodes, x < p.nTnodesCreated

section moves

variable {e : Env} {l l' l'' r : List ℕ} {p p' p'' : TnodePool} {a : ℕ} {i : Fin 8} {c : Option ℕ}

theorem TnodesMove.refl (l : List ℕ) (p : TnodePool) : TnodesMove l l p p :=
  ⟨le_rfl, by simp, rfl, fun _ _ _ _ => rfl⟩

theorem TnodesMove.mem (h : TnodesMove l l' p p') {x : ℕ} (hx : x ∈ l' ++ p'.freeTnodes) :
    x ∈ l ++ p.freeTnodes ∨ p.nTnodesCreated ≤ x := by
  rcases List.mem_append.mp (h.perm.subset hx) with hx | hx
  · exact Or.inl hx
  · exact Or.inr (List.mem_range'_1.mp hx).1

theorem TnodesMove.trans (h : TnodesMove l l' p p') (h' : TnodesMove l' l'' p' p'') :
    TnodesMove l l'' p p'' := by
  refine ⟨h.created.trans h'.created, ?_, by have := h.count; have := h'.count; omega, fun x hx hl hf => ?_⟩
  · have hrange := List.range'_append_1 (s := p.nTnodesCreated)
      (m := p'.nTnodesCreated - p.nTnodesCreated) (n := p''.nTnodesCreated - p'.nTnodesCreated)
    have h1 := h.created
    have h2 := h'.created
    rw [show p.nTnodesCreated + (p'.nTnodesCreated - p.nTnodesCreated) = p'.nTnodesCreated by omega,
      show p'.nTnodesCreated - p.nTnodesCreated + (p''.nTnodesCreated - p'.nTnodesCreated) =
        p''.nTnodesCreated - p.nTnodesCreated by omega] at hrange
    rw [← hrange, ← List.append_assoc]
    exact h'.perm.trans (h.perm.append_right _)
  · have hnot : ¬(x ∈ l' ++ p'.freeTnodes) := fun hmem => by
      rcases h.mem hmem with hmem | hle
      · rcases List.mem_append.mp hmem with hmem | hmem
        · exact hl hmem
        · exact hf hmem
      · omega
    simp only [List.mem_append, not_or] at hnot
    rw [h'.frame x (hx.trans_le h.created) hnot.1 hnot.2, h.frame x hx hl hf]

theorem TnodesMove.of_perm (h : TnodesMove l l' p p') {m m' : List ℕ} (hm : m.Perm l) (hm' : m'.Perm l') :
    TnodesMove m m' p p' := by
  refine ⟨h.created, ?_, by rw [hm.length_eq, hm'.length_eq]; exact h.count, fun x hx hl hf => ?_⟩
  · exact (hm'.append_right _).trans (h.perm.trans ((hm.symm.append_right _).append_right _))
  · exact h.frame x hx (fun hmem => hl (hm.mem_iff.mpr hmem)) hf

/-- The tnodes beside those moved stay. -/
theorem TnodesMove.append (h : TnodesMove l l' p p') (r : List ℕ) : TnodesMove (l ++ r) (l' ++ r) p p' := by
  refine ⟨h.created, ?_, by have := h.count; simp only [List.length_append]; push_cast; omega,
    fun x hx hl hf => h.frame x hx (fun hmem => hl (List.mem_append_left _ hmem)) hf⟩
  have hcomm : ∀ a b : List ℕ, (a ++ r ++ b).Perm (a ++ b ++ r) := fun a b => by
    rw [List.append_assoc, List.append_assoc]
    exact List.perm_append_comm.append_left a
  refine (hcomm _ _).trans ((h.perm.append_right r).trans ?_)
  exact (hcomm _ _).symm.trans ((hcomm l p.freeTnodes).symm.append_right _)

theorem TnodesApart.move (h : TnodesApart l p) (hm : TnodesMove l l' p p') : TnodesApart l' p' := by
  constructor
  · refine hm.perm.nodup_iff.mpr (List.nodup_append'.mpr ⟨h.nodup, List.nodup_range', ?_⟩)
    intro x hx hr
    have := h.created x hx
    have := (List.mem_range'_1.mp hr).1
    omega
  · intro x hx
    rcases List.mem_append.mp (hm.perm.subset hx) with hx | hx
    · exact (h.created x hx).trans_le hm.created
    · have := (List.mem_range'_1.mp hx).2
      have := hm.created
      omega

theorem TnodesApart.of_perm (h : TnodesApart l p) (hl : l'.Perm l) : TnodesApart l' p :=
  ⟨(hl.append_right _).nodup_iff.mpr h.nodup, fun x hx => h.created x ((hl.append_right _).subset hx)⟩

/-- A move leaves the tnodes beside alone. -/
theorem TnodesApart.cell_eq (h : TnodesApart (l ++ r) p) (hm : TnodesMove l l' p p') {x : ℕ} (hx : x ∈ r) :
    p'.cell x = p.cell x := by
  have hnodup := h.nodup
  rw [List.nodup_append', List.nodup_append'] at hnodup
  exact hm.frame x (h.created x (by simp [hx])) (fun hl => hnodup.1.2.2 hl hx)
    fun hf => hnodup.2.2 (List.mem_append_right _ hx) hf

/-- Taking tnodes from the free list leaves those in use alone. -/
theorem TnodesApart.cell_of_take (h : TnodesApart l p) (hm : TnodesMove [] l' p p') {x : ℕ} (hx : x ∈ l) :
    p'.cell x = p.cell x :=
  TnodesApart.cell_eq (l := []) h hm hx

theorem TnodesApart.left (h : TnodesApart (l ++ r) p) : TnodesApart l p := by
  refine ⟨h.nodup.sublist ?_, fun x hx => h.created x ?_⟩
  · exact (List.sublist_append_left l r).append_right _
  · simp only [List.mem_append] at hx ⊢
    tauto

/-! ## The allocator -/

@[simp] theorem freeTnodes_setInternal : (p.setInternal a i c).freeTnodes = p.freeTnodes := rfl

@[simp] theorem nTnodesCreated_setInternal : (p.setInternal a i c).nTnodesCreated = p.nTnodesCreated := rfl

@[simp] theorem nTnodes_setInternal : (p.setInternal a i c).nTnodes = p.nTnodes := rfl

theorem cell_setInternal_of_ne {x : ℕ} (hx : x ≠ a) : (p.setInternal a i c).cell x = p.cell x :=
  Function.update_of_ne hx _ _

theorem internal_setInternal_cell (j : Fin 8) : ((p.setInternal a i c).cell a).internal j =
    if j = i then c else (p.cell a).internal j := by
  simp [TnodePool.setInternal, Function.update_apply]

/-- A pointer of a tnode in the list is written. -/
theorem TnodesMove.setInternal (ha : a ∈ l) : TnodesMove l l p (p.setInternal a i c) :=
  ⟨le_rfl, by simp, rfl, fun x _ hl _ => cell_setInternal_of_ne fun hx => hl (hx ▸ ha)⟩

theorem TnodesMove.freeTnode (a : ℕ) (l : List ℕ) (p : TnodePool) :
    TnodesMove (a :: l) l p (p.freeTnode a) := by
  refine ⟨le_rfl, ?_, ?_, fun x _ hl _ => ?_⟩
  · simp [TnodePool.freeTnode]
  · simp only [TnodePool.freeTnode, nTnodes_setInternal, List.length_cons]
    push_cast
    omega
  · exact cell_setInternal_of_ne fun hx => hl (by simp [hx])

/-- The chaining of new tnodes writes nothing else. -/
theorem chain_cells (f : ℕ → Option ℕ) (m : ℕ) (p : TnodePool) :
    let q := (List.range m).foldl (fun q i => q.setInternal (p.nTnodesCreated + i) 0 (f i)) p
    (∀ x < p.nTnodesCreated, q.cell x = p.cell x) ∧ q.nTnodes = p.nTnodes := by
  induction m with
  | zero => exact ⟨fun _ _ => rfl, rfl⟩
  | succ m ih =>
    simp only [List.range_succ, List.foldl_append, List.foldl_cons, List.foldl_nil] at ih ⊢
    exact ⟨fun x hx => (cell_setInternal_of_ne (by omega)).trans (ih.1 x hx), ih.2⟩

theorem TnodesMove.createTnodes (e : Env) (n : ℕ) (l : List ℕ) (p : TnodePool) :
    TnodesMove l l p (p.createTnodes e n) := by
  unfold TnodePool.createTnodes
  split_ifs
  · obtain ⟨hcell, hcount⟩ := chain_cells
      (fun i => if i + 1 < n then some (p.nTnodesCreated + i + 1) else p.freeTnodes.head?) n p
    refine ⟨Nat.le_add_right _ _, ?_, by simpa using hcount, fun x hx _ _ => hcell x hx⟩
    rw [Nat.add_sub_cancel_left, List.append_assoc]
    exact List.perm_append_comm.append_left l
  · exact ⟨le_rfl, by simp, rfl, fun _ _ _ _ => rfl⟩

/-- `yaffs_get_tnode` takes an empty tnode from the free list, if it takes one. -/
theorem getTnode_spec (e : Env) (p : TnodePool) :
    (∀ a, (p.getTnode e).2 = some a →
      TnodesMove [] [a] p (p.getTnode e).1 ∧ (p.getTnode e).1.cell a = {}) ∧
    ((p.getTnode e).2 = none → TnodesMove [] [] p (p.getTnode e).1) := by
  have hcreate : TnodesMove [] [] p (if p.freeTnodes = [] then p.createTnodes e allocationNTnodes else p) := by
    split_ifs
    · exact TnodesMove.createTnodes e _ _ p
    · exact TnodesMove.refl [] p
  unfold TnodePool.getTnode TnodePool.allocRawTnode
  simp only
  generalize (if p.freeTnodes = [] then p.createTnodes e allocationNTnodes else p) = q at hcreate ⊢
  cases hfree : q.freeTnodes with
  | nil => exact ⟨fun _ h => by simp at h, fun _ => hcreate⟩
  | cons b m =>
    refine ⟨fun a h => ?_, fun h => by simp at h⟩
    obtain rfl : b = a := by simpa using h
    refine ⟨hcreate.trans ⟨le_rfl, by simp [hfree], by simp, fun x _ _ hf => ?_⟩, Function.update_self ..⟩
    exact Function.update_of_ne (fun hx => hf (by simp [hfree, hx])) _ _

end moves

/-! ## Changing what is below one pointer -/

section slots

variable {l : List ℕ} {p p' : TnodePool} {n a : ℕ} {i : Fin 8} {c : Option ℕ} {ex ex' : List ℕ}

theorem tnodesFrom_congr {cell cell' : ℕ → TnodeCell} (n : ℕ) (c : Option ℕ)
    (h : ∀ x ∈ tnodesFrom cell n c, cell' x = cell x) :
    c.map (tnodeTree cell' n) = c.map (tnodeTree cell n) ∧ tnodesFrom cell' n c = tnodesFrom cell n c := by
  cases c with
  | none => exact ⟨rfl, rfl⟩
  | some b =>
    obtain ⟨htree, hbelow⟩ := tnodeTree_congr n b h
    exact ⟨congrArg some htree, hbelow⟩

theorem perm_slot (a : ℕ) (F B r : List ℕ) : (a :: (F ++ B) ++ r).Perm (F ++ r ++ (a :: B)) := by
  have hmiddle : (a :: (F ++ B) ++ r).Perm (F ++ (a :: B) ++ r) := List.perm_middle.symm.append_right r
  refine hmiddle.trans ?_
  rw [List.append_assoc, List.append_assoc]
  exact List.perm_append_comm.append_left F

theorem tnodesBelow_perm_slot (cell : ℕ → TnodeCell) (n a : ℕ) (i : Fin 8) (r : List ℕ) :
    (tnodesBelow cell (n + 1) a ++ r).Perm
      (tnodesFrom cell n ((cell a).internal i) ++ r ++ (a :: tnodesBeside cell n a i)) :=
  ((tnodesBelow_perm cell n a i).append_right r).trans (perm_slot _ _ _ _)

/-- Moving what is below one pointer of a tnode leaves the tnode and what is beside alone. -/
theorem TnodesApart.beside_eq (hap : TnodesApart (tnodesBelow p.cell (n + 1) a ++ ex) p)
    (hm : TnodesMove (tnodesFrom p.cell n ((p.cell a).internal i) ++ ex) l p p') :
    ∀ x ∈ a :: tnodesBeside p.cell n a i, p'.cell x = p.cell x := fun _ hx =>
  (hap.of_perm (tnodesBelow_perm_slot p.cell n a i ex).symm).cell_eq hm hx

/-- What is below one pointer of a tnode is moved, and the pointer is set : the rest of the tree
stays as it is. -/
theorem TnodesMove.slot (hap : TnodesApart (tnodesBelow p.cell (n + 1) a ++ ex) p)
    (hm : TnodesMove (tnodesFrom p.cell n ((p.cell a).internal i) ++ ex) (tnodesFrom p'.cell n c ++ ex') p p') :
    let q := p'.setInternal a i c
    TnodesMove (tnodesBelow p.cell (n + 1) a ++ ex) (tnodesBelow q.cell (n + 1) a ++ ex') p q ∧
      tnodeTree q.cell (n + 1) a =
        (tnodeTree p.cell (n + 1) a).setInternal i (c.map (tnodeTree p'.cell n)) := by
  intro q
  have hbelow := tnodesBelow_perm_slot p.cell n a i ex
  have hap' := hap.of_perm hbelow.symm
  have hkeep := hap.beside_eq hm
  have hmove := hm.append (a :: tnodesBeside p.cell n a i)
  have hapart := (hap'.move hmove).nodup
  have hne : ∀ x ∈ tnodesFrom p'.cell n c, q.cell x = p'.cell x := fun x hx => by
    refine cell_setInternal_of_ne fun hxa => ?_
    rw [List.nodup_append', List.nodup_append'] at hapart
    exact hapart.1.2.2 (List.mem_append_left _ hx) (by simp [hxa])
  obtain ⟨hctree, hcbelow⟩ := tnodesFrom_congr n c hne
  have hslot : ∀ j, j ≠ i → (q.cell a).internal j = (p.cell a).internal j := fun j hj => by
    rw [internal_setInternal_cell, if_neg hj, hkeep a List.mem_cons_self]
  have hnodup : (a :: tnodesBeside p.cell n a i).Nodup := by
    have hall := hap'.nodup
    rw [List.nodup_append', List.nodup_append'] at hall
    exact hall.1.2.1
  have hbeside : ∀ j ≠ i, ∀ x ∈ tnodesFrom p.cell n ((p.cell a).internal j), q.cell x = p.cell x := by
    intro j hj x hx
    have hmem : x ∈ tnodesBeside p.cell n a i :=
      List.mem_flatMap.mpr ⟨j, (List.mem_erase_of_ne hj).mpr (List.mem_finRange j), hx⟩
    have hxa : x ≠ a := fun hxa => (List.nodup_cons.mp hnodup).1 (hxa ▸ hmem)
    rw [cell_setInternal_of_ne hxa, hkeep x (List.mem_cons_of_mem _ hmem)]
  have hrest : tnodesBeside q.cell n a i = tnodesBeside p.cell n a i := by
    refine List.flatMap_congr fun j hj => ?_
    have hji : j ≠ i := fun h => List.Nodup.not_mem_erase (List.nodup_finRange 8) (h ▸ hj)
    rw [hslot j hji]
    exact (tnodesFrom_congr n _ (hbeside j hji)).2
  have hci : (q.cell a).internal i = c := by
    rw [internal_setInternal_cell, if_pos rfl]
  have hbelow' := tnodesBelow_perm_slot q.cell n a i ex'
  rw [hci, hcbelow, hrest] at hbelow'
  refine ⟨?_, funext fun j => ?_⟩
  · have hset : TnodesMove (tnodesFrom p'.cell n c ++ ex' ++ (a :: tnodesBeside p.cell n a i))
        (tnodesFrom p'.cell n c ++ ex' ++ (a :: tnodesBeside p.cell n a i)) p' q :=
      TnodesMove.setInternal (by simp)
    exact (hmove.trans hset).of_perm hbelow hbelow'
  · change ((q.cell a).internal j).map _ =
      if j = i then c.map (tnodeTree p'.cell n) else ((p.cell a).internal j).map _
    split_ifs with hj
    · rw [hj, hci, hctree]
    · rw [hslot j hj]
      exact (tnodesFrom_congr n _ (hbeside j hj)).1

/-- As `TnodesMove.slot`, with no tnode beside the tree. -/
theorem TnodesMove.slot_alone (hap : TnodesApart (tnodesBelow p.cell (n + 1) a) p)
    (hm : TnodesMove (tnodesFrom p.cell n ((p.cell a).internal i)) (tnodesFrom p'.cell n c) p p') :
    let q := p'.setInternal a i c
    TnodesMove (tnodesBelow p.cell (n + 1) a) (tnodesBelow q.cell (n + 1) a) p q ∧
      tnodeTree q.cell (n + 1) a =
        (tnodeTree p.cell (n + 1) a).setInternal i (c.map (tnodeTree p'.cell n)) := by
  rw [← List.append_nil (tnodesBelow _ _ _)] at hap
  rw [← List.append_nil (tnodesFrom p.cell _ _), ← List.append_nil (tnodesFrom p'.cell _ _)] at hm
  simpa only [List.append_nil] using TnodesMove.slot hap hm

theorem TnodesApart.sub (hap : TnodesApart (tnodesBelow p.cell (n + 1) a) p) (i : Fin 8) :
    TnodesApart (tnodesFrom p.cell n ((p.cell a).internal i)) p := by
  have hperm := tnodesBelow_perm_slot p.cell n a i []
  rw [List.append_nil, List.append_nil] at hperm
  exact (hap.of_perm hperm.symm).left

end slots

/-! ## The way down -/

/-- The loop of `yaffs_add_find_tnode_0` from the top down, which adds what it needs. At level `1`
a tnode that was passed takes the place of the one found. -/
def descendTnodes (e : Env) (passed : Option ℕ) : (n : ℕ) → ℕ → ℕ → TnodePool → TnodePool × Option ℕ
  | 0, a, _, p => (p, some a)
  | n + 1, a, k, p =>
    let x := tnodeSlot n k
    match if n = 0 then passed else none, (p.cell a).internal x with
    | some q, some b => descendTnodes e passed n q k ((p.freeTnode b).setInternal a x (some q))
    | some q, none => descendTnodes e passed n q k (p.setInternal a x (some q))
    | none, some b => descendTnodes e passed n b k p
    | none, none =>
      match p.getTnode e with
      | (p, some b) => descendTnodes e passed n b k (p.setInternal a x (some b))
      | (p, none) => (p.setInternal a x none, none)

/-- Two chunks have the same level-0 tnode in a tree of level `n`. -/
def SameLeaf (n k k' : ℕ) : Prop :=
  k / 16 % 8 ^ n = k' / 16 % 8 ^ n

instance (n k k' : ℕ) : Decidable (SameLeaf n k k') :=
  inferInstanceAs (Decidable (_ = _))

theorem sameLeaf_succ {n k k' : ℕ} :
    SameLeaf (n + 1) k k' ↔ tnodeSlot n k = tnodeSlot n k' ∧ SameLeaf n k k' := by
  have hslot : tnodeSlot n k = tnodeSlot n k' ↔ k / 16 / 8 ^ n % 8 = k' / 16 / 8 ^ n % 8 := by
    rw [Fin.ext_iff, Nat.div_div_eq_div_mul, Nat.div_div_eq_div_mul]
    rfl
  have hmod : ∀ m : ℕ, m % 8 ^ (n + 1) = m % 8 ^ n + 8 ^ n * (m / 8 ^ n % 8) := fun m => by
    rw [Nat.pow_succ, Nat.mod_mul]
  have hpos : 0 < 8 ^ n := Nat.two_pow_pos (3 * n) |>.trans_eq (by rw [Nat.pow_mul])
  rw [hslot]
  unfold SameLeaf
  rw [hmod, hmod]
  have h1 := Nat.mod_lt (k / 16) hpos
  have h2 := Nat.mod_lt (k' / 16) hpos
  constructor
  · intro h
    have hlow : k / 16 % 8 ^ n = k' / 16 % 8 ^ n := by
      have := congrArg (· % 8 ^ n) h
      simpa [Nat.add_mul_mod_self_left] using this
    refine ⟨?_, hlow⟩
    rw [hlow] at h
    exact Nat.eq_of_mul_eq_mul_left hpos (Nat.add_left_cancel h)
  · rintro ⟨h, h'⟩
    rw [h, h']

/-- What the way down for `k` does below a tnode of level `n` : with a tnode that was passed it
gives the chunks of that leaf the groups `v`, else it changes no entry. -/
structure Descended (passed : Option ℕ) (v : Fin 16 → ℕ) (n a k : ℕ) (p : TnodePool)
    (r : TnodePool × Option ℕ) : Prop where
  move : TnodesMove (tnodesBelow p.cell n a ++ passed.toList)
    (tnodesBelow r.1.cell n a ++ if r.2.isSome then [] else passed.toList) p r.1
  found : ∀ b, r.2 = some b → tnodeAt r.1.cell n a k = some b
  entry : ∀ k', Tnode.entry n (tnodeTree r.1.cell n a) k' =
    if passed.isSome ∧ r.2.isSome ∧ SameLeaf n k k' then v (Fin.ofNat 16 k')
    else Tnode.entry n (tnodeTree p.cell n a) k'
  rooted : FileVar.Rooted n (some (tnodeTree p.cell n a)) → FileVar.Rooted n (some (tnodeTree r.1.cell n a))

section descend

variable {e : Env} {passed : Option ℕ} {v : Fin 16 → ℕ} {p : TnodePool} {n a k : ℕ}

theorem setInternal_self {i : Fin 8} {c : Option ℕ} (h : (p.cell a).internal i = c) :
    p.setInternal a i c = p := by
  unfold TnodePool.setInternal
  rw [← h]
  simp

theorem rooted_setInternal {t : Tnode (n + 1)} {i : Fin 8} {c : Tnode n}
    (h : FileVar.Rooted (n + 1) (some t))
    (hc : i = 0 → FileVar.Rooted n (t.internal 0) → FileVar.Rooted n (some c)) :
    FileVar.Rooted (n + 1) (some (t.setInternal i (some c))) := by
  simp only [FileVar.Rooted, Tnode.internal_setInternal] at h ⊢
  split_ifs with hi
  · exact hc hi.symm h
  · exact h

/-- The way goes on below a tnode that is there. -/
theorem Descended.below {b : ℕ} {r : TnodePool × Option ℕ}
    (hap : TnodesApart (tnodesBelow p.cell (n + 1) a ++ passed.toList) p)
    (hb : (p.cell a).internal (tnodeSlot n k) = some b) (h : Descended passed v n b k p r) :
    Descended passed v (n + 1) a k p r := by
  have hfrom : tnodesFrom p.cell n ((p.cell a).internal (tnodeSlot n k)) = tnodesBelow p.cell n b := by
    rw [hb]; rfl
  have hm := h.move
  rw [← hfrom] at hm
  have hself : (r.1.cell a).internal (tnodeSlot n k) = some b := by
    rw [hap.beside_eq hm a List.mem_cons_self, hb]
  obtain ⟨hmove, htree⟩ := TnodesMove.slot hap (c := some b) hm
  rw [setInternal_self hself] at hmove htree
  have hold : (tnodeTree p.cell (n + 1) a).internal (tnodeSlot n k) = some (tnodeTree p.cell n b) := by
    rw [internal_tnodeTree, hb]
    rfl
  refine ⟨hmove, fun c hc => ?_, fun k' => ?_, fun hroot => ?_⟩
  · rw [tnodeAt, hself]
    exact h.found c hc
  · rw [htree]
    simp only [Tnode.entry_succ, Tnode.internal_setInternal, sameLeaf_succ]
    by_cases hs : tnodeSlot n k' = tnodeSlot n k
    · rw [hs, if_pos rfl, hold]
      simpa [Tnode.subEntry, Tnode.entry] using h.entry k'
    · simp [hs, Ne.symm hs]
  · rw [htree]
    refine rooted_setInternal hroot fun h0 hr => h.rooted ?_
    rwa [← h0, hold] at hr

/-- A pointer without a tnode gets the tnode `b`. -/
theorem TnodesMove.hang {b : ℕ} {ex ex' : List ℕ} {p' : TnodePool} {i : Fin 8}
    (hap : TnodesApart (tnodesBelow p.cell (n + 1) a ++ ex) p) (hnone : (p.cell a).internal i = none)
    (hm : TnodesMove ex (tnodesBelow p'.cell n b ++ ex') p p') :
    let q := p'.setInternal a i (some b)
    TnodesMove (tnodesBelow p.cell (n + 1) a ++ ex) (tnodesBelow q.cell (n + 1) a ++ ex') p q ∧
      tnodeTree q.cell (n + 1) a =
        (tnodeTree p.cell (n + 1) a).setInternal i (some (tnodeTree p'.cell n b)) := by
  refine TnodesMove.slot hap (c := some b) ?_
  rw [hnone]
  exact hm

theorem tnodesBelow_empty {cell : ℕ → TnodeCell} {b : ℕ} (h : cell b = {}) (n : ℕ) :
    tnodesBelow cell n b = [b] ∧ tnodeTree cell n b = Tnode.empty n := by
  cases n with
  | zero => exact ⟨rfl, congrArg TnodeCell.group h⟩
  | succ n =>
    constructor
    · simp [tnodesBelow, h]
    · funext i
      change ((cell b).internal i).map _ = none
      rw [h]
      rfl

/-- An empty tnode in the place of none changes no entry. -/
theorem entry_setInternal_empty {t : Tnode (n + 1)} {i : Fin 8} (h : t.internal i = none) (k : ℕ) :
    Tnode.entry (n + 1) (t.setInternal i (some (Tnode.empty n))) k = Tnode.entry (n + 1) t k := by
  refine Tnode.entry_setInternal t i _ (fun k => ?_) k
  rw [h]
  exact Tnode.entry_empty n k

@[simp] theorem group_setInternal_cell (i : Fin 8) (c : Option ℕ) (x : ℕ) :
    ((p.setInternal a i c).cell x).group = (p.cell x).group := by
  by_cases hx : x = a
  · subst hx
    simp [TnodePool.setInternal]
  · rw [cell_setInternal_of_ne hx]

theorem Descended.of_same {p' : TnodePool} {r : TnodePool × Option ℕ}
    (hm : TnodesMove (tnodesBelow p.cell n a ++ passed.toList) (tnodesBelow p'.cell n a ++ passed.toList) p p')
    (hentry : ∀ k', Tnode.entry n (tnodeTree p'.cell n a) k' = Tnode.entry n (tnodeTree p.cell n a) k')
    (hroot : FileVar.Rooted n (some (tnodeTree p.cell n a)) → FileVar.Rooted n (some (tnodeTree p'.cell n a)))
    (h : Descended passed v n a k p' r) : Descended passed v n a k p r :=
  ⟨hm.trans h.move, h.found, fun k' => by rw [h.entry, hentry], fun hr => h.rooted (hroot hr)⟩

/-- The tnode that was passed takes its place. -/
theorem Descended.place {q : ℕ} {p' : TnodePool}
    (hap : TnodesApart (tnodesBelow p.cell 1 a ++ [q]) p) (hv : (p'.cell q).group = v)
    (hm : TnodesMove (tnodesFrom p.cell 0 ((p.cell a).internal (tnodeSlot 0 k)) ++ [q]) [q] p p') :
    Descended (some q) v 1 a k p (p'.setInternal a (tnodeSlot 0 k) (some q), some q) := by
  have hm' : TnodesMove (tnodesFrom p.cell 0 ((p.cell a).internal (tnodeSlot 0 k)) ++ [q])
      (tnodesFrom p'.cell 0 (some q) ++ []) p p' := hm
  obtain ⟨hmove, htree⟩ := TnodesMove.slot hap hm'
  refine ⟨hmove, fun b hb => ?_, fun k' => ?_, fun hroot => ?_⟩
  · simpa [tnodeAt, internal_setInternal_cell] using hb
  · have hleaf : SameLeaf 0 k k' := by simp [SameLeaf, Nat.mod_one]
    rw [htree]
    simp only [Tnode.entry_succ, Tnode.internal_setInternal, sameLeaf_succ, hleaf]
    by_cases hs : tnodeSlot 0 k' = tnodeSlot 0 k
    · rw [if_pos hs, if_pos ⟨rfl, rfl, hs.symm, trivial⟩]
      exact congrFun hv _
    · simp [hs, Ne.symm hs]
  · rw [htree]
    exact rooted_setInternal hroot fun _ _ => trivial

theorem descendTnodes_spec (hap : TnodesApart (tnodesBelow p.cell n a ++ passed.toList) p)
    (h0 : n = 0 → passed = none) (hv : ∀ q, passed = some q → (p.cell q).group = v) :
    Descended passed v n a k p (descendTnodes e passed n a k p) := by
  induction n generalizing a p with
  | zero =>
    obtain rfl := h0 rfl
    exact ⟨TnodesMove.refl _ p, fun b hb => hb, fun k' => by simp [descendTnodes], fun h => h⟩
  | succ n ih =>
    unfold descendTnodes
    simp only
    by_cases hq : n = 0 ∧ passed.isSome
    · obtain ⟨rfl, hsome⟩ := hq
      obtain ⟨q, rfl⟩ := Option.isSome_iff_exists.mp hsome
      have hvq := hv q rfl
      rw [if_pos rfl]
      cases hb : (p.cell a).internal (tnodeSlot 0 k) with
      | some b =>
        have hmove : TnodesMove [b] [] p (p.freeTnode b) := TnodesMove.freeTnode b [] p
        have hapb := (hap.of_perm (tnodesBelow_perm_slot p.cell 0 a (tnodeSlot 0 k) _).symm).left
        rw [hb] at hapb
        have hcell : (p.freeTnode b).cell q = p.cell q := hapb.cell_eq hmove (by simp)
        refine Descended.place hap (by rw [hcell, hvq]) ?_
        rw [hb]
        exact hmove.append [q]
      | none =>
        refine Descended.place hap hvq ?_
        rw [hb]
        exact TnodesMove.refl _ p
    · have hpass : (if n = 0 then passed else none) = none := by
        split_ifs with hn
        · simpa [hn] using hq
        · rfl
      have h0' : n = 0 → passed = none := fun hn => by simpa [hn] using hq
      have hgo : ∀ p b, TnodesApart (tnodesBelow p.cell (n + 1) a ++ passed.toList) p →
          (p.cell a).internal (tnodeSlot n k) = some b → (∀ q, passed = some q → (p.cell q).group = v) →
          Descended passed v (n + 1) a k p (descendTnodes e passed n b k p) := by
        intro p b hap hb hv
        have hapb := (hap.of_perm (tnodesBelow_perm_slot p.cell n a (tnodeSlot n k) _).symm).left
        rw [hb] at hapb
        exact Descended.below hap hb (ih hapb h0' hv)
      rw [hpass]
      cases hb : (p.cell a).internal (tnodeSlot n k) with
      | some b => exact hgo p b hap hb hv
      | none =>
        obtain ⟨hget, hfail⟩ := getTnode_spec e p
        rcases hr : p.getTnode e with ⟨p', _ | b⟩
        · rw [hr] at hfail
          have hmove := (hfail rfl).append (tnodesBelow p.cell (n + 1) a ++ passed.toList)
          have hcell : ∀ x ∈ tnodesBelow p.cell (n + 1) a ++ passed.toList, p'.cell x = p.cell x :=
            fun x hx => hap.cell_of_take (hfail rfl) hx
          obtain ⟨htree, hbelow⟩ := tnodeTree_congr (n + 1) a fun x hx => hcell x (List.mem_append_left _ hx)
          have hself : (p'.cell a).internal (tnodeSlot n k) = none := by
            rw [hcell a (List.mem_append_left _ (self_mem_tnodesBelow _ _)), hb]
          change Descended passed v (n + 1) a k p (p'.setInternal a (tnodeSlot n k) none, none)
          rw [setInternal_self hself]
          exact ⟨by simpa [hbelow] using hmove, fun b hb => by simp at hb, fun k' => by simp [htree],
            fun hroot => by rwa [htree]⟩
        · obtain ⟨hmove, hcell⟩ := hget b (by rw [hr])
          rw [hr] at hmove hcell
          obtain ⟨hbelow, htree⟩ := tnodesBelow_empty hcell n
          have hempty : (tnodeTree p.cell (n + 1) a).internal (tnodeSlot n k) = none := by
            rw [internal_tnodeTree, hb]
            rfl
          have hm' : TnodesMove passed.toList (tnodesBelow p'.cell n b ++ passed.toList) p p' := by
            rw [hbelow]
            exact hmove.append _
          obtain ⟨hhang, htree'⟩ := TnodesMove.hang hap hb hm'
          rw [htree] at htree'
          refine Descended.of_same hhang (fun k' => ?_) (fun hroot => ?_) ?_
          · rw [htree']
            exact entry_setInternal_empty hempty k'
          · rw [htree']
            refine rooted_setInternal hroot fun h0 hr => ?_
            rw [← h0, hempty] at hr
            cases n <;> exact hr.elim
          · refine hgo _ b (hap.move hhang) (by rw [internal_setInternal_cell, if_pos rfl]) fun q hq => ?_
            have hcellq : p'.cell q = p.cell q := by
              refine TnodesApart.cell_eq (r := passed.toList) ?_ hmove (by simp [hq])
              exact (hap.of_perm List.perm_append_comm).left
            rw [group_setInternal_cell, hcellq, hv q hq]

end descend

/-! ## Pruning and soft deletion -/

/-- The pruning of what is below one pointer of the tnode at `a`. -/
def pruneSlotAt (worker : ℕ → Bool → TnodePool → TnodePool × Option ℕ) (del0 : Bool) (a : ℕ)
    (p : TnodePool) (i : Fin 8) : TnodePool :=
  match (p.cell a).internal i with
  | some b =>
    let q := worker b (if i = 0 then del0 else true) p
    q.1.setInternal a i q.2
  | none => p

/-- `yaffs_prune_worker`. -/
def pruneTnodes : (n : ℕ) → ℕ → Bool → TnodePool → TnodePool × Option ℕ
  | 0, a, del0, p => if (∀ i, (p.cell a).group i = 0) ∧ del0 then (p.freeTnode a, none) else (p, some a)
  | n + 1, a, del0, p =>
    let p := (List.finRange 8).foldl (pruneSlotAt (fun b del0 p => pruneTnodes n b del0 p) del0 a) p
    if (∀ i, ((p.cell a).internal i).isNone) ∧ del0 then (p.freeTnode a, none) else (p, some a)

/-- The soft deletion of one chunk of the level-0 tnode at `a`. -/
def softDelGroupAt (g : Geometry) (a : ℕ) (r : TnodePool × BlockDev) (i : Fin 16) : TnodePool × BlockDev :=
  let c := groupBase g ((r.1.cell a).group i)
  if c ≠ 0 then
    (r.1.setGroups a fun j => if j = i then 0 else (r.1.cell a).group j, softDelChunk g c r.2)
  else r

/-- The soft deletion of what is below one pointer of the tnode at `a`. -/
def softDelSlotAt (worker : ℕ → TnodePool × BlockDev → TnodePool × BlockDev) (a : ℕ)
    (r : TnodePool × BlockDev) (i : Fin 8) : TnodePool × BlockDev :=
  match (r.1.cell a).internal i with
  | some b =>
    let q := worker b r
    ((q.1.freeTnode b).setInternal a i none, q.2)
  | none => r

/-- `yaffs_soft_del_worker`, which always gets all done. -/
def softDelTnodes (g : Geometry) : (n : ℕ) → ℕ → TnodePool × BlockDev → TnodePool × BlockDev
  | 0, a, r => (List.finRange 16).reverse.foldl (softDelGroupAt g a) r
  | n + 1, a, r => (List.finRange 8).reverse.foldl (softDelSlotAt (softDelTnodes g n) a) r

section workers

variable {g : Geometry} {p : TnodePool} {n a : ℕ} {d : BlockDev}

/-- Pruning below the tnode at `a` moves tnodes to the free list, and is the pruning of the tree. -/
structure PrunedAt (n a : ℕ) (del0 : Bool) (p : TnodePool) (d : BlockDev) (r : TnodePool × Option ℕ) :
    Prop where
  move : TnodesMove (tnodesBelow p.cell n a) (tnodesFrom r.1.cell n r.2) p r.1
  tree : r.2.map (tnodeTree r.1.cell n) = (Tnode.pruneWorker n (tnodeTree p.cell n a) del0 d).2

theorem pruneSlotAt_spec {worker : ℕ → Bool → TnodePool → TnodePool × Option ℕ} {del0 : Bool}
    (hw : ∀ b del0 p d, TnodesApart (tnodesBelow p.cell n b) p → PrunedAt n b del0 p d (worker b del0 p))
    (hap : TnodesApart (tnodesBelow p.cell (n + 1) a) p) (i : Fin 8) (d : BlockDev) :
    let q := pruneSlotAt worker del0 a p i
    TnodesMove (tnodesBelow p.cell (n + 1) a) (tnodesBelow q.cell (n + 1) a) p q ∧
      tnodeTree q.cell (n + 1) a = (Tnode.pruneSlot (fun t b d => Tnode.pruneWorker n t b d) del0
        (d, tnodeTree p.cell (n + 1) a) i).2 := by
  unfold pruneSlotAt Tnode.pruneSlot
  simp only [internal_tnodeTree]
  cases hb : (p.cell a).internal i with
  | none => exact ⟨TnodesMove.refl _ p, rfl⟩
  | some b =>
    have hapb := hap.sub i
    rw [hb] at hapb
    obtain ⟨hmove, htree⟩ := hw b (if i = 0 then del0 else true) p d hapb
    generalize (if i = 0 then del0 else true) = del at hmove htree ⊢
    obtain ⟨hmove', htree'⟩ := TnodesMove.slot_alone hap (i := i) (by rw [hb]; exact hmove)
    refine ⟨hmove', ?_⟩
    rw [htree', htree]
    rfl

theorem pruneWorker_succ (n : ℕ) (t : Tnode (n + 1)) (del0 : Bool) (d : BlockDev) :
    Tnode.pruneWorker (n + 1) t del0 d =
      let r := (List.finRange 8).foldl (Tnode.pruneSlot (fun t b d => Tnode.pruneWorker n t b d) del0) (d, t)
      if (∀ i, (r.2.internal i).isNone) ∧ del0 then (freeTnode r.1, none) else (r.1, some r.2) :=
  rfl

theorem pruneTnodes_spec (n a : ℕ) (del0 : Bool) (p : TnodePool) (d : BlockDev)
    (hap : TnodesApart (tnodesBelow p.cell n a) p) : PrunedAt n a del0 p d (pruneTnodes n a del0 p) := by
  induction n generalizing a del0 p d with
  | zero =>
    have htree : Tnode.pruneWorker 0 (tnodeTree p.cell 0 a) del0 d =
        if (∀ i, (p.cell a).group i = 0) ∧ del0 then (freeTnode d, none)
        else (d, some (tnodeTree p.cell 0 a)) := rfl
    unfold pruneTnodes
    split_ifs at htree ⊢ with h
    · exact ⟨TnodesMove.freeTnode a [] p, by rw [htree]; rfl⟩
    · exact ⟨TnodesMove.refl _ p, by rw [htree]; rfl⟩
  | succ n ih =>
    have hloop : ∀ (is : List (Fin 8)) (p : TnodePool) (d : BlockDev),
        TnodesApart (tnodesBelow p.cell (n + 1) a) p →
        let q := is.foldl (pruneSlotAt (fun b del0 p => pruneTnodes n b del0 p) del0 a) p
        TnodesMove (tnodesBelow p.cell (n + 1) a) (tnodesBelow q.cell (n + 1) a) p q ∧
          tnodeTree q.cell (n + 1) a = (is.foldl (Tnode.pruneSlot (fun t b d => Tnode.pruneWorker n t b d) del0)
            (d, tnodeTree p.cell (n + 1) a)).2 := by
      intro is
      induction is with
      | nil => exact fun p d _ => ⟨TnodesMove.refl _ p, rfl⟩
      | cons i is ihl =>
        intro p d hap
        obtain ⟨hmove, htree⟩ := pruneSlotAt_spec (fun b del0 p d hb => ih b del0 p d hb) hap i d
        simp only [List.foldl_cons]
        generalize pruneSlotAt (fun b del0 p => pruneTnodes n b del0 p) del0 a p i = q at hmove htree ⊢
        generalize Tnode.pruneSlot (fun t b d => Tnode.pruneWorker n t b d) del0
          (d, tnodeTree p.cell (n + 1) a) i = r at htree ⊢
        obtain ⟨d', t⟩ := r
        obtain rfl : tnodeTree q.cell (n + 1) a = t := htree
        obtain ⟨hmove', htree'⟩ := ihl q d' (hap.move hmove)
        exact ⟨hmove.trans hmove', htree'⟩
    obtain ⟨hmove, htree⟩ := hloop (List.finRange 8) p d hap
    have hworker : (Tnode.pruneWorker (n + 1) (tnodeTree p.cell (n + 1) a) del0 d).2 =
        let t := ((List.finRange 8).foldl (Tnode.pruneSlot (fun t b d => Tnode.pruneWorker n t b d) del0)
          (d, tnodeTree p.cell (n + 1) a)).2
        if (∀ i, (t.internal i).isNone) ∧ del0 then none else some t := by
      rw [pruneWorker_succ]
      exact apply_ite Prod.snd _ _ _
    unfold pruneTnodes
    simp only at hworker ⊢
    generalize (List.finRange 8).foldl (pruneSlotAt (fun b del0 p => pruneTnodes n b del0 p) del0 a) p = q
      at hmove htree ⊢
    have hnone : (∀ i, ((tnodeTree q.cell (n + 1) a).internal i).isNone) ↔
        ∀ i, ((q.cell a).internal i).isNone := by
      simp [internal_tnodeTree]
    rw [← htree] at hworker
    simp only [hnone] at hworker
    split_ifs at hworker ⊢ with h
    · refine ⟨hmove.trans ?_, hworker.symm⟩
      have hbelow : tnodesBelow q.cell (n + 1) a = [a] := by
        rw [tnodesBelow_succ]
        simp only [Option.isNone_iff_eq_none] at h
        simp [h.1, tnodesFrom]
      rw [hbelow]
      exact TnodesMove.freeTnode a [] q
    · exact ⟨hmove, hworker.symm⟩

/-- Soft deletion leaves the tnode at `a`, with nothing below it. -/
structure SoftDeletedAt (n a : ℕ) (p p' : TnodePool) : Prop where
  move : TnodesMove (tnodesBelow p.cell n a) [a] p p'
  below : tnodesBelow p'.cell n a = [a]
  tree : tnodeTree p'.cell n a = Tnode.empty n

theorem TnodesMove.setGroups {l : List ℕ} {v : Fin 16 → ℕ} (ha : a ∈ l) : TnodesMove l l p (p.setGroups a v) :=
  ⟨le_rfl, by simp [TnodePool.setGroups], rfl,
    fun x _ hl _ => Function.update_of_ne (fun hx : x = a => hl (hx ▸ ha)) _ _⟩

theorem group_setGroups_cell (v : Fin 16 → ℕ) : ((p.setGroups a v).cell a).group = v := by
  simp [TnodePool.setGroups]

theorem softDelGroupAt_spec (r : TnodePool × BlockDev) (i : Fin 16) :
    let r' := softDelGroupAt g a r i
    TnodesMove [a] [a] r.1 r'.1 ∧
      ∀ j, (r'.1.cell a).group j = if j = i then 0 else (r.1.cell a).group j := by
  unfold softDelGroupAt
  simp only [ne_eq, groupBase_eq_zero, ite_not]
  split_ifs with h
  · refine ⟨TnodesMove.refl _ _, fun j => ?_⟩
    split_ifs with hj
    · rw [hj, h]
    · rfl
  · exact ⟨TnodesMove.setGroups List.mem_cons_self, fun j => by rw [group_setGroups_cell]⟩

theorem softDelGroups_spec (is : List (Fin 16)) (r : TnodePool × BlockDev) :
    let r' := is.foldl (softDelGroupAt g a) r
    TnodesMove [a] [a] r.1 r'.1 ∧
      ∀ j, (r'.1.cell a).group j = if j ∈ is then 0 else (r.1.cell a).group j := by
  induction is generalizing r with
  | nil => exact ⟨TnodesMove.refl _ _, fun j => by simp⟩
  | cons i is ih =>
    obtain ⟨hmove, hgroup⟩ := softDelGroupAt_spec (g := g) (a := a) r i
    obtain ⟨hmove', hgroup'⟩ := ih (softDelGroupAt g a r i)
    refine ⟨hmove.trans hmove', fun j => ?_⟩
    rw [List.foldl_cons, hgroup', hgroup]
    by_cases hj : j = i <;> simp [hj]

/-- After the soft deletion below one pointer there is nothing. -/
theorem softDelSlotAt_spec {worker : ℕ → TnodePool × BlockDev → TnodePool × BlockDev}
    (hw : ∀ b r, TnodesApart (tnodesBelow r.1.cell n b) r.1 → SoftDeletedAt n b r.1 (worker b r).1)
    (r : TnodePool × BlockDev) (hap : TnodesApart (tnodesBelow r.1.cell (n + 1) a) r.1) (i : Fin 8) :
    let r' := softDelSlotAt worker a r i
    TnodesMove (tnodesBelow r.1.cell (n + 1) a) (tnodesBelow r'.1.cell (n + 1) a) r.1 r'.1 ∧
      ∀ j, (r'.1.cell a).internal j = if j = i then none else (r.1.cell a).internal j := by
  unfold softDelSlotAt
  cases hb : (r.1.cell a).internal i with
  | none =>
    refine ⟨TnodesMove.refl _ _, fun j => ?_⟩
    split_ifs with hj
    · rw [hj, hb]
    · rfl
  | some b =>
    have hapb := hap.sub i
    rw [hb] at hapb
    have hmove : TnodesMove (tnodesFrom r.1.cell n ((r.1.cell a).internal i)) [] r.1
        ((worker b r).1.freeTnode b) := by
      rw [hb]
      exact (hw b r hapb).move.trans (TnodesMove.freeTnode b [] _)
    refine ⟨(TnodesMove.slot_alone hap (c := none) hmove).1, fun j => ?_⟩
    rw [← List.append_nil (tnodesBelow _ _ _)] at hap
    rw [← List.append_nil (tnodesFrom _ _ _)] at hmove
    rw [internal_setInternal_cell, hap.beside_eq hmove a List.mem_cons_self]

theorem softDelTnodes_spec (n a : ℕ) (r : TnodePool × BlockDev)
    (hap : TnodesApart (tnodesBelow r.1.cell n a) r.1) :
    SoftDeletedAt n a r.1 (softDelTnodes g n a r).1 := by
  induction n generalizing a r with
  | zero =>
    obtain ⟨hmove, hgroup⟩ := softDelGroups_spec (g := g) (a := a) (List.finRange 16).reverse r
    exact ⟨hmove, rfl, funext fun i => (hgroup i).trans (if_pos (by simp))⟩
  | succ n ih =>
    have hloop : ∀ (is : List (Fin 8)) (r : TnodePool × BlockDev),
        TnodesApart (tnodesBelow r.1.cell (n + 1) a) r.1 →
        let r' := is.foldl (softDelSlotAt (softDelTnodes g n) a) r
        TnodesMove (tnodesBelow r.1.cell (n + 1) a) (tnodesBelow r'.1.cell (n + 1) a) r.1 r'.1 ∧
          ∀ j, (r'.1.cell a).internal j = if j ∈ is then none else (r.1.cell a).internal j := by
      intro is
      induction is with
      | nil => exact fun r _ => ⟨TnodesMove.refl _ _, fun j => by simp⟩
      | cons i is ihl =>
        intro r hap
        obtain ⟨hmove, hslot⟩ := softDelSlotAt_spec (fun b r hb => ih b r hb) r hap i
        obtain ⟨hmove', hslot'⟩ := ihl _ (hap.move hmove)
        refine ⟨hmove.trans hmove', fun j => ?_⟩
        rw [List.foldl_cons, hslot', hslot]
        by_cases hj : j = i <;> simp [hj]
    obtain ⟨hmove, hslot⟩ := hloop (List.finRange 8).reverse r hap
    change SoftDeletedAt (n + 1) a r.1 ((List.finRange 8).reverse.foldl (softDelSlotAt (softDelTnodes g n) a) r).1
    generalize (List.finRange 8).reverse.foldl (softDelSlotAt (softDelTnodes g n) a) r = r' at hmove hslot ⊢
    have hnone : ∀ j, (r'.1.cell a).internal j = none := by simpa using hslot
    have hbelow : tnodesBelow r'.1.cell (n + 1) a = [a] := by
      simp [tnodesBelow_succ, hnone, tnodesFrom]
    rw [hbelow] at hmove
    refine ⟨hmove, hbelow, funext fun i => ?_⟩
    change ((r'.1.cell a).internal i).map _ = none
    rw [hnone]
    rfl

end workers

/-! ## Storing a group -/

/-- Storing at the level-0 tnode of `k` is `Tnode.load` on the tree. -/
theorem tnodeTree_setGroups {p : TnodePool} {n a b k v : ℕ} (hnodup : (tnodesBelow p.cell n a).Nodup)
    (hb : tnodeAt p.cell n a k = some b) :
    tnodeTree (p.setGroups b (Tnode.setGroup (p.cell b).group (Fin.ofNat 16 k) v)).cell n a =
      Tnode.load n (tnodeTree p.cell n a) k v := by
  induction n generalizing a with
  | zero =>
    obtain rfl : a = b := by simpa [tnodeAt] using hb
    exact group_setGroups_cell _
  | succ n ih =>
    obtain ⟨c, hc, hbc⟩ := Option.bind_eq_some_iff.mp hb
    generalize hq : p.setGroups b (Tnode.setGroup (p.cell b).group (Fin.ofNat 16 k) v) = q at ih ⊢
    have hcell : ∀ x ≠ b, q.cell x = p.cell x := fun x hx => by
      rw [← hq]
      exact Function.update_of_ne hx _ _
    have hinternal : (q.cell a).internal = (p.cell a).internal := by
      by_cases hab : a = b
      · subst hab
        simp [← hq, TnodePool.setGroups]
      · rw [hcell a hab]
    have hperm := tnodesBelow_perm_slot p.cell n a (tnodeSlot n k) []
    rw [List.append_nil, List.append_nil, hc] at hperm
    have hparts := List.nodup_append'.mp (hperm.nodup_iff.mp hnodup)
    funext i
    change ((q.cell a).internal i).map (tnodeTree q.cell n) = if i = tnodeSlot n k then
      (((p.cell a).internal (tnodeSlot n k)).map (tnodeTree p.cell n)).map (fun t => Tnode.load n t k v)
      else ((p.cell a).internal i).map (tnodeTree p.cell n)
    rw [hinternal]
    split_ifs with hi
    · rw [hi, hc]
      exact congrArg some (ih hparts.1 hbc)
    · refine (tnodesFrom_congr n _ fun x hx => hcell x fun hxb => ?_).1
      -- the tnode written is below another pointer
      refine hparts.2.2 (tnodeAt_mem n c k hbc) (List.mem_cons_of_mem _ ?_)
      exact List.mem_flatMap.mpr ⟨i, (List.mem_erase_of_ne hi).mpr (List.mem_finRange i), hxb ▸ hx⟩

end Yaffs
