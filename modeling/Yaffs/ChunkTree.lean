import Yaffs.Agreement
import Yaffs.TnodePool

/-!
# The chunk tree of a file in memory

The functions of the chunk tree on the memory of the tnodes, for one file : finding, adding and
deleting chunks, pruning, soft deletion and the reading of tnodes from a checkpoint, in any order
and with allocations that fail. The tree is a finite map from chunks of the file to chunks of the
device, and no tnode is reached on two ways.

Soft deletion takes away the first tnode of every level. A file that is pruned after it loses its
top, and taller trees make `yaffs_prune_tree` follow the pointer it has just stored as `NULL` : the
source prunes when a file is resized, and resizes no file that is softly deleted.
-/

namespace Yaffs

open scoped Tnode

/-! ## The functions -/

/-- A file, the memory of its tnodes and the blocks of its chunks. -/
structure TreeFile where
  pool : TnodePool
  blocks : BlockDev
  objId : ℕ
  nDataChunks : ℤ := 0
  softDel : Bool := false
  topLevel : ℕ := 0
  top : Option ℕ := none

namespace TreeFile

variable (g : Geometry) (e : Env)

/-- `yaffs_find_tnode_0`. -/
def findTnode0 (f : TreeFile) (k : ℕ) : Option ℕ :=
  if tnodesMaxLevel < f.topLevel then none
  else if maxChunkId < k then none
  else if f.topLevel < requiredDepth k then none
  else f.top.bind fun a => tnodeAt f.pool.cell f.topLevel a k

/-- The group the level-0 tnode at `a` has for `k`. -/
def groupAt (f : TreeFile) (a k : ℕ) : ℕ :=
  (f.pool.cell a).group (Fin.ofNat 16 k)

/-- `yaffs_load_tnode_0`. -/
def loadTnode (a k c : ℕ) (f : TreeFile) : TreeFile :=
  { f with pool := f.pool.setGroups a (Tnode.setGroup (f.pool.cell a).group (Fin.ofNat 16 k) (groupOf g c)) }

/-- The loop of `yaffs_add_find_tnode_0` that makes the tree taller. -/
def growTree : ℕ → TreeFile → TreeFile × Bool
  | 0, f => (f, true)
  | n + 1, f =>
    match f.pool.getTnode e with
    | (p, some a) =>
      growTree n { f with pool := p.setInternal a 0 f.top, topLevel := f.topLevel + 1, top := some a }
    | (p, none) => ({ f with pool := p }, false)

/-- `yaffs_add_find_tnode_0`. -/
def addFindTnode0 (k : ℕ) (passed : Option ℕ) (f : TreeFile) : TreeFile × Option ℕ :=
  if tnodesMaxLevel < f.topLevel then (f, none)
  else if maxChunkId < k then (f, none)
  else
    let r := growTree e (requiredDepth k - f.topLevel) f
    if r.2 then
      match r.1.top, passed with
      | none, _ => (r.1, none)
      | some a, some q =>
        if r.1.topLevel = 0 then
          ({ r.1 with pool := (r.1.pool.setGroups a (r.1.pool.cell q).group).freeTnode q }, some a)
        else
          let s := descendTnodes e (some q) r.1.topLevel a k r.1.pool
          ({ r.1 with pool := s.1 }, s.2)
      | some a, none =>
        let s := descendTnodes e none r.1.topLevel a k r.1.pool
        ({ r.1 with pool := s.1 }, s.2)
    else (r.1, none)

/-- `yaffs_find_chunk_in_file`. -/
def findChunk (f : TreeFile) (k : ℕ) : Option ℕ :=
  (f.findTnode0 k).bind fun a => findChunkInGroup g f.blocks (groupBase g (f.groupAt a k)) f.objId k

/-- `yaffs_find_del_file_chunk`. -/
def findDelChunk (k : ℕ) (f : TreeFile) : TreeFile × Option ℕ :=
  match f.findTnode0 k with
  | none => (f, none)
  | some a =>
    match findChunkInGroup g f.blocks (groupBase g (f.groupAt a k)) f.objId k with
    | some c => (loadTnode g a k 0 f, some c)
    | none => (f, none)

/-- `yaffs_put_chunk_in_file`. Scanning forwards, the serial numbers tell the newer of two chunks ;
the one of the old chunk is not read when there is no group to look through. -/
def putChunk (m : MountParam) (k c : ℕ) (inScan : ℤ) (f : TreeFile) : TreeFile × Bool :=
  match addFindTnode0 e k none f with
  | (f, none) => (f, false)
  | (f, some a) =>
    if c = 0 then (f, true)
    else
      let existing := groupBase g (f.groupAt a k)
      let load := fun f : TreeFile => loadTnode g a k c
        (if existing = 0 then { f with nDataChunks := f.nDataChunks + 1 } else f)
      if inScan = 0 ∨ existing = 0 then (load f, true)
      else if 0 < inScan then
        let r := rdChunkTagsNand g m.reader c f.blocks
        let f := { f with blocks := r.1 }
        match findChunk g f k with
        | none => (load f, true)
        | some old =>
          let serial := if g.chunkGrpSize = 1 then m.stale
            else (m.reader f.blocks.nand.calls old).serialNumber
          if (serial + 1) % 4 = r.2.serialNumber then
            (load { f with blocks := chunkDel g e old true f.blocks }, true)
          else ({ f with blocks := chunkDel g e c true f.blocks }, true)
      else ({ f with blocks := chunkDel g e c true f.blocks }, true)

/-- The loop of `yaffs_prune_tree` that makes the tree shorter. -/
def lowerTree : (n : ℕ) → ℕ → TnodePool → TnodePool × ℕ × Option ℕ
  | 0, a, p => (p, 0, some a)
  | n + 1, a, p =>
    if ∀ i, i ≠ 0 → ((p.cell a).internal i).isNone then
      match (p.cell a).internal 0 with
      | some b => lowerTree n b (p.freeTnode a)
      | none => (p.freeTnode a, n, none)
    else (p, n + 1, some a)

/-- `yaffs_prune_tree`. -/
def pruneTree (f : TreeFile) : TreeFile :=
  if f.topLevel < 1 then f
  else
    match f.top with
    | none => f
    | some a =>
      match pruneTnodes f.topLevel a false f.pool with
      | (p, some a) =>
        let r := lowerTree f.topLevel a p
        { f with pool := r.1, topLevel := r.2.1, top := r.2.2 }
      | (p, none) => { f with pool := p, top := none }

/-- The soft deletion of the chunks of a file in `yaffs_soft_del_file`. -/
def softDelTree (f : TreeFile) : TreeFile :=
  match f.top with
  | none => { f with softDel := true }
  | some a =>
    let r := softDelTnodes g f.topLevel a (f.pool, f.blocks)
    { f with pool := r.1, blocks := r.2, softDel := true }

/-- What `yaffs2_rd_checkpt_tnodes` does with one record : a tnode for the chunks from `k` on, with
the groups `v`. -/
def loadCheckptTnode (k : ℕ) (v : Fin 16 → ℕ) (f : TreeFile) : TreeFile × Bool :=
  match f.pool.getTnode e with
  | (p, none) => ({ f with pool := p }, false)
  | (p, some q) =>
    let r := addFindTnode0 e k (some q) { f with pool := p.setGroups q v }
    (r.1, r.2.isSome)

/-! ## The tree that is read off -/

/-- The look-up tree of the file. -/
def var (f : TreeFile) : FileVar :=
  { topLevel := f.topLevel
    top := f.top.map (tnodeTree f.pool.cell f.topLevel) }

/-- The tnodes of the file, one for each way from its top. -/
def tnodes (f : TreeFile) : List ℕ :=
  tnodesFrom f.pool.cell f.topLevel f.top

/-- The first tnode of every level is there. -/
def Rooted (f : TreeFile) : Prop :=
  FileVar.Rooted f.var.topLevel f.var.top

section specs

variable {g : Geometry} {e : Env} {f : TreeFile} {k : ℕ} {ex : List ℕ}

theorem find_var (f : TreeFile) (k : ℕ) :
    f.var.find k = (f.findTnode0 k).map fun a => f.groupAt a k := by
  unfold FileVar.find findTnode0 var
  split_ifs
  · rfl
  · rfl
  · rfl
  · cases f.top with
    | none => rfl
    | some a => exact find_tnodeTree _ a k

theorem entry_var {a : ℕ} (h : f.findTnode0 k = some a) : f.var.entry k = f.groupAt a k := by
  rw [FileVar.entry, find_var, h]
  rfl

/-- The file gets tnodes, and nothing else about it changes. -/
structure GetsTnodes (ex ex' : List ℕ) (f f' : TreeFile) : Prop where
  move : TnodesMove (f.tnodes ++ ex) (f'.tnodes ++ ex') f.pool f'.pool
  rooted : f.Rooted → f'.Rooted
  top : f.top ≠ none → f'.top ≠ none
  frame : f' = { f with pool := f'.pool, topLevel := f'.topLevel, top := f'.top }

theorem GetsTnodes.refl (ex : List ℕ) (f : TreeFile) : GetsTnodes ex ex f f :=
  ⟨TnodesMove.refl _ _, fun h => h, fun h => h, rfl⟩

theorem GetsTnodes.trans {ex' ex'' : List ℕ} {f' f'' : TreeFile} (h : GetsTnodes ex ex' f f')
    (h' : GetsTnodes ex' ex'' f' f'') : GetsTnodes ex ex'' f f'' :=
  ⟨h.move.trans h'.move, fun hr => h'.rooted (h.rooted hr), fun ht => h'.top (h.top ht), by
    rw [h'.frame, h.frame]⟩

/-- A new top over the old one. -/
theorem raise_spec {p : TnodePool} {a : ℕ} (hap : TnodesApart (f.tnodes ++ ex) f.pool)
    (hmove : TnodesMove [] [a] f.pool p) (hcell : p.cell a = {}) :
    let f' := { f with pool := p.setInternal a 0 f.top, topLevel := f.topLevel + 1, top := some a }
    GetsTnodes ex ex f f' ∧ f'.var = f.var.raise := by
  intro f'
  have hold : ∀ x ∈ f.tnodes ++ ex, p.cell x = f.pool.cell x :=
    fun x hx => hap.cell_of_take hmove hx
  obtain ⟨htop, hbelow⟩ := tnodesFrom_congr f.topLevel f.top
    fun x hx => hold x (List.mem_append_left _ hx)
  obtain ⟨hnew, htree⟩ := tnodesBelow_empty hcell (f.topLevel + 1)
  have hmove' := hmove.append (f.tnodes ++ ex)
  rw [List.nil_append, ← hnew] at hmove'
  have hkeep : TnodesMove (tnodesFrom p.cell f.topLevel ((p.cell a).internal 0) ++ (f.tnodes ++ ex))
      (tnodesFrom p.cell f.topLevel f.top ++ ex) p p := by
    rw [hcell, hbelow]
    exact TnodesMove.refl _ p
  obtain ⟨hslot, htree'⟩ := TnodesMove.slot (hap.move hmove') hkeep
  have hvar : f'.var = f.var.raise := by
    change ({ topLevel := f.topLevel + 1, top := some (tnodeTree f'.pool.cell (f.topLevel + 1) a) } : FileVar) = _
    rw [htree', htree, htop]
    rfl
  refine ⟨⟨hmove'.trans hslot, fun hr => ?_, fun _ => by simp [f'], rfl⟩, hvar⟩
  unfold Rooted
  rw [hvar]
  exact FileVar.rooted_raise hr

theorem growTree_spec (n : ℕ) (f : TreeFile) (hap : TnodesApart (f.tnodes ++ ex) f.pool)
    (hl : f.topLevel + n ≤ tnodesMaxLevel) :
    let r := growTree e n f
    GetsTnodes ex ex f r.1 ∧ (∀ k, r.1.var.entry k = f.var.entry k) ∧ r.1.topLevel ≤ f.topLevel + n ∧
      (r.2 = true → r.1.topLevel = f.topLevel + n) := by
  induction n generalizing f with
  | zero => exact ⟨GetsTnodes.refl ex f, fun _ => rfl, le_rfl, fun _ => rfl⟩
  | succ n ih =>
    obtain ⟨hget, hfail⟩ := getTnode_spec e f.pool
    unfold growTree
    rcases hr : f.pool.getTnode e with ⟨p, _ | a⟩
    · rw [hr] at hfail
      have hmove := hfail rfl
      obtain ⟨htop, hbelow⟩ := tnodesFrom_congr f.topLevel f.top
        fun x hx => hap.cell_of_take hmove (List.mem_append_left _ hx)
      have hvar : ({ f with pool := p } : TreeFile).var = f.var := by
        unfold var
        rw [htop]
      refine ⟨⟨?_, fun h => ?_, fun h => h, rfl⟩, fun k => by rw [hvar], by simp, by simp⟩
      · have := hmove.append (f.tnodes ++ ex)
        simpa [tnodes, hbelow] using this
      · unfold Rooted
        rw [hvar]
        exact h
    · obtain ⟨hmove, hcell⟩ := hget a (by rw [hr])
      rw [hr] at hmove hcell
      obtain ⟨hraise, hvar⟩ := raise_spec hap hmove hcell
      obtain ⟨h1, h2, h3, h4⟩ := ih _ (hap.move hraise.move) (by simp only; omega)
      refine ⟨hraise.trans h1, fun k => ?_, by simp only at h3 ⊢; omega, fun h => ?_⟩
      swap
      · rw [h4 h]
        simp only
        omega
      rw [h2, hvar]
      exact FileVar.entry_raise (f := f.var) (by simp only [var]; omega) k

/-- What `yaffs_add_find_tnode_0` does : the tnode that was passed gives the chunks of its leaf the
groups `v`, no other entry changes. -/
structure AddsTnodes (passed : Option ℕ) (v : Fin 16 → ℕ) (k : ℕ) (f : TreeFile) (r : TreeFile × Option ℕ) :
    Prop where
  gets : GetsTnodes passed.toList (if r.2.isSome then [] else passed.toList) f r.1
  level : r.1.topLevel ≤ tnodesMaxLevel
  found : ∀ a, r.2 = some a → r.1.findTnode0 k = some a
  entry : ∀ k' ≤ maxChunkId, r.1.var.entry k' =
    if passed.isSome ∧ r.2.isSome ∧ k' / 16 = k / 16 then v (Fin.ofNat 16 k') else f.var.entry k'

variable {passed : Option ℕ} {v : Fin 16 → ℕ}

theorem AddsTnodes.none (hl : f.topLevel ≤ tnodesMaxLevel) : AddsTnodes passed v k f (f, none) :=
  ⟨GetsTnodes.refl _ f, hl, fun _ h => by simp at h, fun _ _ => by simp⟩

theorem AddsTnodes.of_same {f' : TreeFile} {r : TreeFile × Option ℕ}
    (hf : GetsTnodes passed.toList passed.toList f f') (hentry : ∀ k, f'.var.entry k = f.var.entry k)
    (h : AddsTnodes passed v k f' r) : AddsTnodes passed v k f r :=
  ⟨hf.trans h.gets, h.level, h.found, fun k' hk' => by rw [h.entry k' hk', hentry]⟩

theorem sameLeaf_iff {n k' : ℕ} (hk : k < tnodeSpan n) (hk' : k' < tnodeSpan n) :
    SameLeaf n k k' ↔ k' / 16 = k / 16 := by
  have hdiv : ∀ m < tnodeSpan n, m / 16 % 8 ^ n = m / 16 := fun m hm => by
    refine Nat.mod_eq_of_lt ?_
    rw [Nat.div_lt_iff_lt_mul (by decide), Nat.mul_comm]
    exact hm
  rw [SameLeaf, hdiv k hk, hdiv k' hk', eq_comm]

/-- The way down in a tree that is tall enough. -/
theorem AddsTnodes.of_descended {a : ℕ} {s : TnodePool × Option ℕ} (htop : f.top = some a)
    (hl : f.topLevel ≤ tnodesMaxLevel) (hk : k ≤ maxChunkId) (htall : requiredDepth k ≤ f.topLevel)
    (h : Descended passed v f.topLevel a k f.pool s) :
    AddsTnodes passed v k f ({ f with pool := s.1 }, s.2) := by
  have hspan : k < tnodeSpan f.topLevel := (requiredDepth_le_iff hk).mp htall
  refine ⟨⟨?_, fun hr => ?_, fun h => h, rfl⟩, hl, fun b hb => ?_, fun k' hk' => ?_⟩
  · have hmove := h.move
    simpa only [tnodes, htop, tnodesFrom] using hmove
  · simp only [Rooted, var, htop] at hr ⊢
    exact h.rooted hr
  · unfold findTnode0
    rw [if_neg (by simp only; omega), if_neg (by omega), if_neg (by simp only; omega)]
    simpa [htop] using h.found b hb
  · rw [FileVar.entry_eq (f := ({ f with pool := s.1 } : TreeFile).var) hl hk',
      FileVar.entry_eq (f := f.var) hl hk']
    simp only [var, htop, FileVar.treeEntry]
    by_cases hk'' : k' < tnodeSpan f.topLevel
    · rw [if_pos hk'', if_pos hk'']
      simp only [← sameLeaf_iff hspan hk'']
      exact h.entry k'
    · have hne : ¬k' / 16 = k / 16 := fun heq => hk'' (by
        have hpos : tnodeSpan f.topLevel = 16 * 8 ^ f.topLevel := rfl
        omega)
      simp [hk'', hne]

/-- At level `0` the groups of the tnode that was passed are copied. -/
theorem Descended.copy {p : TnodePool} {a q : ℕ} (hap : TnodesApart (tnodesBelow p.cell 0 a ++ [q]) p)
    (hv : (p.cell q).group = v) :
    Descended (some q) v 0 a k p ((p.setGroups a (p.cell q).group).freeTnode q, some a) := by
  have hne : a ≠ q := by
    have := hap.left.nodup
    have := (List.nodup_append'.mp hap.nodup).1
    simpa [tnodesBelow] using this
  refine ⟨?_, fun b hb => hb, fun k' => ?_, fun h => h⟩
  · have hset : TnodesMove [a, q] [a, q] p (p.setGroups a (p.cell q).group) :=
      TnodesMove.setGroups List.mem_cons_self
    refine hset.trans ?_
    exact (TnodesMove.freeTnode q [a] _).of_perm (List.Perm.swap q a []) (List.Perm.refl _)
  · have hcell : (((p.setGroups a (p.cell q).group).freeTnode q).cell a).group = v := by
      have hother : ((p.setGroups a (p.cell q).group).freeTnode q).cell a =
          (p.setGroups a (p.cell q).group).cell a := cell_setInternal_of_ne hne
      rw [hother, group_setGroups_cell, hv]
    simp only [Option.isSome_some, SameLeaf, Nat.pow_zero, Nat.mod_one, and_self, if_true]
    exact congrFun hcell _

theorem addFindTnode0_spec (hap : TnodesApart (f.tnodes ++ passed.toList) f.pool)
    (hl : f.topLevel ≤ tnodesMaxLevel) (hv : ∀ q, passed = some q → (f.pool.cell q).group = v) :
    AddsTnodes passed v k f (addFindTnode0 e k passed f) := by
  unfold addFindTnode0
  rw [if_neg (by omega)]
  split_ifs with hk
  · exact AddsTnodes.none hl
  have hdepth := FileVar.requiredDepth_le_max (Nat.le_of_not_lt hk)
  have hap0 : TnodesApart (f.tnodes ++ []) f.pool := by
    rw [List.append_nil]
    exact hap.left
  obtain ⟨hgets, hentry, hle, hok⟩ := growTree_spec (e := e) (requiredDepth k - f.topLevel) f hap0 (by omega)
  simp only
  generalize growTree e (requiredDepth k - f.topLevel) f = r at hgets hentry hle hok ⊢
  obtain ⟨f', ok⟩ := r
  simp only at hgets hle hok ⊢
  have hmove : TnodesMove f.tnodes f'.tnodes f.pool f'.pool := by
    have := hgets.move
    rwa [List.append_nil, List.append_nil] at this
  have hv' : ∀ q, passed = some q → (f'.pool.cell q).group = v := fun q hq => by
    rw [hap.cell_eq hmove (by simp [hq]), hv q hq]
  have hap' := hap.move (hmove.append passed.toList)
  refine AddsTnodes.of_same ⟨hmove.append _, hgets.rooted, hgets.top, hgets.frame⟩ hentry ?_
  have hl' : f'.topLevel ≤ tnodesMaxLevel := by omega
  cases ok with
  | false => exact AddsTnodes.none hl'
  | true =>
    have htall : requiredDepth k ≤ f'.topLevel := by
      have := hok rfl
      omega
    have hk' : k ≤ maxChunkId := by omega
    have hdown : ∀ a s, f'.top = some a → Descended passed v f'.topLevel a k f'.pool s →
        AddsTnodes passed v k f' ({ f' with pool := s.1 }, s.2) :=
      fun a s htop h => AddsTnodes.of_descended htop hl' hk' htall h
    obtain ⟨pool, blocks, objId, nDataChunks, softDel, topLevel, top⟩ := f'
    cases top with
    | none => cases passed <;> exact AddsTnodes.none hl'
    | some a =>
      cases passed with
      | none =>
        exact hdown a _ rfl (descendTnodes_spec hap' (fun _ => rfl) fun q hq => by simp at hq)
      | some q =>
        simp only [if_true]
        split_ifs with h0
        · subst h0
          exact hdown a _ rfl (Descended.copy hap' (hv' q rfl))
        · exact hdown a _ rfl (descendTnodes_spec hap' (fun h => absurd h h0) hv')

/-! ## Pruning -/

/-- Making the tree at `a` shorter frees tnodes, and is `FileVar.lower` on the tree. -/
def LowersTo (n a : ℕ) (p : TnodePool) (d : BlockDev) (r : TnodePool × ℕ × Option ℕ) : Prop :=
  TnodesMove (tnodesBelow p.cell n a) (tnodesFrom r.1.cell r.2.1 r.2.2) p r.1 ∧
    (⟨r.2.1, r.2.2.map (tnodeTree r.1.cell r.2.1)⟩ : (m : ℕ) × Option (Tnode m)) =
      (FileVar.lower n (tnodeTree p.cell n a) d).2

theorem lowerTree_spec (n a : ℕ) (p : TnodePool) (d : BlockDev) (hap : TnodesApart (tnodesBelow p.cell n a) p) :
    LowersTo n a p d (lowerTree n a p) := by
  induction n generalizing a p d with
  | zero => exact ⟨TnodesMove.refl _ p, rfl⟩
  | succ n ih =>
    have hnone : (∀ i, i ≠ 0 → ((tnodeTree p.cell (n + 1) a).internal i).isNone) ↔
        ∀ i, i ≠ 0 → ((p.cell a).internal i).isNone := by
      simp [internal_tnodeTree]
    by_cases h : ∀ i, i ≠ 0 → ((p.cell a).internal i).isNone
    · -- there is nothing below the other pointers
      have hother : tnodesBeside p.cell n a 0 = [] := by
        refine List.flatMap_eq_nil_iff.mpr fun i hi => ?_
        have hi0 : i ≠ 0 := fun h0 => List.Nodup.not_mem_erase (List.nodup_finRange 8) (h0 ▸ hi)
        rw [Option.isNone_iff_eq_none.mp (h i hi0)]
        rfl
      have hperm : (tnodesBelow p.cell (n + 1) a).Perm (a :: tnodesFrom p.cell n ((p.cell a).internal 0)) := by
        simpa [hother] using tnodesBelow_perm p.cell n a 0
      have hmove : TnodesMove (tnodesBelow p.cell (n + 1) a) (tnodesFrom p.cell n ((p.cell a).internal 0)) p
          (p.freeTnode a) := (TnodesMove.freeTnode a _ p).of_perm hperm (List.Perm.refl _)
      have hna : ∀ x ∈ tnodesFrom p.cell n ((p.cell a).internal 0), (p.freeTnode a).cell x = p.cell x := by
        have hap' := hap.of_perm hperm.symm
        have hnodup := (List.nodup_append'.mp hap'.nodup).1
        exact fun x hx => cell_setInternal_of_ne fun hxa => (List.nodup_cons.mp hnodup).1 (hxa ▸ hx)
      obtain ⟨htree, hbelow⟩ := tnodesFrom_congr n _ hna
      rw [← hbelow] at hmove
      cases hb : (p.cell a).internal 0 with
      | none =>
        have hlower : FileVar.lower (n + 1) (tnodeTree p.cell (n + 1) a) d = (freeTnode d, ⟨n, none⟩) := by
          rw [FileVar.lower, if_pos (hnone.mpr h), internal_tnodeTree, hb]
          rfl
        rw [hb] at hmove
        rw [show lowerTree (n + 1) a p = (p.freeTnode a, n, none) by rw [lowerTree, if_pos h, hb]]
        exact ⟨hmove, by rw [hlower]; rfl⟩
      | some b =>
        have hlower : FileVar.lower (n + 1) (tnodeTree p.cell (n + 1) a) d =
            FileVar.lower n (tnodeTree p.cell n b) (freeTnode d) := by
          rw [FileVar.lower, if_pos (hnone.mpr h), internal_tnodeTree, hb]
          rfl
        rw [hb] at hmove htree
        rw [show lowerTree (n + 1) a p = lowerTree n b (p.freeTnode a) by rw [lowerTree, if_pos h, hb]]
        obtain ⟨hmove', htree'⟩ := ih b (p.freeTnode a) (freeTnode d) (hap.move hmove)
        refine ⟨hmove.trans hmove', ?_⟩
        rw [hlower, htree', Option.some.inj htree]
    · unfold lowerTree
      rw [if_neg h]
      refine ⟨TnodesMove.refl _ p, ?_⟩
      unfold FileVar.lower
      rw [if_neg (hnone.not.mpr h)]
      rfl

/-- `yaffs_prune_tree` frees tnodes, and is `FileVar.prune` on the tree. -/
theorem pruneTree_spec (f : TreeFile) (d : BlockDev) (hap : TnodesApart f.tnodes f.pool) :
    TnodesMove f.tnodes (pruneTree f).tnodes f.pool (pruneTree f).pool ∧
      (pruneTree f).var = (f.var.prune d).2 ∧
      pruneTree f = { f with
        pool := (pruneTree f).pool
        topLevel := (pruneTree f).topLevel
        top := (pruneTree f).top } := by
  obtain ⟨pool, blocks, objId, nDataChunks, softDel, topLevel, top⟩ := f
  by_cases h0 : topLevel < 1
  · have heq : ∀ f : TreeFile, f.topLevel < 1 → pruneTree f = f := fun f h => if_pos h
    have heq' : ∀ f : FileVar, f.topLevel < 1 → f.prune d = (d, f) := fun f h => if_pos h
    rw [heq _ h0, heq' _ h0]
    exact ⟨TnodesMove.refl _ _, rfl, rfl⟩
  · cases top with
    | none =>
      have heq : pruneTree ⟨pool, blocks, objId, nDataChunks, softDel, topLevel, none⟩ =
          ⟨pool, blocks, objId, nDataChunks, softDel, topLevel, none⟩ := if_neg h0
      have heq' : FileVar.prune { topLevel := topLevel, top := none } d =
          (d, { topLevel := topLevel, top := none }) := if_neg h0
      rw [heq]
      exact ⟨TnodesMove.refl _ _, (congrArg Prod.snd heq').symm, rfl⟩
    | some a =>
      obtain ⟨hmove, htree⟩ := pruneTnodes_spec topLevel a false pool d hap
      have heq : pruneTree ⟨pool, blocks, objId, nDataChunks, softDel, topLevel, some a⟩ =
          match pruneTnodes topLevel a false pool with
          | (p, some a) => ⟨(lowerTree topLevel a p).1, blocks, objId, nDataChunks, softDel,
              (lowerTree topLevel a p).2.1, (lowerTree topLevel a p).2.2⟩
          | (p, none) => ⟨p, blocks, objId, nDataChunks, softDel, topLevel, none⟩ := if_neg h0
      have hvar : (⟨pool, blocks, objId, nDataChunks, softDel, topLevel, some a⟩ : TreeFile).var =
          { topLevel := topLevel, top := some (tnodeTree pool.cell topLevel a) } := rfl
      rw [heq, hvar]
      generalize pruneTnodes topLevel a false pool = w at hmove htree ⊢
      rcases hw : Tnode.pruneWorker topLevel (tnodeTree pool.cell topLevel a) false d with ⟨d', t⟩
      rw [hw] at htree
      rcases w with ⟨p, _ | b⟩
      · obtain rfl : none = t := htree
        have heq' : FileVar.prune { topLevel := topLevel, top := some (tnodeTree pool.cell topLevel a) } d =
            (d', { topLevel := topLevel, top := none }) := by
          unfold FileVar.prune
          rw [if_neg h0]
          simp only [hw]
        rw [heq']
        exact ⟨hmove, rfl, rfl⟩
      · obtain rfl : some (tnodeTree p.cell topLevel b) = t := htree
        obtain ⟨hmove', htree'⟩ := lowerTree_spec topLevel b p d' (hap.move hmove)
        have heq' : (FileVar.prune { topLevel := topLevel, top := some (tnodeTree pool.cell topLevel a) } d).2 =
            { topLevel := (FileVar.lower topLevel (tnodeTree p.cell topLevel b) d').2.1
              top := (FileVar.lower topLevel (tnodeTree p.cell topLevel b) d').2.2 } := by
          unfold FileVar.prune
          rw [if_neg h0]
          simp only [hw]
        rw [heq']
        exact ⟨hmove.trans hmove', congrArg (fun s : (m : ℕ) × Option (Tnode m) =>
          ({ topLevel := s.1, top := s.2 } : FileVar)) htree', rfl⟩

/-! ## What the tree holds -/

/-- The tnodes of the file are apart, its tree is no taller than the source allows and has a top,
and the first tnodes are there as long as the file is not softly deleted. -/
structure Sound (f : TreeFile) : Prop where
  apart : TnodesApart f.tnodes f.pool
  level : f.topLevel ≤ tnodesMaxLevel
  top : f.top ≠ none
  rooted : f.softDel = false → f.Rooted

/-- Storing a group changes one entry. -/
theorem loadTnode_spec {a c : ℕ} (hf : f.Sound) (ha : f.findTnode0 k = some a) :
    (loadTnode g a k c f).Sound ∧
      ∀ k', (loadTnode g a k c f).var.entry k' = if k' = k then groupOf g c else f.var.entry k' := by
  have hhas : f.var.Has k := by
    rw [FileVar.Has, find_var, ha]
    simp
  obtain ⟨t, ht⟩ := Option.ne_none_iff_exists'.mp hf.top
  have hapart := hf.apart
  rw [tnodes, ht] at hapart
  have hat : tnodeAt f.pool.cell f.topLevel t k = some a := by
    unfold findTnode0 at ha
    split_ifs at ha
    simpa [ht] using ha
  have hmem : a ∈ f.tnodes := by
    rw [tnodes, ht]
    exact tnodeAt_mem _ _ _ hat
  have htree := tnodeTree_setGroups (v := groupOf g c) (List.nodup_append'.mp hapart.nodup).1 hat
  have hvar : (loadTnode g a k c f).var = f.var.load k (groupOf g c) := by
    simp only [var, loadTnode, FileVar.load, ht, Option.map_some]
    rw [htree]
  have hbelow : (loadTnode g a k c f).tnodes = f.tnodes := by
    simp only [tnodes, loadTnode, ht, tnodesFrom]
    refine tnodesBelow_congr _ _ fun x => ?_
    by_cases hx : x = a
    · subst hx
      simp [TnodePool.setGroups]
    · exact congrArg TnodeCell.internal (Function.update_of_ne hx _ _)
  refine ⟨⟨?_, hf.level, hf.top, fun hs => ?_⟩, fun k' => ?_⟩
  · rw [hbelow]
    exact hf.apart.move (TnodesMove.setGroups hmem)
  · unfold Rooted
    rw [hvar]
    exact FileVar.rooted_load _ _ _ _ (hf.rooted hs)
  · rw [hvar]
    exact FileVar.entry_load hhas k' _

/-- The tree holds the chunks of the map. -/
def Holds (f : TreeFile) (M : ℕ → ℕ) : Prop :=
  ∀ k ≤ maxChunkId, f.var.entry k = M k

variable {M : ℕ → ℕ}

theorem AddsTnodes.sound {r : TreeFile × Option ℕ} (hf : f.Sound)
    (hap : TnodesApart (f.tnodes ++ passed.toList) f.pool) (h : AddsTnodes passed v k f r) : r.1.Sound := by
  refine ⟨(hap.move h.gets.move).left, h.level, h.gets.top hf.top, fun hs => h.gets.rooted (hf.rooted ?_)⟩
  rw [h.gets.frame] at hs
  exact hs

theorem addFindTnode0_none_spec (hf : f.Sound) (hM : f.Holds M) :
    (addFindTnode0 e k none f).1.Sound ∧ (addFindTnode0 e k none f).1.Holds M ∧
      (∀ a, (addFindTnode0 e k none f).2 = some a → (addFindTnode0 e k none f).1.findTnode0 k = some a) ∧
      (addFindTnode0 e k none f).1.blocks = f.blocks := by
  have hap : TnodesApart (f.tnodes ++ (none : Option ℕ).toList) f.pool := by
    simpa using hf.apart
  have hadds : AddsTnodes none (fun _ => 0) k f (addFindTnode0 e k none f) :=
    addFindTnode0_spec hap hf.level (by simp)
  refine ⟨hadds.sound hf hap, fun k' hk' => ?_, hadds.found, by rw [hadds.gets.frame]⟩
  rw [hadds.entry k' hk', if_neg (by simp), hM k' hk']

theorem softDelTree_spec (hf : f.Sound) : (softDelTree g f).Sound ∧ (softDelTree g f).Holds fun _ => 0 := by
  obtain ⟨t, ht⟩ := Option.ne_none_iff_exists'.mp hf.top
  have hapart := hf.apart
  rw [tnodes, ht] at hapart
  have hspec := softDelTnodes_spec (g := g) f.topLevel t (f.pool, f.blocks) hapart
  have heq : softDelTree g f = { f with
      pool := (softDelTnodes g f.topLevel t (f.pool, f.blocks)).1
      blocks := (softDelTnodes g f.topLevel t (f.pool, f.blocks)).2, softDel := true } := by
    unfold softDelTree
    rw [ht]
  rw [heq]
  refine ⟨⟨?_, hf.level, hf.top, fun h => by simp at h⟩, fun k hk => ?_⟩
  · simp only [tnodes, ht, tnodesFrom]
    rw [hspec.below]
    exact hapart.move hspec.move
  · rw [FileVar.entry_eq hf.level hk]
    simp only [var, ht, Option.map_some, hspec.tree, FileVar.treeEntry]
    split_ifs
    · exact Tnode.entry_empty _ _
    · rfl

theorem pruneTree_sound (hf : f.Sound) (hs : f.softDel = false) (hM : f.Holds M) :
    (pruneTree f).Sound ∧ (pruneTree f).Holds M := by
  obtain ⟨hmove, hvar, hframe⟩ := pruneTree_spec f f.blocks hf.apart
  obtain ⟨-, hadded⟩ := FileVar.prune_spec f.var hf.level f.blocks
  have hroot : (pruneTree f).Rooted := by
    unfold Rooted
    rw [hvar]
    exact hadded.rooted (hf.rooted hs)
  refine ⟨⟨hf.apart.move hmove, ?_, fun htop => ?_, fun _ => hroot⟩, fun k hk => ?_⟩
  · have := hadded.level hf.level
    rw [← hvar] at this
    exact this
  · obtain ⟨t, ht⟩ := FileVar.Rooted.top hroot
    simp [var, htop] at ht
  · rw [hvar, hadded.entry, hM k hk]

/-! ## Looking up and storing -/

/-- What `yaffs_find_chunk_in_file` is to return for a chunk the map has `c` for. -/
def inUse (d : BlockDev) (c : ℕ) : Option ℕ :=
  if c ≠ 0 ∧ d.chunkBits c = true then some c else none

theorem groupBase_eq (hg : g.chunkGrpSize = 1) (v : ℕ) : groupBase g v = v := by
  have hbits : g.chunkGrpBits = 0 := by
    by_contra h
    have := Nat.one_lt_two_pow h
    unfold Param.chunkGrpSize at hg
    omega
  rw [groupBase, hbits, Nat.shiftLeft_zero]

theorem findChunkInGroup_eq (hg : g.chunkGrpSize = 1) (d : BlockDev) (c o k : ℕ) :
    findChunkInGroup g d c o k = inUse d c := by
  unfold findChunkInGroup inUse
  rw [hg]
  simp only [findChunkInGroupLoop]
  split_ifs <;> simp_all

theorem findChunk_eq (hg : g.chunkGrpSize = 1) (hM : f.Holds M) (hk : k ≤ maxChunkId) :
    findChunk g f k = inUse f.blocks (M k) := by
  rw [← hM k hk, FileVar.entry, find_var, findChunk]
  cases f.findTnode0 k with
  | none => simp [inUse]
  | some a =>
    rw [Option.bind_some, findChunkInGroup_eq hg, groupBase_eq hg]
    rfl

/-- `yaffs_find_del_file_chunk` finds the same, and takes what it finds out of the map. -/
theorem findDelChunk_spec (hg : g.chunkGrpSize = 1) (hf : f.Sound) (hM : f.Holds M) (hk : k ≤ maxChunkId) :
    (findDelChunk g k f).2 = inUse f.blocks (M k) ∧ (findDelChunk g k f).1.Sound ∧
      (findDelChunk g k f).1.Holds (if (inUse f.blocks (M k)).isSome then Function.update M k 0 else M) := by
  have hfind := findChunk_eq hg hM hk
  unfold findChunk at hfind
  unfold findDelChunk
  cases ha : f.findTnode0 k with
  | none =>
    rw [ha] at hfind
    rw [← hfind]
    exact ⟨rfl, hf, hM⟩
  | some a =>
    rw [ha, Option.bind_some] at hfind
    simp only
    rw [hfind]
    cases hc : inUse f.blocks (M k) with
    | none => exact ⟨rfl, hf, hM⟩
    | some c =>
      obtain ⟨hsound, hentry⟩ := loadTnode_spec (g := g) (c := 0) hf ha
      refine ⟨rfl, hsound, fun k' hk' => ?_⟩
      rw [hentry k']
      simp only [Option.isSome_some, if_true, Function.update_apply]
      split_ifs
      · simp [groupOf]
      · exact hM k' hk'

/-- What the source decides about a chunk for which the file has one already : outside scanning the
new one is taken, scanning backwards the old one, and scanning forwards the serial numbers tell. -/
def TakesNew (g : Geometry) (m : MountParam) (c : ℕ) (inScan : ℤ) (d : BlockDev) (old : ℕ) : Prop :=
  inScan = 0 ∨ old = 0 ∨ 0 < inScan ∧
    (d.chunkBits old = false ∨ (m.stale + 1) % 4 = (rdChunkTagsNand g m.reader c d).2.serialNumber)

instance (m : MountParam) (c : ℕ) (inScan : ℤ) (d : BlockDev) (old : ℕ) :
    Decidable (TakesNew g m c inScan d old) :=
  inferInstanceAs (Decidable (_ ∨ _ ∨ _ ∧ (_ ∨ _)))

theorem rdChunkTagsNand_bits (rd : Reader) (c : ℕ) (d : BlockDev) :
    (rdChunkTagsNand g rd c d).1.chunkBits = d.chunkBits := by
  unfold rdChunkTagsNand
  simp only
  split_ifs
  · unfold handleChunkError
    split_ifs <;> rfl
  · rfl

theorem findTnode0_le {a : ℕ} (ha : f.findTnode0 k = some a) : k ≤ maxChunkId := by
  unfold findTnode0 at ha
  split_ifs at ha
  omega

theorem Sound.of_blocks (hf : f.Sound) (d : BlockDev) (n : ℤ) :
    ({ f with blocks := d, nDataChunks := n } : TreeFile).Sound :=
  ⟨hf.apart, hf.level, hf.top, hf.rooted⟩

/-- What storing a chunk does to the map. -/
theorem loadTnode_holds {a c : ℕ} (hg : g.chunkGrpSize = 1) (hf : f.Sound) (hM : f.Holds M)
    (ha : f.findTnode0 k = some a) (hc : c ∈ g.chunks) :
    (loadTnode g a k c f).Sound ∧ (loadTnode g a k c f).Holds (Function.update M k c) := by
  obtain ⟨hsound, hentry⟩ := loadTnode_spec (g := g) (c := c) hf ha
  refine ⟨hsound, fun k' hk' => ?_⟩
  rw [hentry k', groupOf_eq hc, hg, Nat.div_one, Function.update_apply]
  split_ifs
  · rfl
  · exact hM k' hk'

theorem putChunk_spec (m : MountParam) {c : ℕ} {inScan : ℤ} (hg : g.chunkGrpSize = 1) (hf : f.Sound)
    (hM : f.Holds M) (hc : c = 0 ∨ c ∈ g.chunks) :
    let r := putChunk g e m k c inScan f
    r.1.Sound ∧ r.1.Holds
      (if r.2 = true ∧ c ≠ 0 ∧ TakesNew g m c inScan f.blocks (M k) then Function.update M k c else M) := by
  obtain ⟨hsound, hholds, hfound, hblocks⟩ := addFindTnode0_none_spec (e := e) (k := k) hf hM
  unfold putChunk
  generalize addFindTnode0 e k none f = r at hsound hholds hfound hblocks ⊢
  obtain ⟨f', _ | a⟩ := r
  · exact ⟨hsound, by simpa using hholds⟩
  simp only at hsound hholds hfound hblocks ⊢
  have ha := hfound a rfl
  have hk := findTnode0_le ha
  by_cases hc0 : c = 0
  · simp only [hc0, if_true]
    exact ⟨hsound, by simpa using hholds⟩
  have hin := hc.resolve_left hc0
  have hexisting : groupBase g (f'.groupAt a k) = M k := by
    rw [groupBase_eq hg, ← entry_var ha, hholds k hk]
  have hmap : (if True ∧ c ≠ 0 ∧ TakesNew g m c inScan f.blocks (M k) then Function.update M k c else M) =
      if TakesNew g m c inScan f.blocks (M k) then Function.update M k c else M := by
    simp [hc0]
  -- storing in a state that differs in its blocks, and leaving the old chunk
  have hload : TakesNew g m c inScan f.blocks (M k) → ∀ (d : BlockDev) (n : ℤ),
      (loadTnode g a k c { f' with blocks := d, nDataChunks := n }).Sound ∧
        (loadTnode g a k c { f' with blocks := d, nDataChunks := n }).Holds
          (if TakesNew g m c inScan f.blocks (M k) then Function.update M k c else M) := by
    intro ht d n
    rw [if_pos ht]
    exact loadTnode_holds hg (hsound.of_blocks d n) hholds ha hin
  have hkeep : ¬TakesNew g m c inScan f.blocks (M k) → ∀ d : BlockDev,
      ({ f' with blocks := d } : TreeFile).Sound ∧ ({ f' with blocks := d } : TreeFile).Holds
        (if TakesNew g m c inScan f.blocks (M k) then Function.update M k c else M) := by
    intro ht d
    rw [if_neg ht]
    exact ⟨hsound.of_blocks d _, hholds⟩
  have htakes : TakesNew g m c inScan f.blocks (M k) ↔ inScan = 0 ∨ M k = 0 ∨ 0 < inScan ∧
      (f.blocks.chunkBits (M k) = false ∨
        (m.stale + 1) % 4 = (rdChunkTagsNand g m.reader c f.blocks).2.serialNumber) := Iff.rfl
  generalize (if TakesNew g m c inScan f.blocks (M k) then Function.update M k c else M) = N at hmap hload hkeep
  simp only [if_neg hc0, hexisting]
  by_cases h1 : inScan = 0 ∨ M k = 0
  · have ht : TakesNew g m c inScan f.blocks (M k) := h1.elim Or.inl fun h => Or.inr (Or.inl h)
    simp only [if_pos h1]
    rw [hmap]
    by_cases hMk : M k = 0
    · simpa only [if_pos hMk] using hload ht f'.blocks (f'.nDataChunks + 1)
    · simpa only [if_neg hMk] using hload ht f'.blocks f'.nDataChunks
  obtain ⟨hs0, hMk⟩ := not_or.mp h1
  simp only [if_neg h1, if_neg hMk]
  by_cases h2 : 0 < inScan
  · have hbits := rdChunkTagsNand_bits (g := g) m.reader c f.blocks
    have hfind := findChunk_eq (f := { f' with blocks := (rdChunkTagsNand g m.reader c f'.blocks).1 }) hg hholds hk
    simp only [if_pos h2]
    rw [hfind]
    simp only [hblocks]
    cases hbit : f.blocks.chunkBits (M k) with
    | false =>
      have hnone : inUse (rdChunkTagsNand g m.reader c f.blocks).1 (M k) = none := by
        simp [inUse, hbits, hbit]
      rw [hnone]
      simp only
      rw [hmap]
      exact hload (htakes.mpr (Or.inr (Or.inr ⟨h2, Or.inl hbit⟩))) _ f'.nDataChunks
    | true =>
      have hsome : inUse (rdChunkTagsNand g m.reader c f.blocks).1 (M k) = some (M k) := by
        simp [inUse, hbits, hbit, hMk]
      rw [hsome]
      simp only [hg, if_true]
      by_cases hser : (m.stale + 1) % 4 = (rdChunkTagsNand g m.reader c f.blocks).2.serialNumber
      · simp only [if_pos hser]
        rw [hmap]
        exact hload (htakes.mpr (Or.inr (Or.inr ⟨h2, Or.inr hser⟩))) _ f'.nDataChunks
      · simp only [if_neg hser]
        rw [hmap]
        exact hkeep (fun ht => by simp [htakes, hs0, hMk, h2, hbit, hser] at ht) _
  · simp only [if_neg h2]
    rw [hmap]
    exact hkeep (fun ht => by simp [htakes, hs0, hMk, h2] at ht) _

/-- Tnodes are taken from the allocator, and the tree is not touched. -/
theorem take_spec {p : TnodePool} {l : List ℕ} (hf : f.Sound) (hM : f.Holds M) (hmove : TnodesMove [] l f.pool p) :
    let f' := { f with pool := p }
    f'.Sound ∧ f'.Holds M ∧ TnodesApart (f'.tnodes ++ l) p := by
  intro f'
  obtain ⟨htop, hbelow⟩ := tnodesFrom_congr f.topLevel f.top fun x hx => hf.apart.cell_of_take hmove hx
  have hvar : f'.var = f.var := by
    unfold var
    rw [htop]
  have hapart : TnodesApart (f'.tnodes ++ l) p := by
    have hap : TnodesApart ([] ++ f.tnodes) f.pool := hf.apart
    refine (hap.move (hmove.append f.tnodes)).of_perm ?_
    rw [tnodes, hbelow]
    exact List.perm_append_comm
  refine ⟨⟨hapart.left, hf.level, hf.top, fun hs => ?_⟩, fun k hk => ?_, hapart⟩
  · unfold Rooted
    rw [hvar]
    exact hf.rooted hs
  · rw [hvar, hM k hk]

theorem loadCheckptTnode_spec (hf : f.Sound) (hM : f.Holds M) :
    let r := loadCheckptTnode e k v f
    r.1.Sound ∧ r.1.Holds
      (if r.2 = true then fun k' => if k' / 16 = k / 16 then v (Fin.ofNat 16 k') else M k' else M) := by
  obtain ⟨hget, hfail⟩ := getTnode_spec e f.pool
  unfold loadCheckptTnode
  rcases hr : f.pool.getTnode e with ⟨p, _ | q⟩
  · rw [hr] at hfail
    obtain ⟨hsound, hholds, -⟩ := take_spec hf hM (hfail rfl)
    exact ⟨hsound, by simpa using hholds⟩
  · obtain ⟨hmove, -⟩ := hget q (by rw [hr])
    rw [hr] at hmove
    have hset : TnodesMove [] [q] f.pool (p.setGroups q v) :=
      hmove.trans (TnodesMove.setGroups List.mem_cons_self)
    obtain ⟨hsound, hholds, hapart⟩ := take_spec hf hM hset
    have hapart' : TnodesApart (({ f with pool := p.setGroups q v } : TreeFile).tnodes ++ (some q).toList)
        (p.setGroups q v) := hapart
    have hadds : AddsTnodes (some q) v k { f with pool := p.setGroups q v }
        (addFindTnode0 e k (some q) { f with pool := p.setGroups q v }) := by
      refine addFindTnode0_spec hapart' hf.level fun q' hq' => ?_
      obtain rfl := Option.some.inj hq'
      exact group_setGroups_cell v
    refine ⟨hadds.sound hsound hapart', fun k' hk' => ?_⟩
    rw [hadds.entry k' hk', hholds k' hk']
    simp only [Option.isSome_some, true_and]
    by_cases hok : (addFindTnode0 e k (some q) { f with pool := p.setGroups q v }).2.isSome
    · simp [hok]
    · simp [hok]

/-! ## Allocations that succeed -/

theorem getTnode_isSome (he : ∀ n, e.allocOk n = true) (p : TnodePool) : (p.getTnode e).2.isSome := by
  unfold TnodePool.getTnode TnodePool.allocRawTnode
  simp only
  by_cases hfree : p.freeTnodes = []
  · rw [if_pos hfree]
    have hnew : (p.createTnodes e allocationNTnodes).freeTnodes =
        List.range' p.nTnodesCreated allocationNTnodes ++ p.freeTnodes := by
      unfold TnodePool.createTnodes
      rw [if_pos (he _)]
    rw [hnew]
    rfl
  · rw [if_neg hfree]
    cases hp : p.freeTnodes with
    | nil => exact absurd hp hfree
    | cons a l => rfl

theorem growTree_ok (he : ∀ n, e.allocOk n = true) (n : ℕ) (f : TreeFile) : (growTree e n f).2 = true := by
  induction n generalizing f with
  | zero => rfl
  | succ n ih =>
    have hsome := getTnode_isSome he f.pool
    unfold growTree
    rcases hr : f.pool.getTnode e with ⟨p, _ | a⟩
    · simp [hr] at hsome
    · exact ih _

theorem descendTnodes_isSome (he : ∀ n, e.allocOk n = true) (n a k : ℕ) (p : TnodePool) :
    (descendTnodes e passed n a k p).2.isSome := by
  induction n generalizing a p with
  | zero => rfl
  | succ n ih =>
    have hsome := getTnode_isSome he p
    unfold descendTnodes
    simp only
    rcases hr : p.getTnode e with ⟨p', _ | b⟩
    · simp [hr] at hsome
    · split <;> exact ih _ _

/-- Where no allocation fails, a chunk of the file gets its tnodes. -/
theorem addFindTnode0_isSome (he : ∀ n, e.allocOk n = true) (hf : f.Sound) (hk : k ≤ maxChunkId) :
    (addFindTnode0 e k none f).2.isSome := by
  have hdepth := FileVar.requiredDepth_le_max hk
  have hlevel := hf.level
  have hap : TnodesApart (f.tnodes ++ []) f.pool := by
    rw [List.append_nil]
    exact hf.apart
  obtain ⟨hgets, -, -, -⟩ := growTree_spec (e := e) (requiredDepth k - f.topLevel) f hap (by omega)
  have htop := hgets.top hf.top
  have hok := growTree_ok he (requiredDepth k - f.topLevel) f
  unfold addFindTnode0
  rw [if_neg (by omega), if_neg (by omega)]
  simp only [hok, if_true]
  cases ht : (growTree e (requiredDepth k - f.topLevel) f).1.top with
  | none => exact absurd ht htop
  | some a => exact descendTnodes_isSome he _ _ _ _

end specs

/-! ## Runs -/

/-- A new file : `yaffs_new_obj` gets it a tnode for its top. -/
def newTree (e : Env) (objId : ℕ) (p : TnodePool) (d : BlockDev) : Option TreeFile :=
  match p.getTnode e with
  | (p, some a) => some { pool := p, blocks := d, objId := objId, top := some a }
  | (_, none) => none

end TreeFile

/-- What is done with the chunk tree of a file. In between, the blocks are anyone's. -/
inductive TreeOp
  | find (k : ℕ)
  | put (k c : ℕ) (inScan : ℤ)
  | findDel (k : ℕ)
  | prune
  | softDelete
  | loadCheckpt (k : ℕ) (v : Fin 16 → ℕ)
  | elsewhere (d : BlockDev)

namespace TreeOp

open TreeFile

variable (g : Geometry) (e : Env) (m : MountParam)

/-- The chunks put are chunks of the device, or none. -/
def Valid : TreeOp → Prop
  | put _ c _ => c = 0 ∨ c ∈ g.chunks
  | _ => True

def step (f : TreeFile) : TreeOp → TreeFile
  | find _ => f
  | put k c inScan => (putChunk g e m k c inScan f).1
  | findDel k => (findDelChunk g k f).1
  | prune => f.pruneTree
  | softDelete => softDelTree g f
  | loadCheckpt k v => (loadCheckptTnode e k v f).1
  | elsewhere d => { f with blocks := d }

/-- What the call makes of the map from the chunks of the file, as far as it reports success. -/
def store (f : TreeFile) (M : ℕ → ℕ) : TreeOp → ℕ → ℕ
  | put k c inScan =>
    if (putChunk g e m k c inScan f).2 = true ∧ c ≠ 0 ∧ TakesNew g m c inScan f.blocks (M k) then
      Function.update M k c
    else M
  | findDel k => if (inUse f.blocks (M k)).isSome then Function.update M k 0 else M
  | softDelete => fun _ => 0
  | loadCheckpt k v =>
    if (loadCheckptTnode e k v f).2 = true then
      fun k' => if k' / 16 = k / 16 then v (Fin.ofNat 16 k') else M k'
    else M
  | _ => M

/-- A run on a file, with the map it stands for. -/
def run (ops : List TreeOp) (s : TreeFile × (ℕ → ℕ)) : TreeFile × (ℕ → ℕ) :=
  ops.foldl (fun s op => (step g e m s.1 op, store g e m s.1 s.2 op)) s

end TreeOp

namespace TreeFile

/-- The chunk tree is the map `M`, and a tree. -/
structure IsMap (g : Geometry) (e : Env) (f : TreeFile) (M : ℕ → ℕ) : Prop where
  find : ∀ k ≤ maxChunkId, findChunk g f k = inUse f.blocks (M k)
  findDel : ∀ k ≤ maxChunkId, (findDelChunk g k f).2 = inUse f.blocks (M k)
  /-- Where no allocation fails, every chunk can be put. -/
  adds : (∀ n, e.allocOk n = true) → ∀ k ≤ maxChunkId, (addFindTnode0 e k none f).2.isSome
  /-- No tnode is reached on two ways, and none is free. -/
  nodup : (f.tnodes ++ f.pool.freeTnodes).Nodup
  top : f.top ≠ none
  /-- Pruning keeps the top and the chunks. -/
  pruneTop : f.softDel = false → (pruneTree f).top ≠ none
  prune : f.softDel = false → ∀ k ≤ maxChunkId, ∀ a, f.findTnode0 k = some a → f.groupAt a k ≠ 0 →
    ∃ b, (pruneTree f).findTnode0 k = some b ∧ (pruneTree f).groupAt b k = f.groupAt a k

end TreeFile

section runs

open TreeFile TreeOp

variable {g : Geometry} {e : Env} {m : MountParam} {f : TreeFile} {M : ℕ → ℕ}

theorem TreeFile.Sound.isMap (hg : g.chunkGrpSize = 1) (hf : f.Sound) (hM : f.Holds M) : TreeFile.IsMap g e f M where
  find k hk := findChunk_eq hg hM hk
  findDel k hk := (findDelChunk_spec hg hf hM hk).1
  adds he k hk := addFindTnode0_isSome he hf hk
  nodup := hf.apart.nodup
  top := hf.top
  pruneTop hs := (pruneTree_sound hf hs hM).1.top
  prune hs k hk a ha hne := by
    have hheld := (pruneTree_sound hf hs hM).2 k hk
    have hold := hM k hk
    rw [entry_var ha] at hold
    rw [← hold, FileVar.entry, find_var] at hheld
    cases hb : f.pruneTree.findTnode0 k with
    | none =>
      rw [hb] at hheld
      exact absurd hheld.symm hne
    | some b =>
      rw [hb] at hheld
      exact ⟨b, rfl, hheld⟩

theorem TreeOp.step_spec (hg : g.chunkGrpSize = 1) (hf : f.Sound) (hM : f.Holds M) (op : TreeOp)
    (hvalid : op.Valid g) (hlive : op = .prune → f.softDel = false) :
    (TreeOp.step g e m f op).Sound ∧ (TreeOp.step g e m f op).Holds (TreeOp.store g e m f M op) := by
  cases op with
  | find k => exact ⟨hf, hM⟩
  | put k c inScan => exact putChunk_spec m hg hf hM hvalid
  | findDel k =>
    by_cases hk : k ≤ maxChunkId
    · exact (findDelChunk_spec hg hf hM hk).2
    · have hnone : f.findTnode0 k = none := by
        by_contra hsome
        obtain ⟨a, ha⟩ := Option.ne_none_iff_exists'.mp hsome
        exact hk (findTnode0_le ha)
      have hstay : TreeOp.step g e m f (.findDel k) = f := by
        simp [TreeOp.step, findDelChunk, hnone]
      rw [hstay]
      refine ⟨hf, fun k' hk' => ?_⟩
      have hne : k' ≠ k := by omega
      simp only [TreeOp.store]
      split_ifs
      · rw [Function.update_of_ne hne, hM k' hk']
      · exact hM k' hk'
  | prune => exact pruneTree_sound hf (hlive rfl) hM
  | softDelete => exact softDelTree_spec hf
  | loadCheckpt k v => exact loadCheckptTnode_spec hf hM
  | elsewhere d => exact ⟨hf.of_blocks d _, hM⟩

theorem addFindTnode0_softDel (k : ℕ) (passed : Option ℕ) (f : TreeFile) :
    (addFindTnode0 e k passed f).1.softDel = f.softDel := by
  have hgrow : ∀ (n : ℕ) (f : TreeFile), (growTree e n f).1.softDel = f.softDel := by
    intro n
    induction n with
    | zero => exact fun _ => rfl
    | succ n ih =>
      intro f
      unfold growTree
      rcases f.pool.getTnode e with ⟨p, _ | a⟩
      · rfl
      · exact ih _
  unfold addFindTnode0
  simp only
  repeat' split
  all_goals first | rfl | exact hgrow _ _

/-- Only soft deletion sets the flag. -/
theorem TreeOp.step_softDel (op : TreeOp) (h : (TreeOp.step g e m f op).softDel = true) :
    f.softDel = true ∨ op = .softDelete := by
  cases op with
  | find k => exact Or.inl h
  | put k c inScan =>
    left
    have hadd := addFindTnode0_softDel (e := e) k none f
    rw [← hadd, ← h]
    simp only [TreeOp.step]
    unfold putChunk
    generalize addFindTnode0 e k none f = r
    obtain ⟨f', _ | a⟩ := r
    · rfl
    · simp only [loadTnode]
      repeat' split
      all_goals rfl
  | findDel k =>
    left
    rw [← h]
    simp only [TreeOp.step]
    unfold findDelChunk
    split
    · rfl
    · split <;> rfl
  | prune =>
    left
    rw [← h]
    simp only [TreeOp.step]
    unfold TreeFile.pruneTree
    split_ifs
    · rfl
    · split
      · rfl
      · split <;> rfl
  | softDelete => exact Or.inr rfl
  | loadCheckpt k v =>
    left
    rw [← h]
    simp only [TreeOp.step]
    unfold loadCheckptTnode
    split
    · rfl
    · simp only
      rw [addFindTnode0_softDel]
  | elsewhere d => exact Or.inl h

/-- No file is pruned after its soft deletion. -/
def PrunesLive (ops : List TreeOp) : Prop :=
  ops.Pairwise fun op op' => ¬(op = .softDelete ∧ op' = .prune)

/-- In every run on a new file the chunk tree is the map that the calls make, and a tree. -/
theorem treeRun_isMap (hg : g.chunkGrpSize = 1) {p : TnodePool} {d : BlockDev} {o : ℕ}
    (hp : TnodesApart [] p) (hnew : newTree e o p d = some f) {ops : List TreeOp}
    (hvalid : ∀ op ∈ ops, op.Valid g) (hlive : PrunesLive ops) :
    TreeFile.IsMap g e (TreeOp.run g e m ops (f, fun _ => 0)).1 (TreeOp.run g e m ops (f, fun _ => 0)).2 := by
  have hrun : ∀ (ops : List TreeOp) (f : TreeFile) (M : ℕ → ℕ), f.Sound → f.Holds M →
      (∀ op ∈ ops, op.Valid g) → PrunesLive ops → (f.softDel = true → .prune ∉ ops) →
      (TreeOp.run g e m ops (f, M)).1.Sound ∧
        (TreeOp.run g e m ops (f, M)).1.Holds (TreeOp.run g e m ops (f, M)).2 := by
    intro ops
    induction ops with
    | nil => exact fun f M hf hM _ _ _ => ⟨hf, hM⟩
    | cons op ops ih =>
      intro f M hf hM hvalid hlive hsoft
      obtain ⟨hfirst, hrest⟩ := List.pairwise_cons.mp hlive
      have hnow : op = .prune → f.softDel = false := fun hop => by
        by_contra hs
        exact hsoft (by simpa using hs) (by simp [hop])
      obtain ⟨hf', hM'⟩ := TreeOp.step_spec (e := e) (m := m) hg hf hM op (hvalid op List.mem_cons_self) hnow
      refine ih _ _ hf' hM' (fun op' h => hvalid op' (List.mem_cons_of_mem _ h)) hrest fun hs hmem => ?_
      rcases TreeOp.step_softDel op hs with hs | hop
      · exact hsoft hs (List.mem_cons_of_mem _ hmem)
      · exact hfirst _ hmem ⟨hop, rfl⟩
  obtain ⟨hget, -⟩ := getTnode_spec e p
  unfold newTree at hnew
  rcases hr : p.getTnode e with ⟨p', _ | a⟩
  · simp [hr] at hnew
  · obtain ⟨hmove, hcell⟩ := hget a (by rw [hr])
    rw [hr] at hnew hmove hcell
    obtain rfl := Option.some.inj hnew
    have hf : TreeFile.Sound { pool := p', blocks := d, objId := o, top := some a } :=
      ⟨hp.move hmove, Nat.zero_le _, by simp, fun _ => trivial⟩
    have hM : TreeFile.Holds { pool := p', blocks := d, objId := o, top := some a } fun _ => 0 := by
      intro k hk
      rw [FileVar.entry_eq (Nat.zero_le _) hk]
      simp only [var, Option.map_some, (tnodesBelow_empty hcell 0).2, FileVar.treeEntry]
      split_ifs <;> rfl
    obtain ⟨hf', hM'⟩ := hrun ops _ _ hf hM hvalid hlive (fun h => by simp at h)
    exact hf'.isMap hg hM'

end runs

/-! ## A sample file -/

/-- Memory of which no tnode has been taken yet. -/
def emptyPool : TnodePool where
  cell _ := {}

theorem emptyPool_apart : TnodesApart [] emptyPool :=
  ⟨List.nodup_nil, fun x hx => by simp [emptyPool] at hx⟩

/-- The chunks 16 and 3 of a file are put, chunk 3 is deleted, the tree pruned and the file softly
deleted. -/
def sampleTreeOps : List TreeOp :=
  [.put 16 40 0, .put 3 41 0, .findDel 3, .prune, .softDelete]

theorem sampleTreeOps_isMap : ∃ f, TreeFile.newTree okEnv 257 emptyPool (blankBlocks sampleGeometry fun _ => false) =
    some f ∧ TreeFile.IsMap sampleGeometry okEnv
      (TreeOp.run sampleGeometry okEnv (sampleMount fun _ => none) sampleTreeOps (f, fun _ => 0)).1
      (TreeOp.run sampleGeometry okEnv (sampleMount fun _ => none) sampleTreeOps (f, fun _ => 0)).2 := by
  refine ⟨_, rfl, treeRun_isMap (by decide) emptyPool_apart rfl ?_ ?_⟩
  · intro op hop
    simp only [sampleTreeOps, List.mem_cons, List.not_mem_nil, or_false] at hop
    rcases hop with rfl | rfl | rfl | rfl | rfl
    · exact Or.inr (by decide)
    · exact Or.inr (by decide)
    all_goals trivial
  · simp [PrunesLive, sampleTreeOps]

/-- Pruned after its soft deletion, a file loses its top. -/
theorem softlyDeleted_prune_loses_top : ∃ f,
    TreeFile.newTree okEnv 257 emptyPool (blankBlocks sampleGeometry fun _ => false) = some f ∧
      (TreeOp.run sampleGeometry okEnv (sampleMount fun _ => none) [.put 16 40 0, .softDelete]
        (f, fun _ => 0)).1.top ≠ none ∧
      (TreeOp.run sampleGeometry okEnv (sampleMount fun _ => none) [.put 16 40 0, .softDelete, .prune]
        (f, fun _ => 0)).1.top = none :=
  ⟨_, rfl, by decide +kernel, by decide +kernel⟩

end Yaffs
