import Yaffs.Stream
import Yaffs.Run
import Mathlib.Algebra.BigOperators.Ring.List

/-!
# Space for a checkpoint

`yaffs_calc_checkpt_blocks_required` estimates the blocks a checkpoint takes from the number of
objects and tnodes, and `yaffs_check_alloc_available` keeps them back. The estimate divides the bytes
of the stream by the bytes of a block ; it does not count the header that
`yaffs2_checkpt_init_chunk_hdr` puts into every chunk of the stream. `holdsCheckpt_iff` says when
the three spare blocks make up for the headers.
-/

namespace Yaffs

/-! ## Tnodes of a tree -/

namespace Tnode

/-- Number of tnodes of a tree. -/
def count : (n : ℕ) → Tnode n → ℕ
  | 0, _ => 1
  | n + 1, t => ((List.finRange 8).map fun i =>
    match t.internal i with
    | some t' => count n t'
    | none => 0).sum + 1

/-- Number of level-0 tnodes of a tree. -/
def leaves : (n : ℕ) → Tnode n → ℕ
  | 0, _ => 1
  | n + 1, t => ((List.finRange 8).map fun i =>
    match t.internal i with
    | some t' => leaves n t'
    | none => 0).sum

end Tnode

/-- The tnodes of a file. -/
def FileVar.tnodes (f : FileVar) : ℕ :=
  f.top.elim 0 (Tnode.count f.topLevel)

/-- The level-0 tnodes of a file. -/
def FileVar.leaves (f : FileVar) : ℕ :=
  f.top.elim 0 (Tnode.leaves f.topLevel)

/-! ## The length of the stream -/

/-- The bytes of a list of records. -/
def recordBytes (rs : List CheckptRecord) : ℕ :=
  (rs.map (·.size)).sum

theorem recordBytes_append (rs rs' : List CheckptRecord) :
    recordBytes (rs ++ rs') = recordBytes rs + recordBytes rs' := by
  simp [recordBytes]

theorem recordBytes_flatMap {α : Type*} (l : List α) (f : α → List CheckptRecord) :
    recordBytes (l.flatMap f) = (l.map fun a => recordBytes (f a)).sum := by
  induction l with
  | nil => rfl
  | cons a l ih => rw [List.flatMap_cons, recordBytes_append, ih, List.map_cons, List.sum_cons]

theorem size_ofWords (ws : List ℕ) : (CheckptRecord.ofWords ws).size = 4 * ws.length := by
  induction ws with
  | nil => rfl
  | cons w ws ih =>
    have : (CheckptRecord.ofWords (w :: ws)).size = 4 + (CheckptRecord.ofWords ws).size := by
      simp [CheckptRecord.ofWords, CheckptRecord.ofBytes, u32Bytes]
      omega
    rw [this, ih, List.length_cons]
    omega

variable {g : Geometry} {d : Dev}

theorem recordBytes_tnodeRecords (n : ℕ) (t : Tnode n) (off : ℕ) :
    recordBytes (tnodeRecords g n t off) = (4 + g.tnodeSize) * Tnode.leaves n t := by
  induction n generalizing off with
  | zero =>
    simp [tnodeRecords, recordBytes, size_ofWords, CheckptRecord.ofBytes, tnodeBytes, Tnode.leaves]
  | succ n ih =>
    rw [tnodeRecords, recordBytes_flatMap, Tnode.leaves, ← List.sum_map_mul_left]
    refine congrArg List.sum (List.map_congr_left fun i _ => ?_)
    cases t.internal i with
    | none => rfl
    | some t' => exact ih t' _

theorem recordBytes_fileRecords (f : FileVar) :
    recordBytes (fileRecords g f) = (4 + g.tnodeSize) * f.leaves + 4 := by
  unfold fileRecords FileVar.leaves
  rw [recordBytes_append]
  congr 1
  cases f.top with
  | none => rfl
  | some t => exact recordBytes_tnodeRecords _ t 0

/-- The bytes an object takes in the stream, with its tnodes. -/
def objBytes (g : Geometry) (ob : Obj) : ℕ :=
  if ob.deferredFree then 0
  else checkptObjSize + if ob.variantType = .file then (4 + g.tnodeSize) * ob.file.leaves + 4 else 0

theorem recordBytes_objRecords (o : ℕ) (ob : Obj) : recordBytes (objRecords g o ob) = objBytes g ob := by
  have hobj : (objRecord o ob).size = checkptObjSize := size_ofWords _
  unfold objRecords objBytes
  split_ifs with hfree hfile
  · rfl
  · rw [← recordBytes_fileRecords, ← hobj]
    simp [recordBytes]
  · rw [← hobj]
    simp [recordBytes]

theorem sum_range_ite (n k c : ℕ) :
    ((List.range n).map fun b => if k = b then c else 0).sum = if k < n then c else 0 := by
  induction n with
  | zero => simp
  | succ n ih =>
    rw [List.range_succ, List.map_append, List.sum_append, ih, List.map_singleton, List.sum_singleton]
    split_ifs <;> omega

/-- Every object is in one bucket. -/
theorem sum_buckets (f : ℕ → ℕ) (ids : List ℕ) :
    ((List.range nObjectBuckets).map fun b =>
      ((ids.filter fun o => o % nObjectBuckets = b).map f).sum).sum = (ids.map f).sum := by
  induction ids with
  | nil => simp
  | cons o ids ih =>
    have hsplit : ∀ b, (((o :: ids).filter fun o => o % nObjectBuckets = b).map f).sum =
        (if o % nObjectBuckets = b then f o else 0) +
          ((ids.filter fun o => o % nObjectBuckets = b).map f).sum := by
      intro b
      by_cases hb : o % nObjectBuckets = b <;> simp [hb]
    have hone : ((List.range nObjectBuckets).map fun b => if o % nObjectBuckets = b then f o else 0).sum =
        f o := by
      rw [sum_range_ite, if_pos (Nat.mod_lt _ (by decide))]
    simp only [hsplit]
    rw [List.sum_map_add, hone, ih, List.map_cons, List.sum_cons]

/-- The bytes of the objects in the stream. -/
def objsBytes (g : Geometry) (d : Dev) : ℕ :=
  (d.ids.map fun o => objBytes g (d.obj o)).sum

theorem recordBytes_objsRecords : recordBytes (objsRecords g d) = objsBytes g d + checkptObjSize := by
  have hend : recordBytes [endRecord] = checkptObjSize := size_ofWords _
  unfold objsRecords objsBytes
  rw [recordBytes_append, recordBytes_flatMap, hend,
    ← sum_buckets (fun o => objBytes g (d.obj o)) d.ids]
  simp only [recordBytes_flatMap, recordBytes_objRecords]

/-- The blocks of the device in the stream : the block table and the chunk bits. -/
def blocksBytes (g : Geometry) : ℕ :=
  (g.endBlock - g.startBlock + 1) * blockInfoSize + (g.endBlock - g.startBlock + 1) * g.chunkBitStride

/-- The bytes `yaffs2_wr_checkpt_data` gives to the stream. -/
def streamBytes (g : Geometry) (d : Dev) : ℕ :=
  recordBytes (checkptRecords g d) + (sumRecord d.toBlockDev).size

theorem streamBytes_eq : streamBytes g d = 104 + blocksBytes g + objsBytes g d := by
  have hval : ∀ head, (validityRecord head).size = checkptValiditySize := fun _ => size_ofWords _
  have hdev : (devRecord d).size = checkptDevSize := size_ofWords _
  have hsum : (sumRecord d.toBlockDev).size = 4 := size_ofWords _
  have hhead : recordBytes [validityRecord 1, devRecord d, blockInfoRecord g, chunkBitsRecord g] =
      checkptValiditySize + checkptDevSize + blocksBytes g := by
    simp [recordBytes, hval, hdev, blockInfoRecord, chunkBitsRecord, blocksBytes]
    omega
  have htail : recordBytes [validityRecord 0] = checkptValiditySize := hval 0
  unfold streamBytes checkptRecords
  rw [recordBytes_append, recordBytes_append, hhead, htail, recordBytes_objsRecords, hsum]
  simp only [checkptValiditySize, checkptDevSize, checkptObjSize]
  omega

/-! ## The estimate -/

/-- The bytes `yaffs_calc_checkpt_blocks_required` counts. -/
def estimatedBytes (g : Geometry) (d : Dev) : ℕ :=
  72 + blocksBytes g + (checkptObjSize + 4) * d.nObj + (g.tnodeSize + 4) * d.nTnodes

/-- The bytes of a block. -/
def blockBytes (g : Geometry) : ℕ :=
  g.dataBytesPerChunk * g.chunksPerBlock

theorem checkpointBlocksRequired_eq (h : g.checkptRequired = true) :
    checkpointBlocksRequired g d.toBlockDev = estimatedBytes g d / blockBytes g + 3 := by
  unfold checkpointBlocksRequired
  simp only [h, if_true]
  congr 2
  unfold estimatedBytes blocksBytes
  simp only [checkptValiditySize, checkptDevSize, checkptObjSize]
  omega

/-- The chunks of the stream, each with its header. A checkpoint that is not required has none. -/
def streamChunks (g : Geometry) (d : Dev) : ℕ :=
  if g.checkptRequired then (streamBytes g d + g.payload - 1) / g.payload else 0

/-- The blocks kept back for a checkpoint hold the whole stream. -/
def HoldsCheckpt (g : Geometry) (d : Dev) : Prop :=
  streamChunks g d ≤ (calcCheckptBlocksRequired g d.toBlockDev + d.blocksInCheckpt) * g.chunksPerBlock

/-- What the estimate counts for objects and tnodes that the stream does not have : internal tnodes,
end markers of objects other than files, and objects that are only waiting to be freed. -/
def slack (g : Geometry) (d : Dev) : ℤ :=
  ((checkptObjSize + 4) * d.nObj + (g.tnodeSize + 4) * d.nTnodes : ℕ) - (objsBytes g d : ℤ)

/-- The headers of the whole blocks of the estimate, with its rest and the end marker, fit the three
spare blocks, or the last checkpoint had room enough. -/
def HeadersFit (g : Geometry) (d : Dev) : Prop :=
  let q := estimatedBytes g d / blockBytes g
  let r := estimatedBytes g d % blockBytes g
  g.checkptRequired = false ∨
    ((checkptHdrSize * g.chunksPerBlock * q + r + checkptObjSize : ℕ) : ℤ) ≤
      (3 * g.chunksPerBlock * g.payload : ℕ) + slack g d ∨
    104 + blocksBytes g + objsBytes g d ≤ d.blocksInCheckpt * g.chunksPerBlock * g.payload

theorem payload_eq (g : Geometry) : g.dataBytesPerChunk = g.payload + checkptHdrSize := by
  have := g.objHdrSize_le
  unfold Param.payload
  simp only [objHdrSize, checkptHdrSize] at *
  omega

/-- The estimate holds the stream just when the spare blocks make up for the headers. -/
theorem estimate_iff : streamBytes g d ≤ (estimatedBytes g d / blockBytes g + 3) * g.chunksPerBlock * g.payload ↔
    ((checkptHdrSize * g.chunksPerBlock * (estimatedBytes g d / blockBytes g) +
      estimatedBytes g d % blockBytes g + checkptObjSize : ℕ) : ℤ) ≤
      (3 * g.chunksPerBlock * g.payload : ℕ) + slack g d := by
  have hdiv := Nat.div_add_mod (estimatedBytes g d) (blockBytes g)
  generalize estimatedBytes g d / blockBytes g = q at hdiv ⊢
  generalize estimatedBytes g d % blockBytes g = r at hdiv ⊢
  have hest : estimatedBytes g d = 72 + blocksBytes g +
      ((checkptObjSize + 4) * d.nObj + (g.tnodeSize + 4) * d.nTnodes) := by
    unfold estimatedBytes
    omega
  have hblock : blockBytes g * q = q * g.chunksPerBlock * g.payload + checkptHdrSize * g.chunksPerBlock * q := by
    rw [blockBytes, payload_eq g]
    ring
  have hroom : (q + 3) * g.chunksPerBlock * g.payload =
      q * g.chunksPerBlock * g.payload + 3 * g.chunksPerBlock * g.payload := by ring
  rw [streamBytes_eq, hroom]
  unfold slack
  rw [hest, hblock] at hdiv
  have h32 : checkptObjSize = 32 := rfl
  generalize (checkptObjSize + 4) * d.nObj + (g.tnodeSize + 4) * d.nTnodes = X at hdiv ⊢
  generalize q * g.chunksPerBlock * g.payload = A at hdiv ⊢
  generalize checkptHdrSize * g.chunksPerBlock * q = H at hdiv ⊢
  omega

/-- The blocks kept back hold the checkpoint just when the headers of its chunks fit. -/
theorem holdsCheckpt_iff (g : Geometry) (d : Dev) : HoldsCheckpt g d ↔ HeadersFit g d := by
  unfold HoldsCheckpt streamChunks HeadersFit
  dsimp only
  cases hreq : g.checkptRequired with
  | false => simp
  | true =>
    have hy : g.isYaffs2 = true := by
      simp only [Param.checkptRequired, Bool.and_eq_true] at hreq
      exact hreq.1.1
    have hpos : 0 < g.payload := by
      have := payload_eq g
      have := g.objHdrSize_le
      simp only [objHdrSize, checkptHdrSize] at *
      omega
    have hmax : calcCheckptBlocksRequired g d.toBlockDev + d.blocksInCheckpt =
        max (estimatedBytes g d / blockBytes g + 3) d.blocksInCheckpt := by
      rw [calcCheckptBlocksRequired, if_pos hy, checkpointBlocksRequired_eq hreq]
      omega
    have hceil : ∀ n, streamBytes g d + g.payload - 1 ≤ g.payload * n + (g.payload - 1) ↔
        streamBytes g d ≤ n * g.payload := fun n => by
      rw [Nat.mul_comm]
      omega
    rw [if_pos rfl, hmax, Nat.div_le_iff_le_mul_add_pred hpos, hceil, ← streamBytes_eq, ← estimate_iff]
    have hmono : ∀ {a b : ℕ}, a ≤ b → a * g.chunksPerBlock * g.payload ≤ b * g.chunksPerBlock * g.payload :=
      fun h => Nat.mul_le_mul_right _ (Nat.mul_le_mul_right _ h)
    rcases le_total (estimatedBytes g d / blockBytes g + 3) d.blocksInCheckpt with hle | hle
    · rw [max_eq_right hle]
      exact ⟨fun h => Or.inr (Or.inr h), fun h => h.elim (fun h => Bool.noConfusion h)
        fun h => h.elim (fun h => h.trans (hmono hle)) id⟩
    · rw [max_eq_left hle]
      exact ⟨fun h => Or.inr (Or.inl h), fun h => h.elim (fun h => Bool.noConfusion h)
        fun h => h.elim id fun h => h.trans (hmono hle)⟩

/-! ## A crowded device -/

/-- The counters agree with the objects and their tnodes. -/
structure Populated (d : Dev) : Prop where
  nodup : d.ids.Nodup
  nObj : d.nObj = d.ids.length
  nTnodes : d.nTnodes = (d.ids.map fun o => if (d.obj o).variantType = .file then (d.obj o).file.tnodes else 0).sum

/-- A device of 8192 blocks of 32 chunks of 1024 bytes. -/
def crowdedGeometry : Geometry :=
  { sampleGeometry with
    dataBytesPerChunk := 1024
    chunksPerBlock := 32
    endBlock := 8192
    two_le_chunksPerBlock := by decide
    startBlock_pos := by decide
    endBlock_gt := by decide
    chunkGrpSize_le := by decide
    objHdrSize_le := by decide
    chunks_lt := by decide }

/-- An empty file with its tnode, in the root directory. -/
def emptyFileObj : Obj :=
  { variantType := .file, parent := some objectIdRoot
    file := { topLevel := 0, top := some (Tnode.empty 0) } }

/-- The device with `n` empty files. -/
def crowdedDev (n : ℕ) : Dev :=
  let d := freshDev crowdedGeometry fun _ => false
  { d with
    nObj := n + 4
    nTnodes := n
    ids := List.range' nObjectBuckets n ++ d.ids
    obj := fun o =>
      if nObjectBuckets ≤ o then emptyFileObj
      else if o = objectIdRoot then
        { d.obj o with children := List.range' nObjectBuckets n ++ (d.obj o).children }
      else d.obj o }

/-- A sum over the objects of the device, whose directories all count `k`. -/
theorem crowdedDev_sum (n k : ℕ) (f : Obj → ℕ)
    (hdir : ∀ o ∈ [objectIdLostNFound, objectIdRoot, objectIdDeleted, objectIdUnlinked],
      f ((crowdedDev n).obj o) = k) :
    ((crowdedDev n).ids.map fun o => f ((crowdedDev n).obj o)).sum = n * f emptyFileObj + 4 * k := by
  have hids : (crowdedDev n).ids = List.range' nObjectBuckets n ++
      [objectIdLostNFound, objectIdRoot, objectIdDeleted, objectIdUnlinked] := rfl
  have hfile : (List.range' nObjectBuckets n).map (fun o => f ((crowdedDev n).obj o)) =
      List.replicate n (f emptyFileObj) := by
    rw [List.eq_replicate_iff]
    refine ⟨by simp, fun m hm => ?_⟩
    obtain ⟨o, ho, rfl⟩ := List.mem_map.mp hm
    have : nObjectBuckets ≤ o := (List.mem_range'_1.mp ho).1
    simp [crowdedDev, this]
  rw [hids, List.map_append, List.sum_append, hfile, List.sum_replicate_nat]
  simp only [List.forall_mem_cons, List.not_mem_nil, false_imp_iff, implies_true, and_true] at hdir
  simp [hdir.1, hdir.2.1, hdir.2.2.1, hdir.2.2.2]
  omega

theorem crowdedDev_dirs (n : ℕ) :
    ∀ o ∈ [objectIdLostNFound, objectIdRoot, objectIdDeleted, objectIdUnlinked],
      ((crowdedDev n).obj o).variantType = .directory ∧ ((crowdedDev n).obj o).deferredFree = false := by
  intro o ho
  simp only [List.mem_cons, List.not_mem_nil, or_false] at ho
  rcases ho with rfl | rfl | rfl | rfl <;> exact ⟨rfl, rfl⟩

theorem crowdedDev_populated (n : ℕ) : Populated (crowdedDev n) where
  nodup := by
    refine List.nodup_append.mpr ⟨List.nodup_range', by decide, fun a ha b hb hab => ?_⟩
    have := (List.mem_range'_1.mp ha).1
    simp only [nObjectBuckets, freshDev, List.mem_cons, List.not_mem_nil, or_false] at this hb
    rcases hb with rfl | rfl | rfl | rfl <;>
      simp [objectIdLostNFound, objectIdRoot, objectIdDeleted, objectIdUnlinked] at this hab <;> omega
  nObj := by
    simp [crowdedDev, freshDev]
  nTnodes := by
    rw [crowdedDev_sum n 0 (fun ob => if ob.variantType = .file then ob.file.tnodes else 0) fun o ho => by
      simp [(crowdedDev_dirs n o ho).1]]
    simp [crowdedDev, emptyFileObj, FileVar.tnodes, Tnode.count]

theorem crowdedDev_objsBytes (n : ℕ) : objsBytes crowdedGeometry (crowdedDev n) = n * 104 + 4 * 32 := by
  have hfile : objBytes crowdedGeometry emptyFileObj = 104 := by decide
  unfold objsBytes
  rw [crowdedDev_sum n 32 (objBytes crowdedGeometry) fun o ho => by
    simp [objBytes, crowdedDev_dirs n o ho, checkptObjSize], hfile]

/-- With 80000 empty files, the estimate is short of the stream. -/
theorem not_holdsCheckpt_crowded : ¬∀ (g : Geometry) (d : Dev), 1024 ≤ g.dataBytesPerChunk →
    Populated d → HoldsCheckpt g d := by
  intro h
  have hholds := h crowdedGeometry (crowdedDev 80000) (by decide) (crowdedDev_populated _)
  unfold HoldsCheckpt streamChunks at hholds
  rw [if_pos (by decide), streamBytes_eq, crowdedDev_objsBytes] at hholds
  revert hholds
  decide +kernel

end Yaffs
