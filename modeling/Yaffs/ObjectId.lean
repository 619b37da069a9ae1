import Yaffs.DataWrite
import Yaffs.Lifetime
import Yaffs.Scan

/-!
# Numbers of new objects

`yaffs_new_obj_id` takes a bucket of the hash table that is not too long and goes up in it, in steps of
the number of buckets, to the first number that is not in use. Nothing stops it at `YAFFS_MAX_OBJECT_ID`,
which the scan and the tags of yaffs1 go by. `chosenId_iff` : over every history of creations and
deletions in which each bucket that is chosen has a number left, the number is fresh, in its bucket and
not larger than that.
-/

namespace Yaffs

/-! ## The search -/

section Search

variable {ids : List ℕ} {n k fuel : ℕ}

/-- The search stops at a free number at the latest. -/
theorem newObjIdLoop_le (fuel : ℕ) : ∀ {n k : ℕ}, 0 < k → n + nObjectBuckets * k ∉ ids →
    newObjIdLoop ids fuel n ≤ n + nObjectBuckets * k := by
  induction fuel with
  | zero =>
    intro n k hk _
    have : nObjectBuckets * 1 ≤ nObjectBuckets * k := Nat.mul_le_mul_left _ hk
    unfold newObjIdLoop
    omega
  | succ fuel ih =>
    intro n k hk hfree
    unfold newObjIdLoop
    obtain ⟨j, rfl⟩ : ∃ j, k = j + 1 := ⟨k - 1, by omega⟩
    rw [Nat.mul_succ] at hfree ⊢
    split_ifs with hmem
    · rcases Nat.eq_zero_or_pos j with rfl | hj
      · rw [Nat.mul_zero, Nat.zero_add] at hfree
        exact absurd hmem hfree
      · have := ih (n := n + nObjectBuckets) hj (by rwa [show n + nObjectBuckets + nObjectBuckets * j =
          n + (nObjectBuckets * j + nObjectBuckets) by omega])
        omega
    · omega

/-- It goes up in steps of the number of buckets. -/
theorem newObjIdLoop_eq (fuel : ℕ) : ∀ n : ℕ, ∃ k, 0 < k ∧ newObjIdLoop ids fuel n = n + nObjectBuckets * k := by
  induction fuel with
  | zero => exact fun n => ⟨1, Nat.one_pos, rfl⟩
  | succ fuel ih =>
    intro n
    unfold newObjIdLoop
    split_ifs
    · obtain ⟨k, hk, heq⟩ := ih (n + nObjectBuckets)
      exact ⟨k + 1, by omega, by rw [heq, Nat.mul_succ]; omega⟩
    · exact ⟨1, Nat.one_pos, rfl⟩

/-- As many rounds as there are objects are enough. -/
theorem newObjIdLoop_ends (hfuel : ids.length ≤ fuel) : newObjIdLoop ids fuel n = newObjIdLoop ids ids.length n := by
  have hle : ∀ f f', ids.length ≤ f → newObjIdLoop ids f' n ≤ newObjIdLoop ids f n := fun f f' hf => by
    obtain ⟨k, hk, heq⟩ := newObjIdLoop_eq f n
    have hfree := newObjIdLoop_notMem ids f n ((List.length_filter_le _ _).trans hf)
    rw [heq] at hfree ⊢
    exact newObjIdLoop_le f' hk hfree
  exact Nat.le_antisymm (hle _ _ le_rfl) (hle _ _ hfuel)

/-- The source looks through the list of the bucket only. -/
theorem newObjIdLoop_bucket (fuel : ℕ) : ∀ n : ℕ,
    newObjIdLoop (ids.filter fun x => x % nObjectBuckets = n % nObjectBuckets) fuel n = newObjIdLoop ids fuel n := by
  induction fuel with
  | zero => exact fun _ => rfl
  | succ fuel ih =>
    intro n
    have hmem : n + nObjectBuckets ∈ ids.filter (fun x => x % nObjectBuckets = n % nObjectBuckets) ↔
        n + nObjectBuckets ∈ ids := by simp
    have hrest := ih (n + nObjectBuckets)
    rw [Nat.add_mod_right] at hrest
    unfold newObjIdLoop
    simp only [hmem, hrest]

end Search

/-! ## Histories -/

/-- A step in the life of the hash table, where `ok` is required of a creation : a new object, an object
the scan finds, an object that is freed, or anything else. -/
inductive IdStep (g : Geometry) (ok : Dev → Prop) : Dev → Dev → Prop
  | create {d : Dev} (e : Env) (type : ObjType) : ok d → IdStep g ok d (newObj g e type d).1
  | scan {d d' : Dev} {n : ℕ} : n ≤ maxObjectId → n ∉ d.ids → d'.ids = n :: d.ids → IdStep g ok d d'
  | free {d : Dev} (o : ℕ) : IdStep g ok d (freeObj o d)
  | other {d d' : Dev} : d'.ids = d.ids → IdStep g ok d d'

/-- The states of a device from its four directories on. -/
inductive IdRun (g : Geometry) (ok : Dev → Prop) : Dev → Prop
  | start {d : Dev} : d.ids = [objectIdLostNFound, objectIdRoot, objectIdDeleted, objectIdUnlinked] → IdRun g ok d
  | step {d d' : Dev} : IdRun g ok d → IdStep g ok d d' → IdRun g ok d'

/-- What is promised of the number for the next object. -/
structure ChosenId (d : Dev) : Prop where
  fresh : (newObjId d).2 ∉ d.ids
  bucket : (findNiceBucket d).2 < nObjectBuckets
  hashes : (newObjId d).2 % nObjectBuckets = (findNiceBucket d).2
  lower : nObjectBuckets ≤ (newObjId d).2
  upper : (newObjId d).2 ≤ maxObjectId
  ends : ∀ fuel, d.ids.length ≤ fuel → newObjIdLoop d.ids fuel (findNiceBucket d).2 = (newObjId d).2

/-- The bucket that is chosen has a number left. -/
def BucketHasRoom (d : Dev) : Prop :=
  ∃ k, 0 < k ∧ (findNiceBucket d).2 + nObjectBuckets * k ≤ maxObjectId ∧
    (findNiceBucket d).2 + nObjectBuckets * k ∉ d.ids

/-- No number is too large, and none is there twice. -/
structure IdsOk (ids : List ℕ) : Prop where
  nodup : ids.Nodup
  le : ∀ n ∈ ids, n ≤ maxObjectId

variable {g : Geometry} {e : Env} {ok : Dev → Prop} {d d' : Dev} {type : ObjType}

theorem findNiceBucket_ids (d : Dev) : (findNiceBucket d).1.ids = d.ids := by
  obtain ⟨b, hb⟩ := findNiceBucketLoop_eq 10 999999 999 d
  rw [findNiceBucket, hb]

theorem newObjId_eq (d : Dev) : (newObjId d).2 = newObjIdLoop d.ids d.ids.length (findNiceBucket d).2 := by
  rw [← findNiceBucket_ids d]
  rfl

/-- A bucket of numbers up to the largest is not long. -/
theorem bucketCount_le (h : IdsOk d.ids) (b : ℕ) : bucketCount d b ≤ 1024 := by
  have hnodup : ((d.ids.filter fun n => n % nObjectBuckets = b).map (· / nObjectBuckets)).Nodup := by
    refine List.Nodup.map_on (fun x hx y hy hxy => ?_) (h.nodup.filter _)
    simp only [List.mem_filter, decide_eq_true_eq] at hx hy
    rw [← Nat.div_add_mod x nObjectBuckets, ← Nat.div_add_mod y nObjectBuckets, hx.2, hy.2, hxy]
  have hsub : (d.ids.filter fun n => n % nObjectBuckets = b).map (· / nObjectBuckets) ⊆ List.range 1024 := by
    intro x hx
    obtain ⟨n, hn, rfl⟩ := List.mem_map.mp hx
    have := h.le n (List.mem_of_mem_filter hn)
    rw [List.mem_range]
    unfold maxObjectId at this
    unfold nObjectBuckets
    omega
  have hle := (hnodup.subperm hsub).length_le
  rwa [List.length_map, List.length_range, ← List.countP_eq_length_filter] at hle

/-- The first bucket looked at is shorter than `lowest`. -/
theorem findNiceBucketLoop_lt (n : ℕ) : ∀ (lowest l : ℕ) (d : Dev), (∀ b, bucketCount d b ≤ 1024) →
    l < nObjectBuckets ∨ 1024 < lowest ∧ 0 < n → (findNiceBucketLoop n lowest l d).2 < nObjectBuckets := by
  induction n with
  | zero => exact fun lowest l d _ h => h.resolve_right fun hn => absurd hn.2 (by decide)
  | succ n ih =>
    intro lowest l d hcount h
    have hmod : (d.bucketFinder + 1) % nObjectBuckets < nObjectBuckets := Nat.mod_lt _ (by decide)
    unfold findNiceBucketLoop
    dsimp only
    split_ifs with hlow hless
    · exact ih _ _ _ hcount (Or.inl hmod)
    · refine ih _ _ _ hcount (Or.inl (h.resolve_right fun hbig => ?_))
      have := hcount ((d.bucketFinder + 1) % nObjectBuckets)
      change ¬bucketCount d ((d.bucketFinder + 1) % nObjectBuckets) < lowest at hless
      omega
    · exact h.resolve_right fun hbig => by omega

/-- With no number too large the number is as promised exactly when its bucket has one left. -/
theorem IdsOk.newId_iff (h : IdsOk d.ids) : ChosenId d ↔ BucketHasRoom d := by
  have hbucket : (findNiceBucket d).2 < nObjectBuckets :=
    findNiceBucketLoop_lt 10 999999 999 d (bucketCount_le h) (Or.inr ⟨by decide, by decide⟩)
  have heq := newObjId_eq d
  have hfresh : (newObjId d).2 ∉ d.ids := heq ▸ newObjIdLoop_notMem _ _ _ (List.length_filter_le _ _)
  obtain ⟨k, hk, hnum⟩ := newObjIdLoop_eq d.ids.length (findNiceBucket d).2
  rw [← heq] at hnum
  constructor
  · intro hc
    exact ⟨k, hk, hnum ▸ hc.upper, hnum ▸ hc.fresh⟩
  · rintro ⟨j, hj, hle, hfree⟩
    have hmul : nObjectBuckets * 1 ≤ nObjectBuckets * k := Nat.mul_le_mul_left _ hk
    refine ⟨hfresh, hbucket, ?_, by omega, ?_, fun fuel hfuel => (newObjIdLoop_ends hfuel).trans heq.symm⟩
    · rw [hnum, Nat.add_mul_mod_self_left, Nat.mod_eq_of_lt hbucket]
    · exact (heq ▸ newObjIdLoop_le d.ids.length hj hfree).trans hle

/-- What a step keeps. -/
theorem IdStep.idsOk (hok : ∀ d, ok d → BucketHasRoom d) (h : IdsOk d.ids) (hs : IdStep g ok d d') : IdsOk d'.ids := by
  cases hs with
  | create e type hroom =>
    have hc := h.newId_iff.mpr (hok d hroom)
    rcases newObj_ids (g := g) (e := e) type d with ⟨hids, -⟩ | ⟨hids, -⟩
    · rwa [hids]
    · rw [hids]
      exact ⟨List.nodup_cons.mpr ⟨hc.fresh, h.nodup⟩, List.forall_mem_cons.mpr ⟨hc.upper, h.le⟩⟩
  | scan hle hnot hids =>
    rw [hids]
    exact ⟨List.nodup_cons.mpr ⟨hnot, h.nodup⟩, List.forall_mem_cons.mpr ⟨hle, h.le⟩⟩
  | free o =>
    unfold freeObj
    split_ifs
    · exact h
    · exact ⟨h.nodup.erase o, fun n hn => h.le n (List.mem_of_mem_erase hn)⟩
  | other hids => rwa [hids]

/-- What a history keeps. -/
theorem IdRun.idsOk (hok : ∀ d, ok d → BucketHasRoom d) (h : IdRun g ok d) : IdsOk d.ids := by
  induction h with
  | start hids =>
    rw [hids]
    exact ⟨by decide, by decide⟩
  | step _ hs ih => exact hs.idsOk hok ih

/-- In every history in which each bucket chosen has a number left, the number for the next object is as
promised exactly when this bucket has one left, too. -/
theorem chosenId_iff (h : IdRun g BucketHasRoom d) : ChosenId d ↔ BucketHasRoom d :=
  (h.idsOk fun _ => id).newId_iff

/-! ## Full buckets -/

/-- A device of 8192 blocks of 64 chunks : it has a chunk for the header of more objects than there are
numbers. -/
def largeGeometry : Geometry where
  toParam := { sampleGeometry.toParam with dataBytesPerChunk := 2048, chunksPerBlock := 64, endBlock := 8192 }
  two_le_chunksPerBlock := by decide
  two_le_nReservedBlocks := by decide
  startBlock_pos := by decide
  endBlock_gt := by decide
  chunkGrpSize_le := by decide
  objHdrSize_le := by decide
  chunks_lt := by decide

/-- Directories are made, one after the other. -/
def makeDirs (g : Geometry) : ℕ → Dev
  | 0 => freshDev g fun _ => false
  | n + 1 => (newObj g okEnv .directory (makeDirs g n)).1

theorem makeDirs_run (g : Geometry) (n : ℕ) : IdRun g (fun _ => True) (makeDirs g n) := by
  induction n with
  | zero => exact .start rfl
  | succ n ih => exact .step ih (.create okEnv .directory trivial)

theorem makeDirs_ids (g : Geometry) (n : ℕ) : (makeDirs g (n + 1)).ids = (newObjId (makeDirs g n)).2 :: (makeDirs g n).ids := by
  rcases newObj_ids (g := g) (e := okEnv) .directory (makeDirs g n) with ⟨-, hnone⟩ | ⟨hids, -⟩
  · exact absurd hnone (Option.some_ne_none _)
  · exact hids

/-- More objects than there are numbers : the numbers of the last are too large. -/
theorem makeDirs_tooLarge : ¬∀ (g : Geometry) (d : Dev), IdRun g (fun _ => True) d → ChosenId d := by
  intro h
  have hids : ∀ n, IdsOk (makeDirs largeGeometry n).ids ∧ n ≤ (makeDirs largeGeometry n).ids.length := fun n => by
    induction n with
    | zero => exact ⟨⟨by decide, by decide⟩, Nat.zero_le _⟩
    | succ n ih =>
      have hc := h largeGeometry _ (makeDirs_run largeGeometry n)
      rw [makeDirs_ids]
      exact ⟨⟨List.nodup_cons.mpr ⟨hc.fresh, ih.1.nodup⟩, List.forall_mem_cons.mpr ⟨hc.upper, ih.1.le⟩⟩,
        Nat.succ_le_succ ih.2⟩
  obtain ⟨hok, hlen⟩ := hids (maxObjectId + 2)
  have hsub : (makeDirs largeGeometry (maxObjectId + 2)).ids ⊆ List.range (maxObjectId + 1) := fun n hn =>
    List.mem_range.mpr (Nat.lt_succ_of_le (hok.le n hn))
  have hle := (hok.nodup.subperm hsub).length_le
  rw [List.length_range] at hle
  omega

theorem makeDirs_chosen : ChosenId (makeDirs largeGeometry 1) := by
  have hrun : IdRun largeGeometry BucketHasRoom (makeDirs largeGeometry 1) :=
    .step (.start rfl) (.create okEnv .directory ⟨1, by decide +kernel, by decide +kernel, by decide +kernel⟩)
  exact (chosenId_iff hrun).mpr ⟨1, by decide +kernel, by decide +kernel, by decide +kernel⟩

end Yaffs
