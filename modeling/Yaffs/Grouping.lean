import Yaffs.Collect
import Yaffs.Scan

/-!
# Narrow tnodes

A level-0 tnode too narrow for a chunk number keeps it without its low bits, and the search of
`yaffs_find_chunk_in_group` tells the chunk among those of its group. A `ChunkMap` keeps whole
chunk numbers, as a tree of wide tnodes does : what the search finds is compared with it.
-/

namespace Yaffs

variable {g : Geometry} {e : Env}

/-! ## The map without groups -/

/-- The chunk last put for each chunk of each file, zero for none. -/
abbrev ChunkMap : Type :=
  ℕ → ℕ → ℕ

/-- The map with `c` for the chunk `k` of `o`. -/
def ChunkMap.put (L : ChunkMap) (o k c : ℕ) : ChunkMap :=
  fun o' k' => if o' = o ∧ k' = k then c else L o' k'

/-- The map with nothing for `o`. -/
def ChunkMap.clear (L : ChunkMap) (o : ℕ) : ChunkMap :=
  fun o' k' => if o' = o then 0 else L o' k'

/-- What `yaffs_find_chunk_in_file` returns where a group is one chunk. -/
def ungroupedFind (d : BlockDev) (L : ChunkMap) (o k : ℕ) : Option ℕ :=
  if L o k ≠ 0 ∧ d.chunkBits (L o k) = true then some (L o k) else none

/-- What `yaffs_find_del_file_chunk` leaves of the map where a group is one chunk. -/
def ungroupedDel (d : BlockDev) (L : ChunkMap) (o k : ℕ) : ChunkMap :=
  if (ungroupedFind d L o k).isSome then L.put o k 0 else L

/-- The trees hold the groups of the chunks in the map. -/
structure Grouped (g : Geometry) (d : Dev) (L : ChunkMap) : Prop where
  mem : ∀ o k, L o k ≠ 0 → L o k ∈ g.chunks
  entry : ∀ o k, (d.obj o).file.entry k = groupOf g (L o k)

/-- The tags of the chunks in use name their owner : a chunk of the map has the tags it is kept
for, and the map has no other chunk for the tags of one in use. -/
structure NamesOwner (g : Geometry) (d : BlockDev) (L : ChunkMap) : Prop where
  tags : ∀ o k, L o k ∈ g.chunks → d.chunkBits (L o k) = true →
    ((d.nand.flash (L o k)).any fun p => tagsMatch p.tags o k) = true
  owner : ∀ c ∈ g.chunks, d.chunkBits c = true → ∀ o k,
    ((d.nand.flash c).any fun p => tagsMatch p.tags o k) = true → L o k ≠ 0 → L o k = c

/-! ## The chunks a search examines -/

variable (g) in
/-- The chunks the loop of `yaffs_find_chunk_in_group` gives to `yaffs_check_chunk_bit`. -/
def examinedLoop (d : BlockDev) (o k : ℕ) : ℕ → ℕ → List ℕ
  | 0, _ => []
  | n + 1, c =>
    if c = 0 then []
    else if d.chunkBits c then
      if g.chunkGrpSize = 1 then [c]
      else if (d.nand.flash c).any fun p => tagsMatch p.tags o k then [c]
      else c :: examinedLoop d o k n (c + 1)
    else c :: examinedLoop d o k n (c + 1)

variable (g) in
/-- The chunks `yaffs_find_chunk_in_file` gives to `yaffs_check_chunk_bit`. -/
def fileExamined (d : Dev) (o k : ℕ) : List ℕ :=
  ((d.obj o).file.find k).elim [] fun v =>
    examinedLoop g d.toBlockDev o k g.chunkGrpSize (groupBase g v)

/-- The narrow tnodes do not show : chunks are found as without groups, and none is examined that
the device has not got. -/
def NarrowInvisible (g : Geometry) (d : Dev) (L : ChunkMap) : Prop :=
  ∀ o k, findChunkInFile g d o k = ungroupedFind d.toBlockDev L o k ∧
    (findDelFileChunk g o k d).2 = ungroupedFind d.toBlockDev L o k ∧
    ∀ c ∈ fileExamined g d o k, c ∈ g.chunks

/-- The groups of the map lie on the device, from their first chunk to the one to be found. -/
def SearchInside (g : Geometry) (d : BlockDev) (L : ChunkMap) : Prop :=
  ∀ o k, L o k ≠ 0 → g.startBlock * g.chunksPerBlock ≤ groupBase g (groupOf g (L o k)) ∧
    (d.chunkBits (L o k) = true ∨
      groupBase g (groupOf g (L o k)) + g.chunkGrpSize ≤ (g.endBlock + 1) * g.chunksPerBlock)

theorem mem_chunks_iff {c : ℕ} : c ∈ g.chunks ↔
    g.startBlock * g.chunksPerBlock ≤ c ∧ c < (g.endBlock + 1) * g.chunksPerBlock := by
  have hp := chunksPerBlock_pos (g := g)
  rw [mem_chunks, mem_blocks, Nat.le_div_iff_mul_le hp, ← Nat.div_lt_iff_lt_mul hp, Nat.lt_succ_iff]

theorem groupOf_zero : groupOf g 0 = 0 := by
  simp [groupOf]

section Loop

variable {d : BlockDev} {o k : ℕ}

/-- Where the search begins. -/
theorem mem_examinedLoop_first {n c : ℕ} (hc : c ≠ 0) : c ∈ examinedLoop g d o k (n + 1) c := by
  simp only [examinedLoop, if_neg hc]
  split_ifs <;> simp

theorem le_of_findChunkInGroupLoop (n : ℕ) : ∀ (c : ℕ) {r : ℕ},
    findChunkInGroupLoop g d o k n c = some r → c ≤ r := by
  induction n with
  | zero => simp [findChunkInGroupLoop]
  | succ n ih =>
    intro c r hr
    simp only [findChunkInGroupLoop] at hr
    split_ifs at hr
    · exact (Option.some.inj hr).le
    · exact (Option.some.inj hr).le
    · exact Nat.le_of_succ_le (ih _ hr)
    · exact Nat.le_of_succ_le (ih _ hr)

/-- A search stays in the group and ends at the chunk it finds. -/
theorem examinedLoop_bounds (n : ℕ) : ∀ (c : ℕ), ∀ c' ∈ examinedLoop g d o k n c,
    c ≤ c' ∧ c' < c + n ∧ ∀ r, findChunkInGroupLoop g d o k n c = some r → c' ≤ r := by
  induction n with
  | zero => simp [examinedLoop]
  | succ n ih =>
    intro c c' hc'
    have hrest : c' ∈ examinedLoop g d o k n (c + 1) →
        c ≤ c' ∧ c' < c + (n + 1) ∧ ∀ r, findChunkInGroupLoop g d o k n (c + 1) = some r → c' ≤ r := by
      intro hmem
      obtain ⟨h1, h2, h3⟩ := ih _ _ hmem
      exact ⟨by omega, by omega, h3⟩
    simp only [examinedLoop] at hc'
    simp only [findChunkInGroupLoop]
    split_ifs at hc' ⊢ with h0 hbit hsize hm
    · simp at hc'
    · obtain rfl : c' = c := by simpa using hc'
      exact ⟨le_rfl, by omega, fun r hr => (Option.some.inj hr).le⟩
    · obtain rfl : c' = c := by simpa using hc'
      exact ⟨le_rfl, by omega, fun r hr => (Option.some.inj hr).le⟩
    · rcases List.mem_cons.mp hc' with rfl | hmem
      · exact ⟨le_rfl, by omega, fun r hr => Nat.le_of_succ_le (le_of_findChunkInGroupLoop _ _ hr)⟩
      · exact hrest hmem
    · rcases List.mem_cons.mp hc' with rfl | hmem
      · exact ⟨le_rfl, by omega, fun r hr => Nat.le_of_succ_le (le_of_findChunkInGroupLoop _ _ hr)⟩
      · exact hrest hmem

/-- A search that finds nothing goes through the whole group. -/
theorem mem_examinedLoop_of_none (n : ℕ) : ∀ c, c ≠ 0 → findChunkInGroupLoop g d o k n c = none →
    ∀ c', c ≤ c' → c' < c + n → c' ∈ examinedLoop g d o k n c := by
  induction n with
  | zero => intro c _ _ c' h1 h2; omega
  | succ n ih =>
    intro c h0 hnone c' h1 h2
    have hrest : findChunkInGroupLoop g d o k n (c + 1) = none → c' ∈ c :: examinedLoop g d o k n (c + 1) := by
      intro hn
      by_cases hc : c' = c
      · simp [hc]
      · exact List.mem_cons_of_mem _ (ih _ (by omega) hn c' (by omega) (by omega))
    simp only [findChunkInGroupLoop, if_neg h0] at hnone
    simp only [examinedLoop, if_neg h0]
    split_ifs at hnone ⊢ with hbit hsize hm
    · exact hrest hnone
    · exact hrest hnone

theorem findChunkInGroupLoop_none (n : ℕ) : ∀ c, (∀ c', c ≤ c' → c' < c + n → d.chunkBits c' = true →
    ¬(g.chunkGrpSize = 1 ∨ ((d.nand.flash c').any fun p => tagsMatch p.tags o k) = true)) →
    findChunkInGroupLoop g d o k n c = none := by
  induction n with
  | zero => exact fun _ _ => rfl
  | succ n ih =>
    intro c hno
    have hrest := ih (c + 1) fun c' h1 h2 => hno c' (by omega) (by omega)
    simp only [findChunkInGroupLoop]
    split_ifs with h0 hbit hsize hm
    · rfl
    · exact absurd (Or.inl hsize) (hno c le_rfl (by omega) hbit)
    · exact absurd (Or.inr hm) (hno c le_rfl (by omega) hbit)
    · exact hrest
    · exact hrest

end Loop

/-! ## Searching for the chunks of a map -/

section Search

variable {d : Dev} {L : ChunkMap} {o k : ℕ}

/-- Without a chunk in the map nothing is looked for. -/
theorem fileExamined_of_entry (h : (d.obj o).file.entry k = 0) : fileExamined g d o k = [] := by
  unfold fileExamined
  cases hf : (d.obj o).file.find k with
  | none => rfl
  | some v =>
    obtain rfl : v = 0 := by simpa [FileVar.entry, hf] using h
    rw [Option.elim_some, groupBase_eq_zero.mpr rfl]
    cases g.chunkGrpSize <;> simp [examinedLoop]

/-- The group of a chunk in the map is searched. -/
theorem Grouped.find (h : Grouped g d L) (hne : L o k ≠ 0) :
    (d.obj o).file.find k = some (groupOf g (L o k)) := by
  have hentry := h.entry o k
  have hgroup := groupOf_ne_zero (h.mem o k hne)
  unfold FileVar.entry at hentry
  cases hf : (d.obj o).file.find k with
  | none =>
    rw [hf, Option.getD_none] at hentry
    exact absurd hentry.symm hgroup
  | some v => rw [← hentry, hf, Option.getD_some]

theorem findDelFileChunk_snd (o k : ℕ) (d : Dev) :
    (findDelFileChunk g o k d).2 = findChunkInFile g d o k := by
  unfold findDelFileChunk
  split <;> simp [*]

/-- The search finds the chunk of the map. -/
theorem Grouped.find_eq (h : Grouped g d L) (hn : NamesOwner g d.toBlockDev L)
    (hin : SearchInside g d.toBlockDev L) (o k : ℕ) :
    findChunkInFile g d o k = ungroupedFind d.toBlockDev L o k ∧ ∀ c ∈ fileExamined g d o k, c ∈ g.chunks := by
  by_cases hne : L o k = 0
  · have hentry : (d.obj o).file.entry k = 0 := by rw [h.entry, hne, groupOf_zero]
    rw [findChunkInFile_eq_none hentry, fileExamined_of_entry hentry]
    simp [ungroupedFind, hne]
  have hmem := h.mem o k hne
  obtain ⟨hlo, hhi⟩ := groupBase_groupOf hmem
  obtain ⟨hstart, hend⟩ := hin o k hne
  have hbase : groupBase g (groupOf g (L o k)) ≠ 0 := fun h0 => groupOf_ne_zero hmem (groupBase_eq_zero.mp h0)
  have hchunk := (mem_chunks_iff.mp hmem).2
  have hone : ∀ c', groupBase g (groupOf g (L o k)) ≤ c' → c' < groupBase g (groupOf g (L o k)) + g.chunkGrpSize →
      c' < (g.endBlock + 1) * g.chunksPerBlock → d.chunkBits c' = true →
      (g.chunkGrpSize = 1 ∨ ((d.nand.flash c').any fun p => tagsMatch p.tags o k) = true) → c' = L o k := by
    rintro c' h1 h2 h3 hbit (hsize | hm)
    · rw [hsize] at hhi h2
      omega
    · exact (hn.owner c' (mem_chunks_iff.mpr ⟨by omega, h3⟩) hbit o k hm hne).symm
  rw [findChunkInFile, fileExamined, h.find hne, Option.bind_some, Option.elim_some, findChunkInGroup]
  by_cases hbit : d.chunkBits (L o k) = true
  · have hfound := findChunkInGroupLoop_eq (g := g) hbit (hn.tags o k hmem hbit) g.chunkGrpSize _ hbase hlo hhi
      fun c' h1 h2 => hone c' h1 (by omega) (by omega)
    refine ⟨by rw [hfound, ungroupedFind, if_pos ⟨hne, hbit⟩], fun c' hc' => ?_⟩
    obtain ⟨h1, -, h3⟩ := examinedLoop_bounds _ _ _ hc'
    have := h3 _ hfound
    exact mem_chunks_iff.mpr ⟨by omega, by omega⟩
  · have hgroup := hend.resolve_left hbit
    have hnone := findChunkInGroupLoop_none (g := g) (d := d.toBlockDev) (o := o) (k := k) g.chunkGrpSize
      (groupBase g (groupOf g (L o k))) fun c' h1 h2 hb hm => hbit (hone c' h1 h2 (by omega) hb hm ▸ hb)
    refine ⟨by rw [hnone, ungroupedFind, if_neg fun h => hbit h.2], fun c' hc' => ?_⟩
    obtain ⟨h1, h2, -⟩ := examinedLoop_bounds _ _ _ hc'
    exact mem_chunks_iff.mpr ⟨by omega, by omega⟩

/-- Narrow tnodes do not show where the groups lie on the device, and there only. -/
theorem Grouped.invisible_iff (h : Grouped g d L) (hn : NamesOwner g d.toBlockDev L) :
    NarrowInvisible g d L ↔ SearchInside g d.toBlockDev L := by
  constructor
  · intro hinv o k hne
    obtain ⟨hfind, -, hex⟩ := hinv o k
    have hbase : groupBase g (groupOf g (L o k)) ≠ 0 := fun h0 =>
      groupOf_ne_zero (h.mem o k hne) (groupBase_eq_zero.mp h0)
    rw [fileExamined, h.find hne, Option.elim_some] at hex
    obtain ⟨n, hsize⟩ := Nat.exists_eq_succ_of_ne_zero (chunkGrpSize_pos (g := g)).ne'
    refine ⟨(mem_chunks_iff.mp (hex _ ?_)).1, ?_⟩
    · rw [hsize]
      exact mem_examinedLoop_first hbase
    · refine or_iff_not_imp_left.mpr fun hbit => ?_
      rw [findChunkInFile, h.find hne, Option.bind_some, ungroupedFind, if_neg fun hb => hbit hb.2] at hfind
      have hlast := hex _ (mem_examinedLoop_of_none _ _ hbase hfind
        (groupBase g (groupOf g (L o k)) + n) (by omega) (by omega))
      have := (mem_chunks_iff.mp hlast).2
      omega
  · intro hin o k
    obtain ⟨hfind, hex⟩ := h.find_eq hn hin o k
    exact ⟨hfind, (findDelFileChunk_snd o k d).trans hfind, hex⟩

/-- Where a group is one chunk, every search is the one without groups. -/
theorem Grouped.find_eq_of_one (h : Grouped g d L) (h1 : g.chunkGrpSize = 1) (o k : ℕ) :
    findChunkInFile g d o k = ungroupedFind d.toBlockDev L o k := by
  by_cases hne : L o k = 0
  · rw [findChunkInFile_eq_none (by rw [h.entry, hne, groupOf_zero])]
    simp [ungroupedFind, hne]
  · obtain ⟨hlo, hhi⟩ := groupBase_groupOf (h.mem o k hne)
    have hbase : groupBase g (groupOf g (L o k)) = L o k := by omega
    rw [findChunkInFile, h.find hne, Option.bind_some, hbase, findChunkInGroup, h1]
    simp [findChunkInGroupLoop, ungroupedFind, hne, h1]

end Search

/-! ## Runs -/

variable (g e) in
/-- A device with the map its files would have without groups, as it runs. The allocator hands out
any chunk of the device. What else happens to pages, bits and objects happens between the steps on
the trees, or as one that leaves them. -/
inductive MapRun : Dev → ChunkMap → Prop
  /-- A device whose files are empty, over any flash. -/
  | start {d : Dev} (h : ∀ o k, (d.obj o).file.entry k = 0) : MapRun d fun _ _ => 0
  | put {d : Dev} {L : ChunkMap} (h : MapRun d L) (o k : ℕ) {c : ℕ} (hc : c = 0 ∨ c ∈ g.chunks) :
    MapRun (putChunkInFile g e o k c d).1
      (if (d.obj o).variantType = .file ∧ (putChunkInFile g e o k c d).2 = true ∧ c ≠ 0 then L.put o k c else L)
  | findDel {d : Dev} {L : ChunkMap} (h : MapRun d L) (hn : NamesOwner g d.toBlockDev L)
    (hin : SearchInside g d.toBlockDev L) (o k : ℕ) :
    MapRun (findDelFileChunk g o k d).1 (ungroupedDel d.toBlockDev L o k)
  /-- The tree of `o` lets go of all its chunks. -/
  | clear {d d' : Dev} {L : ChunkMap} (h : MapRun d L) (o : ℕ)
    (hd : ∀ o' k, (d'.obj o').file.entry k = if o' = o then 0 else (d.obj o').file.entry k) :
    MapRun d' (L.clear o)
  /-- Anything that leaves the trees, or makes trees that hold the same. -/
  | keep {d d' : Dev} {L : ChunkMap} (h : MapRun d L)
    (hd : ∀ o k, (d'.obj o).file.entry k = (d.obj o).file.entry k) : MapRun d' L

/-- With a tnode of its own a chunk gets into the file. -/
theorem putChunkInFile_entry (o k c : ℕ) (d : Dev) (o' k' : ℕ) :
    ((putChunkInFile g e o k c d).1.obj o').file.entry k' =
      if (d.obj o).variantType = .file ∧ (putChunkInFile g e o k c d).2 = true ∧ c ≠ 0 ∧ o' = o ∧ k' = k
      then groupOf g c else (d.obj o').file.entry k' := by
  by_cases hfile : (d.obj o).variantType = .file
  · obtain ⟨-, hadd, hhas⟩ := FileVar.addFind_spec (e := e) (d.obj o).file k d.toBlockDev
    unfold putChunkInFile
    rw [if_neg (by simp [hfile])]
    generalize (d.obj o).file.addFind e k d.toBlockDev = r at hadd hhas ⊢
    obtain ⟨bd, f, ok⟩ := r
    have hkeep : (Function.update d.obj o { d.obj o with file := f } o').file.entry k' =
        (d.obj o').file.entry k' := by
      by_cases ho : o' = o
      · subst ho
        simpa using hadd.entry k'
      · rw [Function.update_of_ne ho]
    cases ok with
    | false => simpa [Dev.modFile, Dev.modObj] using hkeep
    | true =>
      by_cases hc : c = 0
      · simpa [Dev.modFile, Dev.modObj, hc] using hkeep
      · have hload : ∀ d₁ : Dev, (∀ q, (d₁.obj q).file =
            (Function.update d.obj o { d.obj o with file := f } q).file) →
            ((d₁.modFile o fun f => f.load k (groupOf g c)).obj o').file.entry k' =
              if o' = o ∧ k' = k then groupOf g c else (d.obj o').file.entry k' := by
          intro d₁ hd₁
          by_cases ho : o' = o
          · subst ho
            have hf : (d₁.obj o').file = f := by simpa using hd₁ o'
            simp [Dev.modFile, Dev.modObj, hf, FileVar.entry_load (hhas rfl), hadd.entry]
          · simp [Dev.modFile, Dev.modObj, ho, hd₁]
        simp only [if_true, if_false, hfile, true_and, ne_eq, hc, not_false_eq_true]
        refine hload _ fun q => ?_
        by_cases hq : q = o
        · subst hq
          split_ifs <;> simp [Dev.modFile, Dev.modObj]
        · split_ifs <;> simp [Dev.modFile, Dev.modObj, hq]
  · unfold putChunkInFile
    rw [if_pos hfile]
    simp [hfile, Dev.mapBlocks]

/-- Deleting what was found takes it from the tree. -/
theorem findDelFileChunk_entry (o k : ℕ) (d : Dev) (o' k' : ℕ) :
    ((findDelFileChunk g o k d).1.obj o').file.entry k' =
      if (findChunkInFile g d o k).isSome = true ∧ o' = o ∧ k' = k then 0 else (d.obj o').file.entry k' := by
  unfold findDelFileChunk
  cases hf : findChunkInFile g d o k with
  | none => simp
  | some c =>
    have hhas : (d.obj o).file.Has k := by
      intro hnone
      simp [findChunkInFile, hnone] at hf
    by_cases ho : o' = o
    · subst ho
      simpa [Dev.modFile, Dev.modObj] using FileVar.entry_load hhas k' 0
    · simp [Dev.modFile, Dev.modObj, ho]

theorem Grouped.keep {d d' : Dev} {L : ChunkMap} (h : Grouped g d L)
    (hd : ∀ o k, (d'.obj o).file.entry k = (d.obj o).file.entry k) : Grouped g d' L :=
  ⟨h.mem, fun o k => (hd o k).trans (h.entry o k)⟩

theorem Grouped.put {d d' : Dev} {L : ChunkMap} {o k c : ℕ} (h : Grouped g d L) (hc : c = 0 ∨ c ∈ g.chunks)
    (hd : ∀ o' k', (d'.obj o').file.entry k' =
      if o' = o ∧ k' = k then groupOf g c else (d.obj o').file.entry k') : Grouped g d' (L.put o k c) := by
  constructor
  · intro o' k' hne
    unfold ChunkMap.put at hne ⊢
    split_ifs at hne ⊢
    · exact hc.resolve_left hne
    · exact h.mem o' k' hne
  · intro o' k'
    rw [hd, h.entry, ChunkMap.put]
    split_ifs <;> rfl

theorem Grouped.clear {d d' : Dev} {L : ChunkMap} {o : ℕ} (h : Grouped g d L)
    (hd : ∀ o' k, (d'.obj o').file.entry k = if o' = o then 0 else (d.obj o').file.entry k) :
    Grouped g d' (L.clear o) := by
  constructor
  · intro o' k' hne
    unfold ChunkMap.clear at hne ⊢
    split_ifs at hne ⊢
    · exact absurd rfl hne
    · exact h.mem o' k' hne
  · intro o' k'
    rw [hd, h.entry, ChunkMap.clear]
    split_ifs
    · exact groupOf_zero.symm
    · rfl

/-- The trees hold the groups of the chunks in the map, all along a run. -/
theorem MapRun.grouped {d : Dev} {L : ChunkMap} (h : MapRun g e d L) : Grouped g d L := by
  induction h with
  | start hd => exact ⟨fun _ _ h => absurd rfl h, fun o k => by rw [hd, groupOf_zero]⟩
  | @put d L _ o k c hc ih =>
    split_ifs with hput
    · refine ih.put hc fun o' k' => ?_
      rw [putChunkInFile_entry]
      simp [hput]
    · refine ih.keep fun o' k' => ?_
      rw [putChunkInFile_entry, if_neg fun h => hput ⟨h.1, h.2.1, h.2.2.1⟩]
  | @findDel d L _ hn hin o k ih =>
    unfold ungroupedDel
    have hfind := (ih.find_eq hn hin o k).1
    split_ifs with hsome
    · refine ih.put (Or.inl rfl) fun o' k' => ?_
      rw [findDelFileChunk_entry, hfind, groupOf_zero]
      simp [hsome]
    · refine ih.keep fun o' k' => ?_
      rw [findDelFileChunk_entry, hfind, if_neg fun h => hsome h.1]
  | clear _ o hd ih => exact ih.clear hd
  | keep _ hd ih => exact ih.keep hd

/-! ## The core's steps on the trees -/

section Steps

variable {d : Dev} {L : ChunkMap} {T : ℕ → BlockState → Prop} {soft : ℕ → Bool}

/-- The map still has what it had, but for one chunk. -/
def ChunkMap.Except (L L' : ChunkMap) (o k : ℕ) : Prop :=
  ∀ o' k', ¬(o' = o ∧ k' = k) → L' o' k' = L o' k'

theorem MapRun.put_except (h : MapRun g e d L) (o k : ℕ) {c : ℕ} (hc : c = 0 ∨ c ∈ g.chunks) :
    ∃ L', MapRun g e (putChunkInFile g e o k c d).1 L' ∧ L.Except L' o k := by
  refine ⟨_, h.put o k hc, fun o' k' hne => ?_⟩
  split_ifs
  · exact if_neg hne
  · rfl

/-- The chunk a write gives is one of the device. -/
theorem writeNewChunk_mem (h : Accounts g T soft d.toBlockDev) (data : PageData) {t : ExtTags}
    (ht : t.isDeleted = false) (hid : t.objId ≠ objectIdSummary) (useReserve : Bool) :
    ∀ c, (writeNewChunk g e data t useReserve d.toBlockDev).2 = some c → c ∈ g.chunks := by
  intro c hc
  have hspec := writeNewChunk_spec (e := e) h.ready data ht hid useReserve
  rw [hc] at hspec
  obtain ⟨-, -, q, -, hw⟩ := hspec
  exact hw.mem_chunks (c := c) (p := q) (by simp)

theorem putChunkInFile_zero (h : Accounts g T soft d.toBlockDev) {o : ℕ} (hfile : (d.obj o).variantType = .file)
    (k : ℕ) : Accounts g T soft (putChunkInFile g e o k 0 d).1.toBlockDev := by
  have hcounts := (FileVar.addFind_spec (e := e) (d.obj o).file k d.toBlockDev).1
  unfold putChunkInFile
  rw [if_neg (by simp [hfile])]
  simp only [if_true]
  split_ifs
  · exact h.countsOnly hcounts
  · exact h.countsOnly hcounts

/-- A chunk is replaced by putting the new one. -/
theorem MapRun.replaceChunk (h : MapRun g e d L) (o k : ℕ) (prev : Option ℕ) {c : ℕ} (hc : c ∈ g.chunks) :
    ∃ L', MapRun g e (replaceChunk g e o k prev c d) L' ∧ L.Except L' o k := by
  obtain ⟨L', hrun, hL⟩ := h.put_except o k (Or.inr hc)
  unfold Yaffs.replaceChunk
  cases prev with
  | none => exact ⟨L', hrun, hL⟩
  | some p => exact ⟨L', hrun.keep fun _ _ => rfl, hL⟩

/-- `yaffs_wr_data_obj` puts the chunk it writes. -/
theorem MapRun.wrDataChunk (h : MapRun g e d L) (hacc : Accounts g T soft d.toBlockDev) {o : ℕ}
    (hid : o ≠ objectIdSummary) (hfile : (d.obj o).variantType = .file) (k : ℕ) (data : List UInt8)
    (nBytes : ℕ) (useReserve : Bool) :
    ∃ L', MapRun g e (wrDataChunk g e o k data nBytes useReserve d).1 L' ∧ L.Except L' o k := by
  unfold Yaffs.wrDataChunk
  have hr : ∀ r, (if (findChunkInFile g d o k).isNone then putChunkInFile g e o k 0 d else (d, true)) = r →
      MapRun g e r.1 L ∧ Accounts g T soft r.1.toBlockDev := by
    rintro r rfl
    split_ifs
    · have hput := h.put o k (c := 0) (Or.inl rfl)
      rw [if_neg (by simp)] at hput
      exact ⟨hput, putChunkInFile_zero hacc hfile k⟩
    · exact ⟨h, hacc⟩
  dsimp only
  generalize (if (findChunkInFile g d o k).isNone then putChunkInFile g e o k 0 d else (d, true)) = r at hr
  obtain ⟨hrun, hacc⟩ := hr r rfl
  split_ifs
  · have hraised : MapRun g e (r.1.modFile o (raiseStoredSize g k nBytes)) L := by
      refine hrun.keep fun o' k' => ?_
      by_cases ho : o' = o
      · subst ho
        simp only [Dev.modFile, Dev.modObj, Function.update_self]
        unfold raiseStoredSize
        dsimp only
        split_ifs <;> rfl
      · simp [Dev.modFile, Dev.modObj, ho]
    have hacc : Accounts g T soft (r.1.modFile o (raiseStoredSize g k nBytes)).toBlockDev := hacc
    generalize r.1.modFile o (raiseStoredSize g k nBytes) = d₁ at hraised hacc
    have hmem := writeNewChunk_mem (e := e) (t := dataTags o k nBytes) hacc (.bytes data) rfl hid useReserve
    simp only [Dev.onBlocks]
    generalize writeNewChunk g e (.bytes data) (dataTags o k nBytes) useReserve d₁.toBlockDev = w at hmem
    obtain ⟨bd, res⟩ := w
    have hrun₁ : MapRun g e { d₁ with toBlockDev := bd } L := hraised.keep fun _ _ => rfl
    cases res with
    | none => exact ⟨L, hrun₁, fun _ _ _ => rfl⟩
    | some c => exact hrun₁.replaceChunk o k _ (hmem c rfl)
  · exact ⟨L, hrun, fun _ _ _ => rfl⟩

/-- gc puts the copy of a data chunk. -/
theorem MapRun.gcCopyData (h : MapRun g e d L) (hacc : Accounts g T soft d.toBlockDev) (o old : ℕ) {p : Page}
    (ht : p.tags.isDeleted = false) (hid : p.tags.objId ≠ objectIdSummary) :
    ∃ L', MapRun g e (gcCopyData g e o old p d).1 L' ∧ L.Except L' o p.tags.chunkId := by
  have hmem := writeNewChunk_mem (e := e) hacc p.data ht hid true
  unfold Yaffs.gcCopyData
  simp only [Dev.onBlocks]
  generalize writeNewChunk g e p.data p.tags true d.toBlockDev = w at hmem
  obtain ⟨bd, res⟩ := w
  have hrun : MapRun g e { d with toBlockDev := bd } L := h.keep fun _ _ => rfl
  cases res with
  | none => exact ⟨L, hrun, fun _ _ _ => rfl⟩
  | some c => exact hrun.replaceChunk o p.tags.chunkId (some old) (hmem c rfl)

/-- The body of the loop of `yaffs_prune_chunks` takes a chunk from the file. -/
theorem MapRun.pruneChunk (h : MapRun g e d L) (hn : NamesOwner g d.toBlockDev L)
    (hin : SearchInside g d.toBlockDev L) (o k : ℕ) :
    MapRun g e (pruneChunk g e o d k) (ungroupedDel d.toBlockDev L o k) := by
  have hdel := h.findDel hn hin o k
  unfold Yaffs.pruneChunk
  dsimp only
  split
  · exact hdel
  · split_ifs
    · exact hdel
    · exact hdel
    · refine hdel.keep fun o' k' => ?_
      by_cases ho : o' = o
      · subst ho
        simp [Dev.modObj, Dev.mapBlocks]
      · simp [Dev.modObj, Dev.mapBlocks, ho]

/-- The soft deletion of a file clears its chunks from the map. -/
theorem MapRun.softDel (h : MapRun g e d L) {o : ℕ} (hl : (d.obj o).file.topLevel ≤ tnodesMaxLevel) :
    let r := (d.obj o).file.softDel g (groupBase g) d.toBlockDev
    MapRun g e ({ d with toBlockDev := r.1 }.modObj o fun ob => { ob with file := r.2, softDel := true })
      (L.clear o) := by
  intro r
  obtain ⟨-, -, -, hzero⟩ := FileVar.softDel_spec (g := g) hl (fun v => groupBase_eq_zero (g := g) (v := v))
    d.toBlockDev
  refine h.clear o fun o' k => ?_
  by_cases ho : o' = o
  · subst ho
    simpa [Dev.modObj] using hzero k
  · simp [Dev.modObj, ho]

/-- With its tnode there, a chunk is put by `yaffs_load_tnode_0`. -/
theorem MapRun.load (h : MapRun g e d L) {o k c : ℕ} (hfile : (d.obj o).variantType = .file)
    (hhas : (d.obj o).file.Has k) (hc : c ∈ g.chunks) :
    MapRun g e (d.modFile o fun f => f.load k (groupOf g c)) (L.put o k c) := by
  have hc0 : c ≠ 0 := fun h0 => zero_not_mem_chunks (h0 ▸ hc)
  have hput := h.put o k (Or.inr hc)
  rw [putChunkInFile_has hfile hhas hc0, if_pos ⟨hfile, rfl, hc0⟩] at hput
  refine hput.keep fun o' k' => ?_
  by_cases ho : o' = o
  · subst ho
    simp [Dev.modFile, Dev.modObj]
  · simp [Dev.modFile, Dev.modObj, ho]

/-- The tnode for a chunk leaves the map. -/
theorem MapRun.addFind (h : MapRun g e d L) (o k : ℕ) :
    let r := (d.obj o).file.addFind e k d.toBlockDev
    MapRun g e ({ d with toBlockDev := r.1 }.modFile o fun _ => r.2.1) L := by
  intro r
  obtain ⟨-, hadd, -⟩ := FileVar.addFind_spec (e := e) (d.obj o).file k d.toBlockDev
  refine h.keep fun o' k' => ?_
  by_cases ho : o' = o
  · subst ho
    simpa [Dev.modFile, Dev.modObj] using hadd.entry k'
  · simp [Dev.modFile, Dev.modObj, ho]

/-- Scanning puts a chunk or leaves the map, backwards ... -/
theorem MapRun.putChunkBackwards (h : MapRun g e d L) (o k : ℕ) {c : ℕ} (hc : c ∈ g.chunks) :
    ∃ L', MapRun g e (putChunkBackwards g e o k c d).1 L' ∧ (L' = L ∨ L' = L.put o k c) := by
  unfold Yaffs.putChunkBackwards
  split_ifs with hfile
  · exact ⟨L, h.keep fun _ _ => rfl, Or.inl rfl⟩
  have hfound := h.addFind o k
  have hhas := (FileVar.addFind_spec (e := e) (d.obj o).file k d.toBlockDev).2.2
  dsimp only at hfound ⊢
  generalize (d.obj o).file.addFind e k d.toBlockDev = r at hfound hhas ⊢
  split_ifs with hok hnone
  · refine ⟨_, MapRun.load (h := hfound.keep fun o' k' => ?_) ?_ ?_ hc, Or.inr rfl⟩
    · by_cases ho : o' = o
      · subst ho
        simp [Dev.modObj]
      · simp [Dev.modObj, ho]
    · simpa [Dev.modObj, Dev.modFile] using hfile
    · simpa [Dev.modObj, Dev.modFile] using hhas hok
  · exact ⟨L, hfound.keep fun _ _ => rfl, Or.inl rfl⟩
  · exact ⟨L, hfound, Or.inl rfl⟩

/-- ... and forwards. -/
theorem MapRun.putChunkForwards (h : MapRun g e d L) (m : MountParam) (o k : ℕ) {c : ℕ} (hc : c ∈ g.chunks) :
    ∃ L', MapRun g e (putChunkForwards g e m o k c d).1 L' ∧ (L' = L ∨ L' = L.put o k c) := by
  unfold Yaffs.putChunkForwards
  split_ifs with hfile
  · exact ⟨L, h.keep fun _ _ => rfl, Or.inl rfl⟩
  have hfound := h.addFind o k
  have hhas := (FileVar.addFind_spec (e := e) (d.obj o).file k d.toBlockDev).2.2
  dsimp only at hfound ⊢
  generalize (d.obj o).file.addFind e k d.toBlockDev = r at hfound hhas ⊢
  have hload : r.2.2 = true → ∀ d₁ : Dev, (∀ q, ((d₁.obj q).variantType, (d₁.obj q).file) =
      ((({ d with toBlockDev := r.1 }.modFile o fun _ => r.2.1).obj q).variantType,
        (({ d with toBlockDev := r.1 }.modFile o fun _ => r.2.1).obj q).file)) →
      ∃ L', MapRun g e (d₁.modFile o fun f => f.load k (groupOf g c)) L' ∧ (L' = L ∨ L' = L.put o k c) := by
    intro hok d₁ hd₁
    have hfil : ∀ q, (d₁.obj q).file = (({ d with toBlockDev := r.1 }.modFile o fun _ => r.2.1).obj q).file :=
      fun q => (Prod.mk.inj (hd₁ q)).2
    refine ⟨_, MapRun.load (h := hfound.keep fun o' k' => by rw [hfil]) ?_ ?_ hc, Or.inr rfl⟩
    · rw [(Prod.mk.inj (hd₁ o)).1]
      simpa [Dev.modObj, Dev.modFile] using hfile
    · rw [hfil]
      simpa [Dev.modObj, Dev.modFile] using hhas hok
  split_ifs with hok hnone
  · refine hload hok _ fun q => ?_
    by_cases hq : q = o
    · subst hq
      simp [Dev.modObj]
    · simp [Dev.modObj, hq]
  · generalize { d with toBlockDev := r.1 }.modFile o (fun _ => r.2.1) = d₂ at hfound hload ⊢
    cases findChunkInFile g (d₂.onBlocks (rdChunkTagsNand g m.reader c)).1 o k with
    | none => exact hload hok _ fun _ => rfl
    | some old =>
      dsimp only
      split_ifs
      · exact hload hok _ fun _ => rfl
      · exact ⟨L, hfound.keep fun _ _ => rfl, Or.inl rfl⟩
  · exact ⟨L, hfound, Or.inl rfl⟩

end Steps

/-- Where pages and objects own each other, the pages are the map. -/
theorem Own.grouped {d : Dev} (h : Own g d.kept d.ids d.obj) : ∃ L : ChunkMap, Grouped g d L ∧
    NamesOwner g d.toBlockDev L ∧ ∀ o k, L o k ≠ 0 → d.chunkBits (L o k) = true := by
  have hmap : ∀ o k, ∃ c, (c = 0 ∧ (d.obj o).file.entry k = 0) ∨
      ∃ p, d.kept c = some p ∧ p.key = (o, k) ∧ groupOf g c = (d.obj o).file.entry k := by
    intro o k
    by_cases he : (d.obj o).file.entry k = 0
    · exact ⟨0, Or.inl ⟨rfl, he⟩⟩
    · obtain ⟨-, c, p, hp⟩ := h.entry o k he
      exact ⟨c, Or.inr ⟨p, hp⟩⟩
  choose L hL using hmap
  have hpage : ∀ o k, L o k ≠ 0 → ∃ p, d.kept (L o k) = some p ∧ p.key = (o, k) ∧
      groupOf g (L o k) = (d.obj o).file.entry k := fun o k hne => (hL o k).resolve_left fun h0 => hne h0.1
  refine ⟨L, ⟨fun o k hne => ?_, fun o k => ?_⟩, ⟨fun o k hmem _ => ?_, fun c _ hbit o k hm hne => ?_⟩, fun o k hne => ?_⟩
  · obtain ⟨p, hp, -⟩ := hpage o k hne
    exact h.chunk_mem hp
  · rcases hL o k with ⟨h0, he⟩ | ⟨p, -, -, hg⟩
    · rw [h0, he, groupOf_zero]
    · exact hg.symm
  · have hne : L o k ≠ 0 := fun h0 => zero_not_mem_chunks (h0 ▸ hmem)
    obtain ⟨p, hp, hkey, -⟩ := hpage o k hne
    obtain ⟨hpo, hpk⟩ := Prod.mk.inj hkey
    simp [(kept_eq_some.mp hp).2.1, tagsMatch, hpo, hpk, (h.page _ p hp).unmarked]
  · obtain ⟨p, hp, hkey, -⟩ := hpage o k hne
    obtain ⟨q, hq, hm⟩ : ∃ q, d.nand.flash c = some q ∧ tagsMatch q.tags o k = true := by
      cases hq : d.nand.flash c with
      | none => simp [hq] at hm
      | some q => exact ⟨q, rfl, by simpa [hq] using hm⟩
    simp only [tagsMatch, Bool.and_eq_true, decide_eq_true_eq] at hm
    have hid : q.tags.objId ≠ objectIdSummary := by
      rw [hm.1.2, ← (Prod.mk.inj hkey).1]
      exact (kept_eq_some.mp hp).2.2
    exact h.unique _ _ p q hp (kept_eq_some.mpr ⟨hbit, hq, hid⟩) (by rw [hkey, Page.key, hm.1.1, hm.1.2])
  · obtain ⟨p, hp, -⟩ := hpage o k hne
    exact (kept_eq_some.mp hp).1

/-- Where groups do not cross the start of the device, chunks in use are found in their groups. -/
theorem Grouped.searchInside {d : Dev} {L : ChunkMap} (h : Grouped g d L)
    (hdvd : g.chunkGrpSize ∣ g.startBlock * g.chunksPerBlock)
    (hbit : ∀ o k, L o k ≠ 0 → d.chunkBits (L o k) = true) : SearchInside g d.toBlockDev L := by
  intro o k hne
  refine ⟨?_, Or.inl (hbit o k hne)⟩
  obtain ⟨hlo, hhi⟩ := groupBase_groupOf (h.mem o k hne)
  obtain ⟨n, hn⟩ := hdvd
  have hstart := (mem_chunks_iff.mp (h.mem o k hne)).1
  rw [groupOf_eq (h.mem o k hne), groupBase, Nat.shiftLeft_eq, ← Param.chunkGrpSize] at hhi ⊢
  rw [hn, Nat.mul_comm] at hstart ⊢
  have hle : n ≤ L o k / g.chunkGrpSize := (Nat.le_div_iff_mul_le chunkGrpSize_pos).mpr hstart
  exact Nat.mul_le_mul_right _ hle

/-- In every state of a run in which the tags of the chunks in use name their owner, the narrow
tnodes do not show if and only if the groups of the map lie on the device. -/
theorem narrowInvisible_iff {d : Dev} {L : ChunkMap} (h : MapRun g e d L) (hn : NamesOwner g d.toBlockDev L) :
    NarrowInvisible g d L ↔ SearchInside g d.toBlockDev L :=
  h.grouped.invisible_iff hn

/-! ## Devices with narrow tnodes -/

/-- A device with groups of eight chunks, `n` chunks to a block. -/
def narrowParam (n : ℕ) : Param :=
  { sampleGeometry.toParam with chunksPerBlock := n, endBlock := 40000, wideTnodesDisabled := true }

/-- A group of eight chunks is a block. -/
def narrowGeometry : Geometry where
  toParam := narrowParam 8
  two_le_chunksPerBlock := by decide
  two_le_nReservedBlocks := by decide
  startBlock_pos := by decide
  endBlock_gt := by decide
  chunkGrpSize_le := by decide
  objHdrSize_le := by decide
  chunks_lt := by decide

/-- A block has six chunks, a group four of them : the first block begins within a group. -/
def oddGeometry : Geometry where
  toParam := narrowParam 6
  two_le_chunksPerBlock := by decide
  two_le_nReservedBlocks := by decide
  startBlock_pos := by decide
  endBlock_gt := by decide
  chunkGrpSize_le := by decide
  objHdrSize_le := by decide
  chunks_lt := by decide

/-- The first chunk of the file `257` is in chunk `c`, and not yet in the file. -/
def written (g : Geometry) (c : ℕ) : Dev :=
  let d := freshDev g fun _ => false
  { d with
    nand := { d.nand with
      flash := fun c' => if c' = c then some ⟨dataTags 257 1 512, .bytes (zeroChunk g)⟩ else none }
    chunkBits := fun c' => c' = c
    obj := fun _ => { variantType := .file, file := { top := some (Tnode.empty 0) } } }

/-- The first chunk of the file `257` is in chunk `c`. -/
def entered (g : Geometry) (c : ℕ) : Dev :=
  (written g c).modFile 257 fun f => f.load 1 (groupOf g c)

/-- The map of `entered`. -/
def enteredMap (c : ℕ) : ChunkMap :=
  ChunkMap.put (fun _ _ => 0) 257 1 c

theorem entered_run {c : ℕ} (hc : c ∈ g.chunks) : MapRun g okEnv (entered g c) (enteredMap c) := by
  have hempty : ∀ o k, ((written g c).obj o).file.entry k = 0 := by
    intro o k
    rw [show ((written g c).obj o).file = { top := some (Tnode.empty 0) } from rfl, FileVar.entry, FileVar.find]
    simp only [Option.bind_some, Tnode.find_empty, if_true]
    split_ifs <;> rfl
  have hhas : FileVar.Has { top := some (Tnode.empty 0) } 1 := by
    unfold FileVar.Has
    decide
  exact (MapRun.start hempty).load rfl hhas hc

theorem entered_names (c : ℕ) : NamesOwner g (entered g c).toBlockDev (enteredMap c) := by
  have hput : ∀ o k, enteredMap c o k ≠ 0 → o = 257 ∧ k = 1 ∧ enteredMap c o k = c := by
    intro o k hne
    unfold enteredMap ChunkMap.put at hne ⊢
    split_ifs at hne ⊢ with h
    · exact ⟨h.1, h.2, rfl⟩
    · exact absurd rfl hne
  constructor
  · intro o k hmem _
    have hne : enteredMap c o k ≠ 0 := fun h0 => zero_not_mem_chunks (h0 ▸ hmem)
    obtain ⟨rfl, rfl, hc⟩ := hput o k hne
    simp [hc, entered, written, Dev.modFile, Dev.modObj, tagsMatch, dataTags]
  · intro c' _ hbit o k _ hne
    have : c' = c := by simpa [entered, written, Dev.modFile, Dev.modObj] using hbit
    rw [(hput o k hne).2.2, this]

theorem narrowGeometry_groups : narrowGeometry.chunkGrpSize = 8 := by decide

theorem oddGeometry_groups : oddGeometry.chunkGrpSize = 4 := by decide

/-- Chunk `9` is found in the group of the first block. -/
theorem entered_invisible : NarrowInvisible narrowGeometry (entered narrowGeometry 9) (enteredMap 9) := by
  have hmem : 9 ∈ narrowGeometry.chunks := mem_chunks_iff.mpr (by decide)
  refine (narrowInvisible_iff (entered_run hmem) (entered_names 9)).mpr ?_
  refine (entered_run hmem).grouped.searchInside (by decide) fun o k hne => ?_
  unfold enteredMap ChunkMap.put at hne ⊢
  split_ifs at hne ⊢
  · rfl
  · exact absurd rfl hne

/-- The search for a chunk of the first block examines chunks below it. -/
theorem entered_visible : ¬∀ (g : Geometry) (e : Env) (d : Dev) (L : ChunkMap), 1 < g.chunkGrpSize →
    MapRun g e d L → NamesOwner g d.toBlockDev L → NarrowInvisible g d L := by
  intro h
  have hmem : 6 ∈ oddGeometry.chunks := mem_chunks_iff.mpr (by decide)
  have hin := ((entered_run hmem).grouped.invisible_iff (entered_names 6)).mp
    (h oddGeometry okEnv _ _ (by rw [oddGeometry_groups]; decide) (entered_run hmem) (entered_names 6))
  exact absurd (hin 257 1 (by decide)).1 (by decide)

end Yaffs
