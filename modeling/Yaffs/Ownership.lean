import Yaffs.Writing
import Yaffs.Object

/-!
# Chunk ownership

Which object owns a chunk. `Own` relates the pages kept on a device to its object table :
a page is the header of its object or a data chunk the tree of its file leads to, and what
headers and trees name is there. The theorems on `Own` are about the table and the pages
alone; the steps of the core are made of them.
-/

namespace Yaffs

open Tally

variable {g : Geometry}

/-! ## Chunk groups -/

/-- The chunks of the device. -/
def Param.chunks (p : Param) : List ℕ :=
  List.range' (p.startBlock * p.chunksPerBlock) ((p.endBlock + 1 - p.startBlock) * p.chunksPerBlock)

theorem mem_chunks {c : ℕ} : c ∈ g.chunks ↔ c / g.chunksPerBlock ∈ g.blocks := by
  have hp := chunksPerBlock_pos (g := g)
  have hend := g.endBlock_gt
  have hsplit : g.startBlock * g.chunksPerBlock +
      (g.endBlock + 1 - g.startBlock) * g.chunksPerBlock = (g.endBlock + 1) * g.chunksPerBlock := by
    rw [← Nat.add_mul]
    congr 1
    omega
  rw [mem_blocks, Param.chunks, List.mem_range'_1, hsplit, Nat.le_div_iff_mul_le hp,
    ← Nat.div_lt_iff_lt_mul hp, Nat.lt_succ_iff]

theorem zero_not_mem_chunks : 0 ∉ g.chunks := by
  intro h
  have := pos_of_mem_blocks (mem_chunks.mp h)
  simp at this

theorem nodup_chunks : g.chunks.Nodup := by
  simp [Param.chunks, List.nodup_range']

theorem calcShiftsLoop_spec (n : ℕ) : ∀ (x extraBits shifts y : ℕ), x < 2 ^ (n + 1) →
    y < (x + 1) * 2 ^ shifts → (extraBits = 0 → y = x * 2 ^ shifts) →
    y ≤ 2 ^ calcShiftsLoop n x extraBits shifts := by
  have hend : ∀ x extraBits shifts y : ℕ, x ≤ 1 → y < (x + 1) * 2 ^ shifts →
      (extraBits = 0 → y = x * 2 ^ shifts) →
      y ≤ 2 ^ (if extraBits = 0 then shifts else shifts + 1) := by
    intro x extraBits shifts y hx hy hex
    have hle : x * 2 ^ shifts ≤ 1 * 2 ^ shifts := Nat.mul_le_mul_right _ hx
    split_ifs with h
    · rw [hex h]
      omega
    · rw [Nat.pow_succ]
      rw [Nat.add_mul] at hy
      omega
  induction n with
  | zero => exact fun x extraBits shifts y hx hy hex => hend x extraBits shifts y (by omega) hy hex
  | succ n ih =>
    intro x extraBits shifts y hx hy hex
    simp only [calcShiftsLoop]
    split_ifs with h1
    · exact hend x extraBits shifts y h1 hy hex |>.trans (by simp_all)
    · exact hend x extraBits shifts y h1 hy hex |>.trans (by simp_all)
    · have hpow : 2 ^ (shifts + 1) = 2 * 2 ^ shifts := by rw [Nat.pow_succ, Nat.mul_comm]
      refine ih _ _ _ y (by rw [Nat.pow_succ] at hx; omega) ?_ fun h0 => ?_
      · have : (x + 1) * 2 ^ shifts ≤ (x / 2 + 1) * 2 * 2 ^ shifts :=
          Nat.mul_le_mul_right _ (by omega)
        rw [hpow, ← Nat.mul_assoc]
        omega
      · have hx2 : x = x / 2 * 2 := by omega
        rw [hex (by omega), hpow, ← Nat.mul_assoc, ← hx2]

theorem le_two_pow_calcShiftsCeiling {x : ℕ} (hx : x < 2 ^ 32) : x ≤ 2 ^ calcShiftsCeiling x :=
  calcShiftsLoop_spec 32 x 0 0 x (by omega) (by omega) (by simp)

/-- A chunk number without its place in the group fits a tnode. -/
theorem groupOf_eq {c : ℕ} (hc : c ∈ g.chunks) : groupOf g c = c / g.chunkGrpSize := by
  have hp := chunksPerBlock_pos (g := g)
  have hlt : c < 2 ^ g.chunkNumberBits := by
    have hb := (mem_blocks.mp (mem_chunks.mp hc)).2
    have hmul : c < g.chunksPerBlock * (g.endBlock + 1) := by
      rw [Nat.mul_comm, ← Nat.div_lt_iff_lt_mul hp]
      omega
    have hceil := le_two_pow_calcShiftsCeiling
      (x := g.chunksPerBlock * (g.endBlock + 1)) (by have := g.chunks_lt; omega)
    have hmono : 2 ^ calcShiftsCeiling (g.chunksPerBlock * (g.endBlock + 1)) ≤
        2 ^ g.chunkNumberBits := by
      refine Nat.pow_le_pow_right (by omega) ?_
      unfold Param.chunkNumberBits
      dsimp only
      split_ifs <;> omega
    omega
  rw [groupOf, Nat.shiftRight_eq_div_pow, Param.chunkGrpSize, Nat.mod_eq_of_lt]
  rw [Nat.div_lt_iff_lt_mul (by positivity), ← Nat.pow_add]
  refine hlt.trans_le (Nat.pow_le_pow_right (by omega) ?_)
  unfold Param.chunkGrpBits
  omega

theorem chunkGrpSize_pos : 0 < g.chunkGrpSize := by
  unfold Param.chunkGrpSize
  positivity

theorem groupOf_ne_zero {c : ℕ} (hc : c ∈ g.chunks) : groupOf g c ≠ 0 := by
  have hp := chunksPerBlock_pos (g := g)
  have hb := (mem_blocks.mp (mem_chunks.mp hc)).1
  have hstart := g.startBlock_pos
  have hle : g.chunksPerBlock ≤ c := by
    have : 1 ≤ c / g.chunksPerBlock := by omega
    rw [Nat.le_div_iff_mul_le hp] at this
    omega
  rw [groupOf_eq hc]
  have := Nat.div_pos (g.chunkGrpSize_le.trans hle) chunkGrpSize_pos
  omega

/-- A chunk lies in its group. -/
theorem groupBase_groupOf {c : ℕ} (hc : c ∈ g.chunks) :
    groupBase g (groupOf g c) ≤ c ∧ c < groupBase g (groupOf g c) + g.chunkGrpSize := by
  rw [groupOf_eq hc, groupBase, Nat.shiftLeft_eq, ← Param.chunkGrpSize]
  have := Nat.div_add_mod' c g.chunkGrpSize
  have := Nat.mod_lt c (chunkGrpSize_pos (g := g))
  omega

theorem groupBase_eq_zero {v : ℕ} : groupBase g v = 0 ↔ v = 0 := by
  rw [groupBase, Nat.shiftLeft_eq]
  simp

/-! ## The invariant -/

/-- What the chunks of a device hold for its objects. -/
abbrev Pages : Type :=
  ℕ → Option Page

/-- The object a page belongs to, and the chunk of it. -/
def Page.key (p : Page) : ℕ × ℕ :=
  (p.tags.objId, p.tags.chunkId)

/-- A page with data of `o` counts one. -/
def dataWeight (o : ℕ) (p : Option Page) : ℤ :=
  if p.any fun p => p.tags.objId = o && p.tags.chunkId != 0 then 1 else 0

/-- Number of the data chunks of `o`. -/
def countData (g : Geometry) (K : Pages) (o : ℕ) : ℤ :=
  tally g.chunks (dataWeight o) K

/-- The chunk `c` with the page `p` belongs to the object `ob`. -/
structure PageOwned (g : Geometry) (ids : List ℕ) (ob : Obj) (c : ℕ) (p : Page) : Prop where
  mem : c ∈ g.chunks
  id : p.tags.objId ∈ ids
  notFreed : ob.deferredFree = false
  unmarked : p.tags.isDeleted = false
  hdr : p.tags.chunkId = 0 → ob.hdrChunk = c ∧ ∃ oh, p.data = .hdr oh
  data : p.tags.chunkId ≠ 0 → ob.variantType = .file ∧
    (∃ bs, p.data = .bytes bs ∧ bs.length = g.dataBytesPerChunk) ∧
    (ob.softDel = false → ob.file.entry p.tags.chunkId = groupOf g c)

/-- Pages and objects own each other. A file that has been soft deleted keeps its pages,
but its tree has let go of them. -/
structure Own (g : Geometry) (K : Pages) (ids : List ℕ) (obj : ℕ → Obj) : Prop where
  nodup : ids.Nodup
  ids_ne : ∀ o ∈ ids, o ≠ objectIdSummary
  page : ∀ c p, K c = some p → PageOwned g ids (obj p.tags.objId) c p
  unique : ∀ c c' p p', K c = some p → K c' = some p' → p.key = p'.key → c = c'
  hdr : ∀ o, (obj o).hdrChunk ≠ 0 → ∃ p, K (obj o).hdrChunk = some p ∧ p.key = (o, 0)
  entry : ∀ o k, (obj o).file.entry k ≠ 0 → k ≠ 0 ∧
    ∃ c p, K c = some p ∧ p.key = (o, k) ∧ groupOf g c = (obj o).file.entry k
  soft : ∀ o, (obj o).softDel = true → (obj o).deleted = true ∧ ∀ k, (obj o).file.entry k = 0
  count : ∀ o, (obj o).nDataChunks = countData g K o
  level : ∀ o, (obj o).file.topLevel ≤ tnodesMaxLevel

/-- The soft-deleted chunks : the data of the files that have been soft deleted. -/
def softOf (K : Pages) (obj : ℕ → Obj) (c : ℕ) : Bool :=
  (K c).any fun p => p.tags.chunkId != 0 && (obj p.tags.objId).softDel

/-- The two objects own the same. -/
structure Obj.SameOwner (ob ob' : Obj) : Prop where
  variantType : ob'.variantType = ob.variantType
  hdrChunk : ob'.hdrChunk = ob.hdrChunk
  nDataChunks : ob'.nDataChunks = ob.nDataChunks
  deferredFree : ob'.deferredFree = ob.deferredFree
  softDel : ob'.softDel = ob.softDel
  deleted : ob.deleted = true → ob'.deleted = true
  entry : ∀ k, ob'.file.entry k = ob.file.entry k
  level : ob.file.topLevel ≤ tnodesMaxLevel → ob'.file.topLevel ≤ tnodesMaxLevel

theorem Obj.SameOwner.refl (ob : Obj) : ob.SameOwner ob :=
  ⟨rfl, rfl, rfl, rfl, rfl, fun h => h, fun _ => rfl, fun h => h⟩

/-- The page `p` in chunk `c`, in place of the one in `prev`. -/
def replacePage (K : Pages) (prev c : ℕ) (p : Page) : Pages :=
  Function.update (Function.update K prev none) c (some p)

theorem softOf_congr {K : Pages} {obj obj' : ℕ → Obj}
    (h : ∀ o, (obj' o).softDel = (obj o).softDel) : softOf K obj' = softOf K obj := by
  funext c
  simp only [softOf, h]

theorem softOf_update {K : Pages} {obj : ℕ → Obj} {c : ℕ} {q : Option Page}
    (h : softOf K obj c = false)
    (hq : ∀ p, q = some p → p.tags.chunkId = 0 ∨ (obj p.tags.objId).softDel = false) :
    softOf (Function.update K c q) obj = softOf K obj := by
  funext c'
  by_cases hc : c' = c
  · subst hc
    rw [h]
    cases q with
    | none => simp [softOf]
    | some p => simpa [softOf, imp_iff_not_or] using hq p rfl
  · simp [softOf, hc]

theorem countData_update {K : Pages} {c : ℕ} (hc : c ∈ g.chunks) (q : Option Page) (o : ℕ) :
    countData g (Function.update K c q) o = countData g K o - dataWeight o (K c) + dataWeight o q :=
  tally_update nodup_chunks hc _ _ _

theorem dataWeight_of_key {p : Page} {o k : ℕ} (h : p.key = (o, k)) (o' : ℕ) :
    dataWeight o' (some p) = if o' = o ∧ k ≠ 0 then 1 else 0 := by
  obtain ⟨rfl, rfl⟩ := Prod.mk.inj h
  have hcomm : p.tags.objId = o' ↔ o' = p.tags.objId := eq_comm
  simp [dataWeight, hcomm]

@[simp] theorem dataWeight_none (o : ℕ) : dataWeight o none = 0 := rfl

theorem dataWeight_nonneg (o : ℕ) (p : Option Page) : 0 ≤ dataWeight o p := by
  unfold dataWeight
  split <;> omega

namespace Own

variable {K : Pages} {ids : List ℕ} {obj obj' : ℕ → Obj} {o k c prev : ℕ} {p : Page}

/-- A change of objects that leaves what they own. -/
theorem congr (h : Own g K ids obj) (hob : ∀ o, (obj o).SameOwner (obj' o)) : Own g K ids obj' where
  nodup := h.nodup
  ids_ne := h.ids_ne
  page c p hp := by
    have hq := h.page c p hp
    have hs := hob p.tags.objId
    refine ⟨hq.mem, hq.id, by rw [hs.deferredFree, hq.notFreed], hq.unmarked, ?_, ?_⟩
    · rw [hs.hdrChunk]
      exact hq.hdr
    · rw [hs.variantType, hs.softDel, hs.entry]
      exact hq.data
  unique := h.unique
  hdr o := by
    rw [(hob o).hdrChunk]
    exact h.hdr o
  entry o k := by
    rw [(hob o).entry]
    exact h.entry o k
  soft o hs := by
    rw [(hob o).softDel] at hs
    exact ⟨(hob o).deleted (h.soft o hs).1, fun k => ((hob o).entry k).trans ((h.soft o hs).2 k)⟩
  count o := by rw [(hob o).nDataChunks, h.count]
  level o := (hob o).level (h.level o)

theorem chunk_mem (h : Own g K ids obj) (hp : K c = some p) : c ∈ g.chunks :=
  (h.page c p hp).mem

theorem zero_none (h : Own g K ids obj) : K 0 = none := by
  by_contra hne
  obtain ⟨p, hp⟩ := Option.ne_none_iff_exists'.mp hne
  exact zero_not_mem_chunks (h.chunk_mem hp)

/-- The header of an object is the page with its key. -/
theorem hdr_iff (h : Own g K ids obj) (hc : c ≠ 0) :
    (obj o).hdrChunk = c ↔ ∃ p, K c = some p ∧ p.key = (o, 0) := by
  constructor
  · rintro rfl
    exact h.hdr o hc
  · rintro ⟨p, hp, hkey⟩
    obtain ⟨rfl, hk⟩ := Prod.mk.inj hkey
    exact ((h.page c p hp).hdr hk).1

/-- A page of an object that is soft deleted or is no header has another key. -/
theorem softOf_hdr (h : Own g K ids obj) (o : ℕ) : softOf K obj (obj o).hdrChunk = false := by
  by_cases h0 : (obj o).hdrChunk = 0
  · simp [softOf, h0, h.zero_none]
  · obtain ⟨p, hp, hkey⟩ := h.hdr o h0
    have hk : p.tags.chunkId = 0 := (Prod.mk.inj hkey).2
    simp [softOf, hp, hk]

theorem softOf_none (hc : K c = none) : softOf K obj c = false := by
  simp [softOf, hc]

/-- An object without a header and without data has no page. -/
theorem no_page (h : Own g K ids obj) (hh : (obj o).hdrChunk = 0) (hn : (obj o).nDataChunks ≤ 0)
    (hp : K c = some p) : p.tags.objId ≠ o := by
  rintro rfl
  have hown := h.page c p hp
  by_cases hk : p.tags.chunkId = 0
  · have h0 : c = 0 := (hown.hdr hk).1.symm.trans hh
    exact zero_not_mem_chunks (h0 ▸ hown.mem)
  · have hcnt := h.count p.tags.objId
    have h0 : countData g K p.tags.objId = 0 :=
      le_antisymm (by omega) (tally_nonneg fun c _ => dataWeight_nonneg _ _)
    have := tally_eq_zero (fun c _ => dataWeight_nonneg _ _) h0 c hown.mem
    rw [hp, dataWeight_of_key (p := p) rfl] at this
    simp [hk] at this

end Own

/-! ## Pages come and go -/

theorem replacePage_eq {K : Pages} {prev c : ℕ} {p : Page} (hne : c ≠ prev) :
    Function.update (Function.update K c (some p)) prev none = replacePage K prev c p := by
  rw [replacePage, Function.update_comm hne]

theorem replacePage_zero {K : Pages} {c : ℕ} {p : Page} (h0 : K 0 = none) :
    replacePage K 0 c p = Function.update K c (some p) := by
  rw [replacePage, ← h0, Function.update_eq_self]

theorem replacePage_self {K : Pages} {prev c : ℕ} {p : Page} : replacePage K prev c p c = some p := by
  simp [replacePage]

theorem replacePage_of_ne {K : Pages} {prev c c' : ℕ} {p : Page} (hc : c' ≠ c) (hp : c' ≠ prev) :
    replacePage K prev c p c' = K c' := by
  simp [replacePage, hc, hp]

/-- What a page can be after a replacement. -/
theorem replacePage_cases {K : Pages} {prev c c' : ℕ} {p q : Page}
    (h : replacePage K prev c p c' = some q) : c' = c ∧ q = p ∨ c' ≠ c ∧ c' ≠ prev ∧ K c' = some q := by
  unfold replacePage at h
  simp only [Function.update_apply] at h
  split_ifs at h with h1 h2
  · exact Or.inl ⟨h1, (Option.some.inj h).symm⟩
  · exact Or.inr ⟨h1, h2, h⟩

namespace Own

variable {K : Pages} {ids : List ℕ} {obj obj' : ℕ → Obj} {o k c prev : ℕ} {p q : Page}

/-- Keys stay unique when a page takes the place of the one with its key. -/
theorem unique_replace (h : Own g K ids obj) (hold : ∀ c' q, K c' = some q → q.key = p.key → c' = prev) :
    ∀ c₁ c₂ p₁ p₂, replacePage K prev c p c₁ = some p₁ → replacePage K prev c p c₂ = some p₂ →
      p₁.key = p₂.key → c₁ = c₂ := by
  intro c₁ c₂ p₁ p₂ h₁ h₂ hkey
  rcases replacePage_cases h₁ with ⟨rfl, rfl⟩ | ⟨-, hp₁, hq₁⟩ <;>
    rcases replacePage_cases h₂ with ⟨rfl, rfl⟩ | ⟨-, hp₂, hq₂⟩
  · rfl
  · exact absurd (hold _ _ hq₂ hkey.symm) hp₂
  · exact absurd (hold _ _ hq₁ hkey) hp₁
  · exact h.unique _ _ _ _ hq₁ hq₂ hkey

/-- A page of another key stays. -/
theorem replace_of_key (hc : K c = none) {c' : ℕ} (hq : K c' = some q)
    (hprev : ∀ q', K prev = some q' → q'.key ≠ q.key) : replacePage K prev c p c' = some q := by
  rw [replacePage_of_ne, hq]
  · rintro rfl
    simp [hc] at hq
  · rintro rfl
    exact hprev q hq rfl

theorem countData_replace (h : Own g K ids obj) (hc : K c = none) (hmem : c ∈ g.chunks) (o : ℕ) :
    countData g (replacePage K prev c p) o =
      countData g K o - dataWeight o (K prev) + dataWeight o (some p) := by
  have hnone : Function.update K prev none c = none := by
    rw [Function.update_apply]
    split_ifs
    · rfl
    · exact hc
  have hdrop : countData g (Function.update K prev none) o = countData g K o - dataWeight o (K prev) := by
    cases hq : K prev with
    | none =>
      rw [← hq, Function.update_eq_self, hq]
      simp
    | some q =>
      rw [countData_update (h.chunk_mem hq), hq]
      simp
  rw [replacePage, countData_update hmem, hnone, hdrop]
  simp

/-- A new header takes the place of the old one. -/
theorem putHdr (h : Own g K ids obj) (hc : K c = none) (hmem : c ∈ g.chunks) (hkey : p.key = (o, 0))
    (ho : o ∈ ids) (hd : (obj o).deferredFree = false) (hu : p.tags.isDeleted = false)
    (hdata : ∃ oh, p.data = .hdr oh) : Own g (replacePage K (obj o).hdrChunk c p) ids
      (Function.update obj o { obj o with hdrChunk := c }) := by
  obtain ⟨hpo, hpk⟩ := Prod.mk.inj hkey
  have hc0 : c ≠ 0 := fun h0 => zero_not_mem_chunks (h0 ▸ hmem)
  have hold : ∀ c' q, K c' = some q → q.key = p.key → c' = (obj o).hdrChunk := by
    intro c' q hq hqk
    have hq0 : c' ≠ 0 := by
      rintro rfl
      simp [h.zero_none] at hq
    exact ((h.hdr_iff hq0).mpr ⟨q, hq, hqk.trans hkey⟩).symm
  have hprev : ∀ q', K (obj o).hdrChunk = some q' → q'.key = (o, 0) := by
    intro q' hq'
    have hne : (obj o).hdrChunk ≠ 0 := by
      intro h0
      rw [h0, h.zero_none] at hq'
      simp at hq'
    obtain ⟨q, hq, hqk⟩ := h.hdr o hne
    rw [hq] at hq'
    exact Option.some.inj hq' ▸ hqk
  constructor
  · exact h.nodup
  · exact h.ids_ne
  · intro c' q hq
    rcases replacePage_cases hq with ⟨rfl, rfl⟩ | ⟨hne, hne', hq⟩
    · rw [hpo, Function.update_self]
      exact ⟨hmem, hpo ▸ ho, hd, hu, fun _ => ⟨rfl, hdata⟩, fun hk => absurd hpk hk⟩
    · have hown := h.page c' q hq
      by_cases hqo : q.tags.objId = o
      · rw [hqo] at hown ⊢
        rw [Function.update_self]
        refine ⟨hown.mem, hown.id, hown.notFreed, hown.unmarked, fun hk => ?_, hown.data⟩
        exact absurd (hold c' q hq (by rw [hkey, Page.key, hqo, hk])) hne'
      · rwa [Function.update_of_ne hqo]
  · exact h.unique_replace hold
  · intro o' ho'
    by_cases hoo : o' = o
    · subst hoo
      rw [Function.update_self]
      exact ⟨p, replacePage_self, hkey⟩
    · rw [Function.update_of_ne hoo] at ho' ⊢
      obtain ⟨q, hq, hqk⟩ := h.hdr o' ho'
      refine ⟨q, replace_of_key hc hq fun q' hq' => ?_, hqk⟩
      rw [hprev q' hq', hqk]
      exact fun heq => hoo (Prod.mk.inj heq).1.symm
  · intro o' k' he
    have he' : (obj o').file.entry k' ≠ 0 := by
      by_cases hoo : o' = o
      · subst hoo
        simpa using he
      · simpa [hoo] using he
    obtain ⟨hk, c', q, hq, hqk, hg⟩ := h.entry o' k' he'
    refine ⟨hk, c', q, replace_of_key hc hq fun q' hq' => ?_, hqk, ?_⟩
    · rw [hprev q' hq', hqk]
      exact fun heq => hk (Prod.mk.inj heq).2.symm
    · rw [hg]
      by_cases hoo : o' = o
      · subst hoo
        simp
      · simp [hoo]
  · intro o' hs
    by_cases hoo : o' = o
    · subst hoo
      simpa using h.soft o' (by simpa using hs)
    · simpa [hoo] using h.soft o' (by simpa [hoo] using hs)
  · intro o'
    have hzero : dataWeight o' (K (obj o).hdrChunk) = 0 := by
      cases hq : K (obj o).hdrChunk with
      | none => rfl
      | some q =>
        rw [dataWeight_of_key (hprev q hq)]
        simp
    rw [countData_replace h hc hmem, hzero, dataWeight_of_key hkey, ← h.count o']
    by_cases hoo : o' = o
    · subst hoo
      simp
    · simp [hoo]
  · intro o'
    by_cases hoo : o' = o
    · subst hoo
      simpa using h.level o'
    · simpa [hoo] using h.level o'

/-- A new data chunk takes the place of the old one, if there is one. -/
theorem putData (h : Own g K ids obj) (hc : K c = none) (hmem : c ∈ g.chunks) (hkey : p.key = (o, k))
    (hk : k ≠ 0) (ho : o ∈ ids) (hd : (obj o).deferredFree = false) (hu : p.tags.isDeleted = false)
    (hfile : (obj o).variantType = .file) (hsoft : (obj o).softDel = false)
    (hdata : ∃ bs, p.data = .bytes bs ∧ bs.length = g.dataBytesPerChunk)
    (hold : ∀ c' q, K c' = some q → q.key = (o, k) → c' = prev)
    (hprev : ∀ q, K prev = some q → q.key = (o, k)) {f : FileVar}
    (hf : ∀ k', f.entry k' = if k' = k then groupOf g c else (obj o).file.entry k')
    (hl : f.topLevel ≤ tnodesMaxLevel) {n : ℤ}
    (hn : n = (obj o).nDataChunks + if K prev = none then 1 else 0) :
    Own g (replacePage K prev c p) ids
      (Function.update obj o { obj o with file := f, nDataChunks := n }) := by
  obtain ⟨hpo, hpk⟩ := Prod.mk.inj hkey
  constructor
  · exact h.nodup
  · exact h.ids_ne
  · intro c' q hq
    rcases replacePage_cases hq with ⟨rfl, rfl⟩ | ⟨hne, hne', hq⟩
    · rw [hpo, Function.update_self]
      refine ⟨hmem, hpo ▸ ho, hd, hu, fun h0 => absurd (hpk.symm.trans h0) hk, fun _ => ⟨hfile, hdata, fun _ => ?_⟩⟩
      rw [hf, if_pos hpk]
    · have hown := h.page c' q hq
      by_cases hqo : q.tags.objId = o
      · rw [hqo] at hown ⊢
        rw [Function.update_self]
        refine ⟨hown.mem, hown.id, hown.notFreed, hown.unmarked, hown.hdr, fun hqk => ?_⟩
        obtain ⟨h1, h2, h3⟩ := hown.data hqk
        refine ⟨h1, h2, fun hs => ?_⟩
        have hkne : q.tags.chunkId ≠ k := fun hqk' => hne' (hold c' q hq (by rw [Page.key, hqo, hqk']))
        rw [hf, if_neg hkne]
        exact h3 hs
      · rwa [Function.update_of_ne hqo]
  · exact unique_replace h fun c' q hq hqk => hold c' q hq (hqk.trans hkey)
  · intro o' ho'
    have ho'' : (obj o').hdrChunk ≠ 0 := by
      by_cases hoo : o' = o
      · subst hoo
        simpa using ho'
      · simpa [hoo] using ho'
    have hsame : (Function.update obj o { obj o with file := f, nDataChunks := n } o').hdrChunk =
        (obj o').hdrChunk := by
      by_cases hoo : o' = o
      · subst hoo
        simp
      · simp [hoo]
    obtain ⟨q, hq, hqk⟩ := h.hdr o' ho''
    rw [hsame]
    refine ⟨q, replace_of_key hc hq fun q' hq' => ?_, hqk⟩
    rw [hprev q' hq', hqk]
    exact fun heq => hk (Prod.mk.inj heq).2
  · intro o' k' he
    by_cases hok : o' = o ∧ k' = k
    · obtain ⟨rfl, rfl⟩ := hok
      refine ⟨hk, c, p, replacePage_self, hkey, ?_⟩
      rw [Function.update_self, hf, if_pos rfl]
    · have hsame : (Function.update obj o { obj o with file := f, nDataChunks := n } o').file.entry k' =
          (obj o').file.entry k' := by
        by_cases hoo : o' = o
        · subst hoo
          rw [Function.update_self, hf, if_neg fun hkk => hok ⟨rfl, hkk⟩]
        · rw [Function.update_of_ne hoo]
      rw [hsame] at he ⊢
      obtain ⟨hk', c', q, hq, hqk, hg⟩ := h.entry o' k' he
      refine ⟨hk', c', q, replace_of_key hc hq fun q' hq' => ?_, hqk, hg⟩
      rw [hprev q' hq', hqk]
      exact fun heq => hok ⟨(Prod.mk.inj heq).1.symm, (Prod.mk.inj heq).2.symm⟩
  · intro o' hs
    by_cases hoo : o' = o
    · subst hoo
      simp [hsoft] at hs
    · simpa [hoo] using h.soft o' (by simpa [hoo] using hs)
  · intro o'
    have hw : dataWeight o' (K prev) = if o' = o ∧ K prev ≠ none then 1 else 0 := by
      cases hq : K prev with
      | none => simp
      | some q =>
        rw [dataWeight_of_key (hprev q hq)]
        simp [hk]
    rw [countData_replace h hc hmem, hw, dataWeight_of_key hkey]
    by_cases hoo : o' = o
    · subst hoo
      rw [Function.update_self, hn, ← h.count o']
      by_cases hq : K prev = none <;> simp [hq, hk]
    · rw [Function.update_of_ne hoo, h.count o']
      simp [hoo]
  · intro o'
    by_cases hoo : o' = o
    · subst hoo
      simpa using hl
    · simpa [hoo] using h.level o'

/-- A data chunk goes. -/
theorem dropData (h : Own g K ids obj) (hp : K c = some p) (hkey : p.key = (o, k)) (hk : k ≠ 0)
    {f : FileVar} (hf : ∀ k', f.entry k' = if k' = k then 0 else (obj o).file.entry k')
    (hl : f.topLevel ≤ tnodesMaxLevel) : Own g (Function.update K c none) ids
      (Function.update obj o { obj o with file := f, nDataChunks := (obj o).nDataChunks - 1 }) := by
  have hkeep : ∀ c' q, Function.update K c none c' = some q → c' ≠ c ∧ K c' = some q := by
    intro c' q hq
    by_cases hcc : c' = c
    · simp [hcc] at hq
    · exact ⟨hcc, by simpa [hcc] using hq⟩
  have hother : ∀ c' q, K c' = some q → q.key ≠ (o, k) → Function.update K c none c' = some q := by
    intro c' q hq hqk
    have hcc : c' ≠ c := by
      rintro rfl
      exact hqk (Option.some.inj (hq.symm.trans hp) ▸ hkey)
    rw [Function.update_of_ne hcc, hq]
  constructor
  · exact h.nodup
  · exact h.ids_ne
  · intro c' q hq
    obtain ⟨hcc, hq⟩ := hkeep c' q hq
    have hown := h.page c' q hq
    by_cases hqo : q.tags.objId = o
    · rw [hqo] at hown ⊢
      rw [Function.update_self]
      refine ⟨hown.mem, hown.id, hown.notFreed, hown.unmarked, hown.hdr, fun hqk => ?_⟩
      obtain ⟨h1, h2, h3⟩ := hown.data hqk
      refine ⟨h1, h2, fun hs => ?_⟩
      have hkne : q.tags.chunkId ≠ k := by
        intro hqk'
        exact hcc (h.unique _ _ _ _ hq hp (by rw [hkey, Page.key, hqo, hqk']))
      rw [hf, if_neg hkne]
      exact h3 hs
    · rwa [Function.update_of_ne hqo]
  · intro c₁ c₂ p₁ p₂ h₁ h₂
    exact h.unique _ _ _ _ (hkeep _ _ h₁).2 (hkeep _ _ h₂).2
  · intro o' ho'
    have hsame : (Function.update obj o { obj o with file := f, nDataChunks := (obj o).nDataChunks - 1 }
        o').hdrChunk = (obj o').hdrChunk := by
      by_cases hoo : o' = o
      · subst hoo
        simp
      · simp [hoo]
    rw [hsame] at ho' ⊢
    obtain ⟨q, hq, hqk⟩ := h.hdr o' ho'
    refine ⟨q, hother _ q hq ?_, hqk⟩
    rw [hqk]
    exact fun heq => hk (Prod.mk.inj heq).2.symm
  · intro o' k' he
    have hok : ¬(o' = o ∧ k' = k) := by
      rintro ⟨rfl, rfl⟩
      simp [hf] at he
    have hsame : (Function.update obj o { obj o with file := f, nDataChunks := (obj o).nDataChunks - 1 }
        o').file.entry k' = (obj o').file.entry k' := by
      by_cases hoo : o' = o
      · subst hoo
        rw [Function.update_self, hf, if_neg fun hkk => hok ⟨rfl, hkk⟩]
      · rw [Function.update_of_ne hoo]
    rw [hsame] at he ⊢
    obtain ⟨hk', c', q, hq, hqk, hg⟩ := h.entry o' k' he
    refine ⟨hk', c', q, hother _ q hq ?_, hqk, hg⟩
    rw [hqk]
    exact fun heq => hok ⟨(Prod.mk.inj heq).1, (Prod.mk.inj heq).2⟩
  · intro o' hs
    by_cases hoo : o' = o
    · subst hoo
      obtain ⟨h1, h2⟩ := h.soft o' (by simpa using hs)
      refine ⟨by simpa using h1, fun k' => ?_⟩
      rw [Function.update_self, hf, h2]
      simp
    · simpa [hoo] using h.soft o' (by simpa [hoo] using hs)
  · intro o'
    rw [countData_update (h.chunk_mem hp), hp, dataWeight_of_key hkey, ← h.count o']
    by_cases hoo : o' = o
    · subst hoo
      simp [hk]
    · simp [hoo]
  · intro o'
    by_cases hoo : o' = o
    · subst hoo
      simpa using hl
    · simpa [hoo] using h.level o'

/-- The header of an object goes. -/
theorem dropHdr (h : Own g K ids obj) (o : ℕ) : Own g (Function.update K (obj o).hdrChunk none) ids
    (Function.update obj o { obj o with hdrChunk := 0 }) := by
  have hkeep : ∀ c' q, Function.update K (obj o).hdrChunk none c' = some q →
      c' ≠ (obj o).hdrChunk ∧ K c' = some q := by
    intro c' q hq
    by_cases hcc : c' = (obj o).hdrChunk
    · simp [hcc] at hq
    · exact ⟨hcc, by simpa [hcc] using hq⟩
  have hold : ∀ q, K (obj o).hdrChunk = some q → q.key = (o, 0) := by
    intro q hq
    have hne : (obj o).hdrChunk ≠ 0 := by
      intro h0
      rw [h0, h.zero_none] at hq
      simp at hq
    obtain ⟨q', hq', hqk⟩ := h.hdr o hne
    rw [hq] at hq'
    exact Option.some.inj hq' ▸ hqk
  have hother : ∀ c' q, K c' = some q → q.key ≠ (o, 0) →
      Function.update K (obj o).hdrChunk none c' = some q := by
    intro c' q hq hqk
    have hcc : c' ≠ (obj o).hdrChunk := by
      rintro rfl
      exact hqk (hold q hq)
    rw [Function.update_of_ne hcc, hq]
  have hsame : ∀ o', (Function.update obj o { obj o with hdrChunk := 0 } o').file = (obj o').file ∧
      (Function.update obj o { obj o with hdrChunk := 0 } o').softDel = (obj o').softDel ∧
      (Function.update obj o { obj o with hdrChunk := 0 } o').deleted = (obj o').deleted ∧
      (Function.update obj o { obj o with hdrChunk := 0 } o').nDataChunks = (obj o').nDataChunks := by
    intro o'
    by_cases hoo : o' = o
    · subst hoo
      simp
    · simp [hoo]
  constructor
  · exact h.nodup
  · exact h.ids_ne
  · intro c' q hq
    obtain ⟨hcc, hq⟩ := hkeep c' q hq
    have hown := h.page c' q hq
    by_cases hqo : q.tags.objId = o
    · rw [hqo] at hown ⊢
      rw [Function.update_self]
      exact ⟨hown.mem, hown.id, hown.notFreed, hown.unmarked,
        fun hqk => absurd (hown.hdr hqk).1.symm hcc, hown.data⟩
    · rwa [Function.update_of_ne hqo]
  · intro c₁ c₂ p₁ p₂ h₁ h₂
    exact h.unique _ _ _ _ (hkeep _ _ h₁).2 (hkeep _ _ h₂).2
  · intro o' ho'
    have hoo : o' ≠ o := by
      rintro rfl
      simp at ho'
    rw [Function.update_of_ne hoo] at ho' ⊢
    obtain ⟨q, hq, hqk⟩ := h.hdr o' ho'
    refine ⟨q, hother _ q hq ?_, hqk⟩
    rw [hqk]
    exact fun heq => hoo (Prod.mk.inj heq).1
  · intro o' k' he
    rw [(hsame o').1] at he ⊢
    obtain ⟨hk', c', q, hq, hqk, hg⟩ := h.entry o' k' he
    refine ⟨hk', c', q, hother _ q hq ?_, hqk, hg⟩
    rw [hqk]
    exact fun heq => hk' (Prod.mk.inj heq).2
  · intro o' hs
    rw [(hsame o').2.1] at hs
    rw [(hsame o').1, (hsame o').2.2.1]
    exact h.soft o' hs
  · intro o'
    rw [(hsame o').2.2.2, h.count o']
    cases hq : K (obj o).hdrChunk with
    | none => rw [← hq, Function.update_eq_self]
    | some q =>
      rw [countData_update (h.chunk_mem hq), hq, dataWeight_of_key (hold q hq)]
      simp
  · intro o'
    rw [(hsame o').1]
    exact h.level o'

/-- The tree of a deleted file lets go of its chunks. -/
theorem softDelete (h : Own g K ids obj) (hd : (obj o).deleted = true) {f : FileVar}
    (hf : ∀ k, f.entry k = 0) (hl : f.topLevel ≤ tnodesMaxLevel) : Own g K ids
      (Function.update obj o { obj o with file := f, softDel := true }) := by
  have hsame : ∀ o', o' ≠ o →
      Function.update obj o { obj o with file := f, softDel := true } o' = obj o' :=
    fun o' hoo => Function.update_of_ne hoo _ _
  have hhdr : ∀ o', (Function.update obj o { obj o with file := f, softDel := true } o').hdrChunk =
        (obj o').hdrChunk ∧
      (Function.update obj o { obj o with file := f, softDel := true } o').nDataChunks =
        (obj o').nDataChunks := by
    intro o'
    by_cases hoo : o' = o
    · subst hoo
      simp
    · simp [hoo]
  constructor
  · exact h.nodup
  · exact h.ids_ne
  · intro c q hq
    have hown := h.page c q hq
    by_cases hqo : q.tags.objId = o
    · rw [hqo] at hown ⊢
      rw [Function.update_self]
      exact ⟨hown.mem, hown.id, hown.notFreed, hown.unmarked, hown.hdr,
        fun hqk => ⟨(hown.data hqk).1, (hown.data hqk).2.1, by simp⟩⟩
    · rwa [Function.update_of_ne hqo]
  · exact h.unique
  · intro o' ho'
    rw [(hhdr o').1] at ho' ⊢
    exact h.hdr o' ho'
  · intro o' k' he
    have hoo : o' ≠ o := by
      rintro rfl
      simp [hf] at he
    rw [hsame o' hoo] at he ⊢
    exact h.entry o' k' he
  · intro o' hs
    by_cases hoo : o' = o
    · subst hoo
      simpa using ⟨hd, hf⟩
    · rw [hsame o' hoo] at hs ⊢
      exact h.soft o' hs
  · intro o'
    rw [(hhdr o').2]
    exact h.count o'
  · intro o'
    by_cases hoo : o' = o
    · subst hoo
      simpa using hl
    · rw [hsame o' hoo]
      exact h.level o'

/-- An object without pages leaves the hash table. -/
theorem unhash (h : Own g K ids obj) (hno : ∀ c p, K c = some p → p.tags.objId ≠ o) :
    Own g K (ids.erase o) obj :=
  { h with
    nodup := h.nodup.erase o
    ids_ne := fun o' ho' => h.ids_ne o' (List.mem_of_mem_erase ho')
    page := fun c p hp =>
      { h.page c p hp with id := (List.mem_erase_of_ne (hno c p hp)).mpr (h.page c p hp).id } }

/-- The freeing of an object without pages is deferred. -/
theorem defer (h : Own g K ids obj) (hno : ∀ c p, K c = some p → p.tags.objId ≠ o) :
    Own g K ids (Function.update obj o { obj o with deferredFree := true }) := by
  have hsame : ∀ o', o' ≠ o →
      Function.update obj o { obj o with deferredFree := true } o' = obj o' :=
    fun o' hoo => Function.update_of_ne hoo _ _
  refine ⟨h.nodup, h.ids_ne, fun c p hp => ?_, h.unique, fun o' => ?_, fun o' k => ?_,
    fun o' => ?_, fun o' => ?_, fun o' => ?_⟩
  · rw [hsame _ (hno c p hp)]
    exact h.page c p hp
  all_goals by_cases hoo : o' = o
  · subst hoo
    simpa using h.hdr o'
  · rw [hsame o' hoo]
    exact h.hdr o'
  · subst hoo
    simpa using h.entry o' k
  · rw [hsame o' hoo]
    exact h.entry o' k
  · subst hoo
    simpa using h.soft o'
  · rw [hsame o' hoo]
    exact h.soft o'
  · subst hoo
    simpa using h.count o'
  · rw [hsame o' hoo]
    exact h.count o'
  · subst hoo
    simpa using h.level o'
  · rw [hsame o' hoo]
    exact h.level o'

/-- An object that owns nothing may become any other that owns nothing. -/
theorem reset (h : Own g K ids obj) (hno : ∀ c p, K c = some p → p.tags.objId ≠ o) {ob : Obj}
    (hh : ob.hdrChunk = 0) (hn : ob.nDataChunks = 0) (hf : ∀ k, ob.file.entry k = 0)
    (hl : ob.file.topLevel ≤ tnodesMaxLevel) (hs : ob.softDel = false) :
    Own g K ids (Function.update obj o ob) := by
  have hsame : ∀ o', o' ≠ o → Function.update obj o ob o' = obj o' :=
    fun o' hoo => Function.update_of_ne hoo _ _
  refine ⟨h.nodup, h.ids_ne, fun c p hp => ?_, h.unique, fun o' => ?_, fun o' k => ?_,
    fun o' => ?_, fun o' => ?_, fun o' => ?_⟩
  · rw [hsame _ (hno c p hp)]
    exact h.page c p hp
  all_goals by_cases hoo : o' = o
  · subst hoo
    simp [hh]
  · rw [hsame o' hoo]
    exact h.hdr o'
  · subst hoo
    simp [hf]
  · rw [hsame o' hoo]
    exact h.entry o' k
  · subst hoo
    simp [hs]
  · rw [hsame o' hoo]
    exact h.soft o'
  · subst hoo
    rw [Function.update_self, hn]
    refine (tally_zero fun c _ => ?_).symm
    cases hq : K c with
    | none => rfl
    | some q => simp [dataWeight, hno c q hq]
  · rw [hsame o' hoo]
    exact h.count o'
  · subst hoo
    simpa using hl
  · rw [hsame o' hoo]
    exact h.level o'

/-- A new number enters the hash table. -/
theorem hash (h : Own g K ids obj) (ho : o ∉ ids) (hne : o ≠ objectIdSummary) :
    Own g K (o :: ids) obj :=
  { h with
    nodup := List.nodup_cons.mpr ⟨ho, h.nodup⟩
    ids_ne := fun o' ho' => by
      rcases List.mem_cons.mp ho' with rfl | ho'
      · exact hne
      · exact h.ids_ne o' ho'
    page := fun c p hp => { h.page c p hp with id := List.mem_cons_of_mem o (h.page c p hp).id } }

/-- An object that is not in the hash table has no page. -/
theorem no_page_of_not_mem (h : Own g K ids obj) (ho : o ∉ ids) (hp : K c = some p) :
    p.tags.objId ≠ o := by
  rintro rfl
  exact ho (h.page c p hp).id

end Own

/-! ## Finding chunks -/

theorem kept_eq_some {d : BlockDev} {c : ℕ} {p : Page} : d.kept c = some p ↔
    d.chunkBits c = true ∧ d.nand.flash c = some p ∧ p.tags.objId ≠ objectIdSummary := by
  simp only [BlockDev.kept, BlockDev.live, Option.filter_eq_some_iff, decide_eq_true_eq]
  by_cases hc : d.chunkBits c <;> simp [hc]

/-- The search of a group ends with the first chunk that matches. -/
theorem findChunkInGroupLoop_eq {d : BlockDev} {o k c : ℕ} (hbit : d.chunkBits c = true)
    (hmatch : (d.nand.flash c).any fun p => tagsMatch p.tags o k) (n : ℕ) :
    ∀ c₀, c₀ ≠ 0 → c₀ ≤ c → c < c₀ + n →
      (∀ c', c₀ ≤ c' → c' ≤ c → d.chunkBits c' = true →
        (g.chunkGrpSize = 1 ∨ ((d.nand.flash c').any fun p => tagsMatch p.tags o k) = true) → c' = c) →
      findChunkInGroupLoop g d o k n c₀ = some c := by
  induction n with
  | zero => intro c₀ _ h1 h2; omega
  | succ n ih =>
    intro c₀ h0 h1 h2 huniq
    simp only [findChunkInGroupLoop, if_neg h0]
    have hstep : c₀ ≠ c → findChunkInGroupLoop g d o k n (c₀ + 1) = some c := fun hne =>
      ih (c₀ + 1) (by omega) (by omega) (by omega) fun c' h3 h4 => huniq c' (by omega) h4
    split_ifs with hb hsize hm
    · rw [huniq c₀ le_rfl h1 hb (Or.inl hsize)]
    · rw [huniq c₀ le_rfl h1 hb (Or.inr hm)]
    · refine hstep ?_
      rintro rfl
      exact hm hmatch
    · refine hstep ?_
      rintro rfl
      exact hb hbit

namespace Own

variable {d : BlockDev} {ids : List ℕ} {obj : ℕ → Obj} {o k c : ℕ} {p : Page}

/-- A page with the key is found in its group. -/
theorem findChunkInGroup_eq (h : Own g d.kept ids obj) (hp : d.kept c = some p)
    (hkey : p.key = (o, k)) : findChunkInGroup g d (groupBase g (groupOf g c)) o k = some c := by
  obtain ⟨hpo, hpk⟩ := Prod.mk.inj hkey
  have hown := h.page c p hp
  obtain ⟨hbit, hflash, hne⟩ := kept_eq_some.mp hp
  obtain ⟨hlo, hhi⟩ := groupBase_groupOf hown.mem
  refine findChunkInGroupLoop_eq hbit ?_ _ _ ?_ hlo hhi ?_
  · simp [hflash, tagsMatch, hpo, hpk, hown.unmarked]
  · exact fun h0 => groupOf_ne_zero hown.mem (groupBase_eq_zero.mp h0)
  · rintro c' h1 h2 hbit' (hsize | hm)
    · rw [hsize] at hhi
      omega
    · obtain ⟨q, hq, hm⟩ : ∃ q, d.nand.flash c' = some q ∧ tagsMatch q.tags o k = true := by
        cases hq : d.nand.flash c' with
        | none => simp [hq] at hm
        | some q => exact ⟨q, rfl, by simpa [hq] using hm⟩
      simp only [tagsMatch, Bool.and_eq_true, decide_eq_true_eq] at hm
      have hkept : d.kept c' = some q := kept_eq_some.mpr ⟨hbit', hq, by rw [hm.1.2, ← hpo]; exact hne⟩
      exact h.unique c' c q p hkept hp (by rw [hkey, Page.key, hm.1.1, hm.1.2])

end Own

/-- A file's chunk is found where its page is. -/
theorem findChunkInFile_eq_some {d : Dev} {o k c : ℕ} {p : Page} (h : Own g d.kept d.ids d.obj)
    (hp : d.kept c = some p) (hkey : p.key = (o, k)) (hk : k ≠ 0) (hs : (d.obj o).softDel = false) :
    findChunkInFile g d o k = some c := by
  obtain ⟨hpo, hpk⟩ := Prod.mk.inj hkey
  have hown := h.page c p hp
  have hentry := (hown.data (hpk.trans_ne hk)).2.2 (hpo ▸ hs)
  rw [hpo, hpk] at hentry
  have hfind : (d.obj o).file.find k = some (groupOf g c) := by
    have hne := groupOf_ne_zero hown.mem
    unfold FileVar.entry at hentry
    cases hf : (d.obj o).file.find k with
    | none => simp [hf] at hentry; omega
    | some v => simpa [hf] using hentry
  rw [findChunkInFile, hfind, Option.bind_some]
  exact h.findChunkInGroup_eq hp hkey

/-- Where a tree holds nothing, no chunk is found. -/
theorem findChunkInFile_eq_none {d : Dev} {o k : ℕ} (h : (d.obj o).file.entry k = 0) :
    findChunkInFile g d o k = none := by
  unfold findChunkInFile
  cases hf : (d.obj o).file.find k with
  | none => rfl
  | some v =>
    obtain rfl : v = 0 := by simpa [FileVar.entry, hf] using h
    rw [Option.bind_some, findChunkInGroup, groupBase_eq_zero.mpr rfl]
    cases g.chunkGrpSize <;> simp [findChunkInGroupLoop]

/-- Looking up a chunk of a file gives the page with its key, or the tree holds nothing. -/
theorem findChunkInFile_cases {d : Dev} (h : Own g d.kept d.ids d.obj) (o k : ℕ) :
    (∃ c p, findChunkInFile g d o k = some c ∧ d.kept c = some p ∧ p.key = (o, k) ∧ k ≠ 0 ∧
      (d.obj o).file.entry k = groupOf g c) ∨
    findChunkInFile g d o k = none ∧ (d.obj o).file.entry k = 0 := by
  by_cases he : (d.obj o).file.entry k = 0
  · exact Or.inr ⟨findChunkInFile_eq_none he, he⟩
  · obtain ⟨hk, c, p, hp, hkey, hg⟩ := h.entry o k he
    have hs : (d.obj o).softDel = false := by
      by_contra hs
      exact he ((h.soft o (by simpa using hs)).2 k)
    exact Or.inl ⟨c, p, findChunkInFile_eq_some h hp hkey hk hs, hp, hkey, hk, hg.symm⟩

end Yaffs
