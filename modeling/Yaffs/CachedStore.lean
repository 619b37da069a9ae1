import Yaffs.Entries
import Yaffs.FileStore

/-!
# Files behind the cache

A file store in front of which there is the cache : an entry holds what its chunk is to hold, and a chunk without
a dirty entry is on the flash as it is to be (`CachedStore`). Reads and writes through the cache, writes past it
(`CachedStore.fileRdChunk`, `CachedStore.wrChunk`), flushing and what the cache evicts in between keep to the store,
as long as no entry that is written back is lost for want of space or memory.
-/

namespace Yaffs

variable {g : Geometry} {e : Env} {m : FileStore} {d d' x : Dev} {o k i : ℕ}

/-! ## The flash under the cache -/

/-- The flash comes to hold `r`. No file comes or goes, and the cache loses entries of deleted files at most. -/
structure FlashStep (g : Geometry) (r : FileStore) (d d' : Dev) : Prop where
  settled : Settled g d'
  live : ∀ q, LiveFile d' q ↔ LiveFile d q
  soft : ∀ q, (d'.obj q).softDel = (d.obj q).softDel
  cache : List.Forall₂ (CacheKept [] d) d.cache d'.cache
  read : ∀ q j, LiveFile d q → j ≠ 0 → rdDataObj g q j d' = r q j

theorem collected_flash (h : Settled g d) {X : List (ℕ × ℕ)} (hcol : Collected g noTransit [] X d d')
    (hX : ∀ y ∈ X, y.2 = 0) : FlashStep g (flashStore g d) d d' := by
  have hstores := (stores_flash h).collected hcol hX
  refine ⟨hstores.settled, fun q => ⟨fun hq => ?_, hstores.live q⟩, fun q => hcol.frame.soft q (by simp),
    hcol.frame.cache, hstores.read⟩
  have hsoft := (hcol.frame.soft q (by simp)).symm.trans hq.notSoft
  have hattrs := (hcol.frame.same q (by simp) hsoft).attrs
  exact ⟨hcol.frame.ids q (by simp) hq.id, (Obj.deferredFree_eq hattrs).symm.trans hq.notFreed,
    (Obj.variantType_eq hattrs).symm.trans hq.isFile, hsoft⟩

theorem checkGc_flash (h : Settled g d) (background : Bool) :
    FlashStep g (flashStore g d) d (checkGc g e background d) :=
  collected_flash h (checkGc_collects notCollecting_noTransit background d h.inv h.clean) (by simp)

theorem SameTies.symm (h : SameTies d d') : SameTies d' d :=
  ⟨fun q => (h.obj q).symm, h.ids.symm, h.list.symm⟩

/-- A chunk of a file is written, behind a gc. -/
theorem wrDataObj_flash (h : Settled g d) (hlive : LiveFile d o) (hk : k ≠ 0) {data : List UInt8}
    (hlen : data.length = g.dataBytesPerChunk) (nBytes : ℕ) (useReserve : Bool) :
    FlashStep g (if chunkWritten (wrDataObj g e o k data nBytes useReserve d).2 then (flashStore g d).put o k data
      else flashStore g d) d (wrDataObj g e o k data nBytes useReserve d).1 := by
  have hgc := checkGc_flash (e := e) h false
  have hbehind : Stores g (LiveFile d) (flashStore g d) (checkGc g e false d) :=
    ⟨hgc.settled, fun q hq => (hgc.live q).mpr hq, hgc.read⟩
  have hwrite := hbehind.wrDataChunk (e := e) ((hgc.live o).mpr hlive) hk hlen nBytes useReserve
  have hties := wrDataChunk_sameTies (g := g) (e := e) o k data nBytes useReserve (checkGc g e false d)
  have hcache := wrDataChunk_cache (g := g) (e := e) o k data nBytes useReserve (checkGc g e false d)
  unfold wrDataObj
  generalize wrDataChunk g e o k data nBytes useReserve (checkGc g e false d) = r at *
  exact ⟨hwrite.settled, fun q => Iff.trans ⟨hties.symm.liveFile, hties.liveFile⟩ (hgc.live q),
    fun q => (hties.get Obj.softDel q).trans (hgc.soft q), hcache ▸ hgc.cache, hwrite.read⟩

/-! ## The store behind the cache -/

/-- The entries of the cache hold what their chunks are to hold. -/
structure CacheEntries (g : Geometry) (m : FileStore) (d : Dev) : Prop where
  settled : Settled g d
  length : d.cache.length = g.nCaches
  unique : ∀ (i j : ℕ) (c c' : Cache), d.cache[i]? = some c → d.cache[j]? = some c' → c.object.isSome →
    c.object = c'.object → c.chunkId = c'.chunkId → i = j
  /-- The entries of files that have been deleted are clean. -/
  owner : ∀ c ∈ d.cache, ∀ o, c.object = some o → LiveFile d o ∨ (d.obj o).softDel = true ∧ c.dirty = false
  entry : ∀ c ∈ d.cache, ∀ o, c.object = some o → LiveFile d o →
    c.chunkId ≠ 0 ∧ c.data.length = g.dataBytesPerChunk ∧ c.data = m o c.chunkId

/-- The cache and the flash hold what the chunks of files are to hold. -/
structure CachedStore (g : Geometry) (m : FileStore) (d : Dev) : Prop extends CacheEntries g m d where
  rest : ∀ o k, LiveFile d o → k ≠ 0 →
    (∀ c ∈ d.cache, c.object = some o → c.chunkId = k → c.dirty = false) → rdDataObj g o k d = m o k

theorem forall₂_mem_left {α : Type} {R : α → α → Prop} {l l' : List α} (h : List.Forall₂ R l l') {a : α}
    (ha : a ∈ l) : ∃ b ∈ l', R a b :=
  forall₂_mem h.flip ha

theorem CacheKept.live {c c' : Cache} (h : CacheKept [] d c c') (hc : c.object = some o) (hlive : LiveFile d o) :
    c' = c := by
  refine h.resolve_right ?_
  rintro ⟨q, hq, hs, -⟩
  obtain rfl := Option.some.inj (hc.symm.trans hq)
  exact absurd (hlive.notSoft.symm.trans (hs.resolve_right (by simp))) (by simp)

/-- The flash changes under the cache. -/
theorem CacheEntries.flash (h : CacheEntries g m d) {r : FileStore} (hstep : FlashStep g r d d') :
    CacheEntries g m d' where
  settled := hstep.settled
  length := hstep.cache.length_eq.symm.trans h.length
  unique i j c c' hi hj hsome hobj hchunk := by
    obtain ⟨b, hb, rfl | ⟨-, -, -, rfl⟩⟩ := forall₂_getElem? hstep.cache hi
    · obtain ⟨b', hb', rfl | ⟨-, -, -, rfl⟩⟩ := forall₂_getElem? hstep.cache hj
      · exact h.unique i j _ _ hb hb' hsome hobj hchunk
      · rw [hobj] at hsome
        simp at hsome
    · simp at hsome
  owner c hc o ho := by
    obtain ⟨b, hb, rfl | ⟨-, -, -, rfl⟩⟩ := forall₂_mem hstep.cache hc
    · rw [hstep.live, hstep.soft]
      exact h.owner _ hb o ho
    · simp at ho
  entry c hc o ho hlive := by
    obtain ⟨b, hb, rfl | ⟨-, -, -, rfl⟩⟩ := forall₂_mem hstep.cache hc
    · exact h.entry _ hb o ho ((hstep.live o).mp hlive)
    · simp at ho

/-- The entries but one are of other chunks. -/
theorem CacheEntries.others (h : CacheEntries g m d) {c : Cache} (hc : d.cache[i]? = some c) (ho : c.object = some o)
    {j q : ℕ} {b : Cache} (hji : j ≠ i) (hb : d.cache[j]? = some b) (hq : b.object = some q) :
    (q, b.chunkId) ≠ (o, c.chunkId) := by
  intro hsame
  obtain ⟨rfl, hbk⟩ := Prod.mk.inj hsame
  exact hji (h.unique j i b c hb hc (by simp [hq]) (hq.trans ho.symm) hbk)

/-- An entry of a file stays. -/
theorem FlashStep.entry {r : FileStore} (hstep : FlashStep g r d d') {c : Cache} (hc : d.cache[i]? = some c)
    (ho : c.object = some o) (hlive : LiveFile d o) : d'.cache[i]? = some c := by
  have hlt : i < d'.cache.length := hstep.cache.length_eq ▸ (List.getElem?_eq_some_iff.mp hc).1
  obtain ⟨b, hb, hkept⟩ := forall₂_getElem? hstep.cache (List.getElem?_eq_getElem hlt)
  obtain rfl := Option.some.inj (hc.symm.trans hb)
  rw [List.getElem?_eq_getElem hlt, hkept.live ho hlive]

namespace CachedStore

/-- A chunk is on the flash as it is to be, if neither the entry `i` is dirty for it nor any other entry. -/
theorem rest_but (h : CachedStore g m d) {c : Cache} (hc : d.cache[i]? = some c) (hlive : LiveFile d o) (hk : k ≠ 0)
    (hself : c.object = some o → c.chunkId = k → c.dirty = false)
    (hothers : ∀ (j : ℕ) (b : Cache), j ≠ i → d.cache[j]? = some b → b.object = some o → b.chunkId = k →
      b.dirty = false) : rdDataObj g o k d = m o k := by
  refine h.rest o k hlive hk fun b hb ho hbk => ?_
  obtain ⟨j, hj⟩ := List.getElem?_of_mem hb
  by_cases hji : j = i
  · subst hji
    obtain rfl := Option.some.inj (hc.symm.trans hj)
    exact hself ho hbk
  · exact hothers j b hji hj ho hbk

/-- The flash changes under the cache to what it is to hold. -/
theorem flash (h : CachedStore g m d) {r : FileStore} (hstep : FlashStep g r d d')
    (hread : ∀ o k, LiveFile d o → k ≠ 0 → r o k = rdDataObj g o k d ∨ r o k = m o k) : CachedStore g m d' := by
  refine ⟨h.toCacheEntries.flash hstep, fun o k hlive hk hclean => ?_⟩
  have hold := (hstep.live o).mp hlive
  rw [hstep.read o k hold hk]
  refine (hread o k hold hk).elim (fun heq => heq.trans (h.rest o k hold hk fun c hc ho hck => ?_)) id
  obtain ⟨c', hc', hkept⟩ := forall₂_mem_left hstep.cache hc
  obtain rfl := hkept.live ho hold
  exact hclean _ hc' ho hck

theorem collected (h : CachedStore g m d) {X : List (ℕ × ℕ)} (hcol : Collected g noTransit [] X d d')
    (hX : ∀ y ∈ X, y.2 = 0) : CachedStore g m d' :=
  h.flash (collected_flash h.settled hcol hX) fun _ _ _ _ => Or.inl rfl

/-- A chunk is as long as chunks are. -/
theorem store_length (h : CachedStore g m d) (hlive : LiveFile d o) (hk : k ≠ 0) :
    (m o k).length = g.dataBytesPerChunk := by
  by_cases hclean : ∀ c ∈ d.cache, c.object = some o → c.chunkId = k → c.dirty = false
  · rw [← h.rest o k hlive hk hclean]
    rcases rdDataObj_cases h.settled.inv.own hk hlive.notSoft with ⟨c, p, hp, hkey, hbytes⟩ | ⟨-, hzero⟩
    · obtain ⟨bs, hbs, hlen⟩ := ((h.settled.inv.own.page c p hp).data ((Prod.mk.inj hkey).2.trans_ne hk)).2.1
      rw [hbs] at hbytes
      rw [← PageData.bytes.inj hbytes]
      exact hlen
    · rw [hzero]
      exact List.length_replicate ..
  · simp only [not_forall] at hclean
    obtain ⟨c, hc, ho, rfl, -⟩ := hclean
    obtain ⟨-, hlen, hdata⟩ := h.entry c hc o ho hlive
    rw [← hdata]
    exact hlen

/-- The chunk of an entry is written back. -/
theorem writeBack (h : CachedStore g m d) (hlive : LiveFile d o) (hk : k ≠ 0) (nBytes : ℕ) (useReserve : Bool) :
    CachedStore g m (wrDataObj g e o k (m o k) nBytes useReserve d).1 ∧
      (chunkWritten (wrDataObj g e o k (m o k) nBytes useReserve d).2 = true →
        rdDataObj g o k (wrDataObj g e o k (m o k) nBytes useReserve d).1 = m o k) := by
  have hstep := wrDataObj_flash (e := e) h.settled hlive hk (h.store_length hlive hk) nBytes useReserve
  refine ⟨h.flash hstep fun q j _ _ => ?_, fun hw => ?_⟩
  · split_ifs
    · unfold FileStore.put
      split_ifs with hsame
      · obtain ⟨rfl, rfl⟩ := Prod.mk.inj hsame
        exact Or.inr rfl
      · exact Or.inl rfl
    · exact Or.inl rfl
  · rw [hstep.read o k hlive hk, if_pos hw]
    exact if_pos rfl

end CachedStore

/-! ## Entries -/

theorem modCache_get {c : Cache} {f : Cache → Cache} (hc : d.cache[i]? = some c) (j : ℕ) :
    (d.modCache i f).cache[j]? = if j = i then some (f c) else d.cache[j]? := by
  unfold Dev.modCache
  rw [List.getElem?_modify]
  by_cases hj : j = i
  · subst hj
    simp [hc]
  · simp [hj, Ne.symm hj]

/-- Nothing changes but the cache. -/
def CacheOnly (d x : Dev) : Prop :=
  x = { d with cache := x.cache, cacheLastUse := x.cacheLastUse }

theorem CacheOnly.settled (h : CacheOnly d x) (hd : Settled g d) : Settled g x := by
  rw [h]
  exact ⟨⟨hd.inv.acc, hd.inv.own⟩, hd.clean⟩

theorem CacheOnly.live (h : CacheOnly d x) (q : ℕ) : LiveFile x q ↔ LiveFile d q := by
  rw [h]
  exact ⟨fun hq => ⟨hq.id, hq.notFreed, hq.isFile, hq.notSoft⟩, fun hq => ⟨hq.id, hq.notFreed, hq.isFile, hq.notSoft⟩⟩

theorem CacheOnly.read (h : CacheOnly d x) (q j : ℕ) : rdDataObj g q j x = rdDataObj g q j d := by
  rw [h]
  rfl

theorem CacheOnly.obj (h : CacheOnly d x) : x.obj = d.obj := by
  rw [h]

theorem modCache_only (d : Dev) (i : ℕ) (f : Cache → Cache) : CacheOnly d (d.modCache i f) :=
  rfl

/-- What is not said of entries that go on. -/
def Cache.SameCore (c c' : Cache) : Prop :=
  c'.object = c.object ∧ c'.chunkId = c.chunkId ∧ c'.dirty = c.dirty ∧ c'.data = c.data

/-- One entry changes, and with it what its chunk is to hold. -/
theorem CacheEntries.modCache (h : CacheEntries g m d) {m' : FileStore} {c : Cache} {f : Cache → Cache}
    (hc : d.cache[i]? = some c)
    (hnew : ∀ o, (f c).object = some o → LiveFile d o ∧ (f c).chunkId ≠ 0 ∧
      (f c).data.length = g.dataBytesPerChunk ∧ (f c).data = m' o (f c).chunkId)
    (huniq : ∀ o, (f c).object = some o → ∀ (j : ℕ) (b : Cache), j ≠ i → d.cache[j]? = some b → b.object = some o →
      b.chunkId ≠ (f c).chunkId)
    (hother : ∀ (j : ℕ) (b : Cache) (o : ℕ), j ≠ i → d.cache[j]? = some b → b.object = some o → LiveFile d o →
      m' o b.chunkId = m o b.chunkId)
    (hrest : ∀ o k, LiveFile d o → k ≠ 0 → ((f c).object = some o → (f c).chunkId = k → (f c).dirty = false) →
      (∀ (j : ℕ) (b : Cache), j ≠ i → d.cache[j]? = some b → b.object = some o → b.chunkId = k → b.dirty = false) →
      rdDataObj g o k d = m' o k) : CachedStore g m' (d.modCache i f) := by
  have hget := fun j => modCache_get (f := f) hc j
  have hmem : ∀ b ∈ (d.modCache i f).cache, b = f c ∨ ∃ j, j ≠ i ∧ d.cache[j]? = some b := by
    intro b hb
    obtain ⟨j, hj⟩ := List.getElem?_of_mem hb
    rw [hget] at hj
    split_ifs at hj with hji
    · exact Or.inl (Option.some.inj hj).symm
    · exact Or.inr ⟨j, hji, hj⟩
  have honly := modCache_only d i f
  refine ⟨⟨honly.settled h.settled, ?_, fun j j' b b' hj hj' hsome hobj hchunk => ?_, fun b hb q hq => ?_,
    fun b hb q hq hlive => ?_⟩, fun q j hlive hj hclean => ?_⟩
  · rw [← h.length]
    simp [Dev.modCache]
  · rw [hget] at hj hj'
    obtain ⟨q, hq⟩ := Option.isSome_iff_exists.mp hsome
    split_ifs at hj hj' with h1 h2
    · rw [h1, h2]
    · obtain rfl := Option.some.inj hj
      exact absurd hchunk.symm (huniq q hq j' b' h2 hj' (hobj.symm.trans hq))
    · obtain rfl := Option.some.inj hj'
      exact absurd hchunk (huniq q (hobj.symm.trans hq) j b h1 hj hq)
    · exact h.unique j j' b b' hj hj' hsome hobj hchunk
  · rw [honly.live]
    rcases hmem b hb with rfl | ⟨j, -, hj⟩
    · exact Or.inl (hnew q hq).1
    · exact h.owner b (List.mem_of_getElem? hj) q hq
  · rw [honly.live] at hlive
    rcases hmem b hb with rfl | ⟨j, hji, hj⟩
    · exact (hnew q hq).2
    · rw [hother j b q hji hj hq hlive]
      exact h.entry b (List.mem_of_getElem? hj) q hq hlive
  · rw [honly.live] at hlive
    rw [honly.read]
    refine hrest q j hlive hj ?_ fun n b hni hn => hclean b (List.mem_of_getElem? (i := n) ?_)
    · exact hclean (f c) (List.mem_of_getElem? (i := i) (by rw [hget, if_pos rfl]))
    · rw [hget, if_neg hni]
      exact hn

namespace CachedStore

/-- Entries are used, and stay what they are. -/
theorem sameCore (h : CachedStore g m d) (hx : CacheOnly d x) (hcore : List.Forall₂ Cache.SameCore d.cache x.cache) :
    CachedStore g m x where
  settled := hx.settled h.settled
  length := hcore.length_eq.symm.trans h.length
  unique i j c c' hi hj hsome hobj hchunk := by
    obtain ⟨b, hb, h1, h2, -⟩ := forall₂_getElem? hcore hi
    obtain ⟨b', hb', h1', h2', -⟩ := forall₂_getElem? hcore hj
    exact h.unique i j b b' hb hb' (h1 ▸ hsome) (h1.symm.trans (hobj.trans h1')) (h2.symm.trans (hchunk.trans h2'))
  owner c hc o ho := by
    obtain ⟨b, hb, h1, -, h3, -⟩ := forall₂_mem hcore hc
    rw [hx.live, hx.obj, h3]
    exact h.owner b hb o (h1.symm.trans ho)
  entry c hc o ho hlive := by
    obtain ⟨b, hb, h1, h2, -, h4⟩ := forall₂_mem hcore hc
    rw [h2, h4]
    exact h.entry b hb o (h1.symm.trans ho) ((hx.live o).mp hlive)
  rest o k hlive hk hclean := by
    rw [hx.read]
    refine h.rest o k ((hx.live o).mp hlive) hk fun c hc ho hck => ?_
    obtain ⟨b, hb, h1, h2, h3, -⟩ := forall₂_mem_left hcore hc
    exact h3.symm.trans (hclean b hb (h1.trans ho) (h2.trans hck))

end CachedStore

/-! ## Flushing -/

/-- If the entry `i` is written back, it is written. -/
def FlushWrites (g : Geometry) (e : Env) (i : ℕ) (d : Dev) : Prop :=
  ∀ c ∈ d.cache[i]?, ∀ o ∈ c.object, c.dirty = true →
    chunkWritten (wrDataObj g e o c.chunkId c.data c.nBytes true d).2 = true

instance (i : ℕ) (d : Dev) : Decidable (FlushWrites g e i d) :=
  inferInstanceAs (Decidable (∀ c ∈ d.cache[i]?, ∀ o ∈ c.object, c.dirty = true →
    chunkWritten (wrDataObj g e o c.chunkId c.data c.nBytes true d).2 = true))

/-- The entries of `d'` are those of `d`, or of nothing. -/
def KeysFrom (d d' : Dev) : Prop :=
  ∀ c' ∈ d'.cache, ∀ q, c'.object = some q → ∃ c ∈ d.cache, c.object = some q ∧ c.chunkId = c'.chunkId

theorem KeysFrom.refl (d : Dev) : KeysFrom d d :=
  fun c hc _ hq => ⟨c, hc, hq, rfl⟩

theorem KeysFrom.trans {d'' : Dev} (h : KeysFrom d d') (h' : KeysFrom d' d'') : KeysFrom d d'' := by
  intro c'' hc'' q hq
  obtain ⟨c', hc', hq', hk'⟩ := h' c'' hc'' q hq
  obtain ⟨c, hc, hq, hk⟩ := h c' hc' q hq'
  exact ⟨c, hc, hq, hk.trans hk'⟩

theorem FlashStep.keysFrom {r : FileStore} (h : FlashStep g r d d') : KeysFrom d d' := by
  intro c' hc' q hq
  obtain ⟨c, hc, rfl | ⟨-, -, -, rfl⟩⟩ := forall₂_mem h.cache hc'
  · exact ⟨_, hc, hq, rfl⟩
  · simp at hq

/-- An entry keeps its key, or loses it. -/
theorem KeysFrom.modCache {f : Cache → Cache}
    (hf : ∀ c, (f c).object = none ∨ (f c).object = c.object ∧ (f c).chunkId = c.chunkId) :
    KeysFrom d (d.modCache i f) := by
  intro c' hc' q hq
  obtain ⟨j, hj⟩ := List.getElem?_of_mem hc'
  rw [Dev.modCache, List.getElem?_modify] at hj
  obtain ⟨c, hc, rfl⟩ := Option.map_eq_some_iff.mp hj
  refine ⟨c, List.mem_of_getElem? hc, ?_⟩
  by_cases hij : i = j
  · simp only [hij, if_true] at hq ⊢
    rcases hf c with hnone | ⟨hobj, hchunk⟩
    · rw [hnone] at hq
      simp at hq
    · exact ⟨hobj.symm.trans hq, hchunk.symm⟩
  · simp only [if_neg hij] at hq ⊢
    exact ⟨hq, trivial⟩

/-- The store goes on, with the files it had and with no entry for another chunk. -/
structure Flushes (g : Geometry) (m : FileStore) (d d' : Dev) : Prop where
  store : CachedStore g m d'
  live : ∀ q, LiveFile d' q ↔ LiveFile d q
  keys : KeysFrom d d'

/-- The store goes on, with the files it had. -/
structure Serves (g : Geometry) (m : FileStore) (d d' : Dev) : Prop where
  store : CachedStore g m d'
  live : ∀ q, LiveFile d' q ↔ LiveFile d q

theorem Serves.refl (h : CachedStore g m d) : Serves g m d d :=
  ⟨h, fun _ => Iff.rfl⟩

theorem Serves.trans {m' : FileStore} {d'' : Dev} (h : Serves g m d d') (h' : Serves g m' d' d'') :
    Serves g m' d d'' :=
  ⟨h'.store, fun q => (h'.live q).trans (h.live q)⟩

theorem Flushes.serves (h : Flushes g m d d') : Serves g m d d' :=
  ⟨h.store, h.live⟩

theorem Flushes.refl (h : CachedStore g m d) : Flushes g m d d :=
  ⟨h, fun _ => Iff.rfl, KeysFrom.refl d⟩

theorem Flushes.trans {m' : FileStore} {d'' : Dev} (h : Flushes g m d d') (h' : Flushes g m' d' d'') :
    Flushes g m' d d'' :=
  ⟨h'.store, fun q => (h'.live q).trans (h.live q), h.keys.trans h'.keys⟩

namespace CachedStore

/-- An entry that is not in use is dropped. -/
theorem dropFree (h : CachedStore g m d) {c : Cache} (hc : d.cache[i]? = some c)
    (hclean : c.object = none ∨ c.dirty = false) :
    Flushes g m d (d.modCache i fun c => { c with object := none }) := by
  refine ⟨h.modCache hc (by simp) (by simp) (fun _ _ _ _ _ _ _ => rfl) fun o k hlive hk _ hrest => ?_,
    (modCache_only d i _).live, KeysFrom.modCache fun _ => Or.inl rfl⟩
  exact h.rest_but hc hlive hk (fun ho _ => hclean.resolve_left (by simp [ho])) hrest

/-- An entry whose chunk is on the flash is clean. -/
theorem cleanEntry (h : CachedStore g m d) {c : Cache} (hc : d.cache[i]? = some c) (hlive : LiveFile d o)
    (ho : c.object = some o) (hread : rdDataObj g o c.chunkId d = m o c.chunkId) :
    Flushes g m d (d.modCache i fun c => { c with dirty := false }) := by
  refine ⟨h.modCache hc (fun q hq => ?_) (fun q hq j b hji hj hbq hbk => ?_) (fun _ _ _ _ _ _ _ => rfl)
    fun q k hq hk _ hrest => ?_, (modCache_only d i _).live, KeysFrom.modCache fun _ => Or.inr ⟨rfl, rfl⟩⟩
  · obtain rfl := Option.some.inj (ho.symm.trans hq)
    exact ⟨hlive, h.entry c (List.mem_of_getElem? hc) o ho hlive⟩
  · exact hji (h.unique j i b c hj hc (by simp [hbq]) (hbq.trans hq.symm) hbk)
  · by_cases hsame : q = o ∧ k = c.chunkId
    · rw [hsame.1, hsame.2]
      exact hread
    · refine h.rest_but hc hq hk (fun hbq hbk => ?_) hrest
      exact absurd ⟨Option.some.inj (hbq.symm.trans ho), hbk.symm⟩ hsame

/-- An entry is written back if it is dirty, and dropped if it is to be. -/
theorem flushSingleCache (h : CachedStore g m d) (i : ℕ) (discard : Bool) (hw : FlushWrites g e i d) :
    Flushes g m d (flushSingleCache g e i discard d) ∧
      (discard = true → ∀ c, (Yaffs.flushSingleCache g e i discard d).cache[i]? = some c → c.object = none) := by
  have hdiscard : ∀ y : Dev, (Flushes g m d y ∧ ∀ c, y.cache[i]? = some c → c.object = none ∨ c.dirty = false) →
      Flushes g m d (if discard then y.modCache i fun c => { c with object := none } else y) ∧
        (discard = true → ∀ c, (if discard then y.modCache i fun c => { c with object := none } else y).cache[i]? =
          some c → c.object = none) := by
    rintro y ⟨hy, hclean⟩
    cases discard with
    | false => exact ⟨hy, by simp⟩
    | true =>
      simp only [if_true]
      refine ⟨?_, fun _ c hc => ?_⟩
      · cases hget : y.cache[i]? with
        | none =>
          have hsame : (y.modCache i fun c => { c with object := none }) = y := by
            unfold Dev.modCache
            rw [List.modify_eq_self (by simpa using hget)]
          rw [hsame]
          exact hy
        | some c => exact hy.trans (hy.store.dropFree hget (hclean c hget))
      · rw [modCache_getElem?] at hc
        obtain ⟨b, -, rfl⟩ := Option.map_eq_some_iff.mp hc
        rfl
  unfold Yaffs.flushSingleCache
  simp only
  refine hdiscard _ ?_
  split
  · next o k u nBytes data hc =>
    have hmem := List.mem_of_getElem? hc
    have hlive : LiveFile d o := (h.owner _ hmem o rfl).resolve_right (by simp)
    obtain ⟨hk, -, hdata⟩ := h.entry _ hmem o rfl hlive
    obtain rfl : data = m o k := hdata
    have hwritten := hw _ hc o rfl rfl
    obtain ⟨hstore, hread⟩ := h.writeBack (e := e) hlive hk nBytes true
    have hstep := wrDataObj_flash (e := e) h.settled hlive hk (h.store_length hlive hk) nBytes true
    have hserves : Flushes g m d (wrDataObj g e o k (m o k) nBytes true d).1 := ⟨hstore, hstep.live, hstep.keysFrom⟩
    have hlive' := (hstep.live o).mpr hlive
    have hread := hread hwritten
    have hstays := hstep.entry hc rfl hlive
    generalize (wrDataObj g e o k (m o k) nBytes true d).1 = y at *
    refine ⟨hserves.trans (hstore.cleanEntry hstays hlive' rfl hread), fun b hb => Or.inr ?_⟩
    rw [modCache_getElem?] at hb
    obtain ⟨b', -, rfl⟩ := Option.map_eq_some_iff.mp hb
    rfl
  · next hno =>
    refine ⟨Flushes.refl h, fun c hc => ?_⟩
    obtain ⟨ob, k, use, dirty, nBytes, data⟩ := c
    cases ob with
    | none => exact Or.inl rfl
    | some o =>
      cases dirty with
      | false => exact Or.inr rfl
      | true => exact absurd hc (hno o k use nBytes data)

end CachedStore

/-- What `yaffs_flush_file_cache` writes back of the entries `is` is written. -/
def FlushFileWrites (g : Geometry) (e : Env) (o : ℕ) (discard : Bool) : List ℕ → Dev → Prop
  | [], _ => True
  | i :: is, d => (((d.cache[i]?).any fun c => c.object = some o) = true → FlushWrites g e i d) ∧
    FlushFileWrites g e o discard is (flushFileCacheStep g e o discard d i)

/-- What `yaffs_flush_whole_cache` writes back is written. -/
def FlushWholeWrites (g : Geometry) (e : Env) (discard : Bool) : ℕ → Dev → Prop
  | 0, _ => True
  | n + 1, d => ∀ o ∈ firstDirtyObj d, FlushFileWrites g e o discard (List.range g.nCaches) d ∧
    FlushWholeWrites g e discard n (flushFileCache g e o discard d)

instance decideFlushFileWrites {discard : Bool} : ∀ (is : List ℕ) (d : Dev),
    Decidable (FlushFileWrites g e o discard is d)
  | [], _ => inferInstanceAs (Decidable True)
  | i :: is, d =>
    @instDecidableAnd _ _ (inferInstanceAs (Decidable (_ → FlushWrites g e i d)))
      (decideFlushFileWrites is (flushFileCacheStep g e o discard d i))

namespace CachedStore

theorem flushFileCache (h : CachedStore g m d) (o : ℕ) (discard : Bool)
    (hw : FlushFileWrites g e o discard (List.range g.nCaches) d) :
    Flushes g m d (flushFileCache g e o discard d) := by
  have hfold : ∀ (is : List ℕ) (d : Dev), CachedStore g m d → FlushFileWrites g e o discard is d →
      Flushes g m d (is.foldl (flushFileCacheStep g e o discard) d) := by
    intro is
    induction is with
    | nil => exact fun d h _ => Flushes.refl h
    | cons i is ih =>
      intro d h hw
      have hstep : Flushes g m d (flushFileCacheStep g e o discard d i) := by
        unfold flushFileCacheStep
        split_ifs with hany
        · exact (h.flushSingleCache i discard (hw.1 hany)).1
        · exact Flushes.refl h
      exact hstep.trans (ih _ hstep.store hw.2)
  exact hfold _ d h hw

theorem flushWholeCache (h : CachedStore g m d) (discard : Bool) (hw : FlushWholeWrites g e discard g.nCaches d) :
    Flushes g m d (flushWholeCache g e discard d) := by
  have hloop : ∀ (n : ℕ) (d : Dev), CachedStore g m d → FlushWholeWrites g e discard n d →
      Flushes g m d (flushWholeCacheLoop g e discard n d) := by
    intro n
    induction n with
    | zero => exact fun d h _ => Flushes.refl h
    | succ n ih =>
      intro d h hw
      unfold flushWholeCacheLoop
      cases hfirst : firstDirtyObj d with
      | none => exact Flushes.refl h
      | some o =>
        obtain ⟨hfile, hrest⟩ := hw o hfirst
        have hflush := h.flushFileCache o discard hfile
        exact hflush.trans (ih _ hflush.store hrest)
  exact hloop _ d h hw

end CachedStore

/-! ## Taking entries -/

/-- If `yaffs_grab_chunk_cache` writes back an entry, it is written. -/
def GrabWrites (g : Geometry) (e : Env) (d : Dev) : Prop :=
  grabChunkWorker d = none → ∀ b ∈ lruLoop d.cache 0 none, FlushWrites g e b.1 d

instance (d : Dev) : Decidable (GrabWrites g e d) :=
  inferInstanceAs (Decidable (_ → ∀ b ∈ lruLoop d.cache 0 none, FlushWrites g e b.1 d))

theorem lruLoop_some (cs : List Cache) : ∀ (i : ℕ) (b : ℕ × ℕ), (lruLoop cs i (some b)).isSome = true := by
  induction cs with
  | nil => exact fun _ _ => rfl
  | cons c cs ih =>
    intro i b
    unfold lruLoop
    split_ifs
    · exact ih _ _
    · exact ih _ _

/-- There is an entry to grab, if there are entries. -/
theorem lruLoop_isSome {cs : List Cache} (hne : cs ≠ []) (hall : ∀ c ∈ cs, c.object.isSome = true) :
    (lruLoop cs 0 none).isSome = true := by
  cases cs with
  | nil => exact absurd rfl hne
  | cons c cs =>
    unfold lruLoop
    simp only [hall c List.mem_cons_self, Option.all_none, Bool.and_self, if_true]
    exact lruLoop_some _ _ _

namespace CachedStore

/-- The entry that is grabbed is not in use. -/
theorem grabChunkCache (h : CachedStore g m d) (hw : GrabWrites g e d) (hn : 0 < g.nCaches) :
    Flushes g m d (grabChunkCache g e d).1 ∧ ∃ i c, (Yaffs.grabChunkCache g e d).2 = some i ∧
      (Yaffs.grabChunkCache g e d).1.cache[i]? = some c ∧ c.object = none := by
  unfold Yaffs.grabChunkCache
  cases hfree : grabChunkWorker d with
  | some i =>
    obtain ⟨hlt, hnone, -⟩ := List.findIdx?_eq_some_iff_getElem.mp hfree
    exact ⟨Flushes.refl h, i, _, rfl, List.getElem?_eq_getElem hlt, by simpa using hnone⟩
  | none =>
    have hne : d.cache ≠ [] := by
      intro hnil
      have := h.length
      rw [hnil, List.length_nil] at this
      omega
    have hall : ∀ c ∈ d.cache, c.object.isSome = true := by
      intro c hc
      have := List.findIdx?_eq_none_iff.mp hfree c hc
      cases hob : c.object with
      | none => simp [hob] at this
      | some o => rfl
    obtain ⟨⟨i, u⟩, hlru⟩ := Option.isSome_iff_exists.mp (lruLoop_isSome hne hall)
    obtain ⟨hserves, hdrop⟩ := h.flushSingleCache i true (hw hfree _ hlru)
    have hlt : i < d.cache.length := by
      rcases lruLoop_lt _ _ _ _ _ hlru with hbest | ⟨-, hlt⟩
      · simp at hbest
      · simpa using hlt
    have hlt' : i < (Yaffs.flushSingleCache g e i true d).cache.length := by
      rw [hserves.store.length, ← h.length]
      exact hlt
    rw [hlru]
    exact ⟨hserves, i, _, rfl, List.getElem?_eq_getElem hlt', hdrop rfl _ (List.getElem?_eq_getElem hlt')⟩

end CachedStore

theorem findChunkCache_none (h : findChunkCache o k d = none) : ∀ c ∈ d.cache, c.object = some o → c.chunkId ≠ k := by
  intro c hc ho hk
  have := List.findIdx?_eq_none_iff.mp h c hc
  simp [ho, hk] at this

namespace CachedStore

/-- A chunk that is not in the cache is on the flash as it is to be. -/
theorem read_none (h : CachedStore g m d) (hlive : LiveFile d o) (hk : k ≠ 0) (hno : findChunkCache o k d = none) :
    rdDataObj g o k d = m o k :=
  h.rest o k hlive hk fun c hc ho hck => absurd hck (findChunkCache_none hno c hc ho)

theorem entry_data (h : CachedStore g m d) (hlive : LiveFile d o) (hi : EntryOf d i o k) :
    k ≠ 0 ∧ cacheData d i = m o k := by
  obtain ⟨c, hc, ho, rfl⟩ := hi
  obtain ⟨hk, -, hdata⟩ := h.entry c (List.mem_of_getElem? hc) o ho hlive
  refine ⟨hk, ?_⟩
  unfold cacheData
  rw [hc]
  exact hdata

/-- An entry is taken for a chunk that is not in the cache. -/
theorem loadCache (h : CachedStore g m d) (hw : GrabWrites g e d) (hn : 0 < g.nCaches) (hlive : LiveFile d o)
    (hk : k ≠ 0) (hno : findChunkCache o k d = none) : Serves g m d (loadCache g e o k d).1 ∧
      ∃ i, (Yaffs.loadCache g e o k d).2 = some i ∧ EntryOf (Yaffs.loadCache g e o k d).1 i o k := by
  obtain ⟨hgrab, i, c, hi, hc, hfree⟩ := h.grabChunkCache hw hn
  unfold Yaffs.loadCache
  simp only
  generalize Yaffs.grabChunkCache g e d = r at *
  obtain ⟨y, slot⟩ := r
  obtain rfl : slot = some i := hi
  have hlive' := (hgrab.live o).mpr hlive
  -- no other entry is of this chunk
  have hother : ∀ b ∈ y.cache, b.object = some o → b.chunkId ≠ k := by
    intro b hb ho hbk
    obtain ⟨b', hb', ho', hk'⟩ := hgrab.keys b hb o ho
    exact findChunkCache_none hno b' hb' ho' (hk'.trans hbk)
  have hread : rdDataObj g o k y = m o k :=
    hgrab.store.rest o k hlive' hk fun b hb ho hbk => absurd hbk (hother b hb ho)
  refine ⟨⟨hgrab.store.modCache hc (fun q hq => ?_) (fun q hq j b _ hj hbq => ?_) (fun _ _ _ _ _ _ _ => rfl)
    fun q j hq hj _ hrest => ?_, fun q => ((modCache_only y i _).live q).trans (hgrab.live q)⟩, i, rfl, ?_⟩
  · obtain rfl : o = q := Option.some.inj hq
    refine ⟨hlive', hk, ?_, hread⟩
    rw [hread]
    exact hgrab.store.store_length hlive' hk
  · obtain rfl : o = q := Option.some.inj hq
    exact hother b (List.mem_of_getElem? hj) hbq
  · by_cases hsame : q = o ∧ j = k
    · rw [hsame.1, hsame.2]
      exact hread
    · refine hgrab.store.rest_but hc hq hj (fun hbq _ => ?_) hrest
      exact absurd (hfree.symm.trans hbq) (by simp)
  · refine ⟨{ c with object := some o, chunkId := k, dirty := false, data := rdDataObj g o k y }, ?_, rfl, rfl⟩
    rw [modCache_getElem?, hc]
    rfl

end CachedStore

/-! ## Using entries -/

theorem Cache.SameCore.refl (c : Cache) : c.SameCore c :=
  ⟨rfl, rfl, rfl, rfl⟩

theorem sameCore_modify {l : List Cache} {f : Cache → Cache} (hf : ∀ c : Cache, c.SameCore (f c)) (i : ℕ) :
    List.Forall₂ Cache.SameCore l (l.modify i f) := by
  induction l generalizing i with
  | nil => simp
  | cons c l ih =>
    cases i with
    | zero => exact .cons (hf c) (List.forall₂_same.mpr fun b _ => Cache.SameCore.refl b)
    | succ i => exact .cons (Cache.SameCore.refl c) (ih i)

theorem sameCore_trans {l l' l'' : List Cache} (h : List.Forall₂ Cache.SameCore l l')
    (h' : List.Forall₂ Cache.SameCore l' l'') : List.Forall₂ Cache.SameCore l l'' :=
  forall₂_trans (Q := Cache.SameCore) (fun _ _ _ ⟨h1, h2, h3, h4⟩ ⟨h1', h2', h3', h4'⟩ =>
    ⟨h1'.trans h1, h2'.trans h2, h3'.trans h3, h4'.trans h4⟩) h h'

/-- An entry goes on where it is. -/
theorem sameCore_get {c : Cache} (h : List.Forall₂ Cache.SameCore d.cache x.cache) (hc : d.cache[i]? = some c) :
    ∃ c', x.cache[i]? = some c' ∧ c.SameCore c' := by
  have hlt : i < x.cache.length := h.length_eq ▸ (List.getElem?_eq_some_iff.mp hc).1
  obtain ⟨b, hb, hcore⟩ := forall₂_getElem? h (List.getElem?_eq_getElem hlt)
  obtain rfl := Option.some.inj (hc.symm.trans hb)
  exact ⟨_, List.getElem?_eq_getElem hlt, hcore⟩

theorem useCache_only (i : ℕ) (isWrite : Bool) (d : Dev) : ∃ (x : Dev) (n : ℕ), CacheOnly d x ∧
    List.Forall₂ Cache.SameCore d.cache x.cache ∧
    useCache i isWrite d = x.modCache i fun c => { c with lastUse := n, dirty := c.dirty || isWrite } := by
  have hsame : ∀ l : List Cache, List.Forall₂ Cache.SameCore l l :=
    fun l => List.forall₂_same.mpr fun c _ => Cache.SameCore.refl c
  unfold useCache
  simp only
  split_ifs
  · refine ⟨{ d with
      cache := d.cache.take 1 ++ (d.cache.drop 1).map fun c => { c with lastUse := 0 }
      cacheLastUse := 0 + 1 }, 0 + 1, rfl, ?_, rfl⟩
    simp only
    cases d.cache with
    | nil => exact .nil
    | cons c cs =>
      refine .cons (Cache.SameCore.refl c) (List.forall₂_map_right_iff.mpr ?_)
      exact List.forall₂_same.mpr fun c _ => ⟨rfl, rfl, rfl, rfl⟩
  · exact ⟨{ d with cacheLastUse := d.cacheLastUse + 1 }, d.cacheLastUse + 1, rfl, hsame _, rfl⟩

namespace CachedStore

theorem sameCore_serves (h : CachedStore g m d) (hx : CacheOnly d x)
    (hcore : List.Forall₂ Cache.SameCore d.cache x.cache) : Serves g m d x :=
  ⟨h.sameCore hx hcore, hx.live⟩

/-- An entry is read. -/
theorem useCache_read (h : CachedStore g m d) (hlive : LiveFile d o) (hi : EntryOf d i o k) :
    Serves g m d (useCache i false d) ∧ cacheData (useCache i false d) i = m o k := by
  obtain ⟨x, n, hx, hcore, heq⟩ := useCache_only i false d
  have hall : List.Forall₂ Cache.SameCore d.cache (useCache i false d).cache := by
    rw [heq]
    refine sameCore_trans hcore (sameCore_modify (fun c => ?_) i)
    exact ⟨rfl, rfl, by simp, rfl⟩
  have honly : CacheOnly d (useCache i false d) := by
    rw [heq]
    unfold CacheOnly at hx ⊢
    rw [hx]
    rfl
  have hserves := h.sameCore_serves honly hall
  obtain ⟨c, hc, ho, hck⟩ := hi
  obtain ⟨c', hc', h1, h2, -, -⟩ := sameCore_get hall hc
  exact ⟨hserves, (hserves.store.entry_data ((hserves.live o).mpr hlive)
    ⟨c', hc', h1.trans ho, h2.trans hck⟩).2⟩

end CachedStore

/-! ## Writing into entries -/

theorem patch_length {buf src : List UInt8} {start n : ℕ} (hbuf : buf.length = n) (hfit : start + src.length ≤ n) :
    (patch buf start src).length = n := by
  unfold patch
  simp only [List.length_append, List.length_take, List.length_drop]
  omega

/-- The entry `i` is used to write `src` into its chunk. -/
def patchEntry (i start : ℕ) (src : List UInt8) (writeback : ℕ) (d : Dev) : Dev :=
  (useCache i true d).modCache i fun c => { c with data := patch c.data start src, nBytes := writeback }

namespace CachedStore

/-- A dirty entry gets what its chunk is to hold from now on. -/
theorem writeEntry (h : CachedStore g m d) {c : Cache} {f : Cache → Cache} (bs : List UInt8)
    (hc : d.cache[i]? = some c) (hlive : LiveFile d o) (ho : c.object = some o) (hobj : (f c).object = c.object)
    (hchunk : (f c).chunkId = c.chunkId) (hdirty : (f c).dirty = true) (hdata : (f c).data = bs)
    (hlen : bs.length = g.dataBytesPerChunk) : Serves g (m.put o c.chunkId bs) d (d.modCache i f) := by
  refine ⟨h.modCache hc (fun q hq => ?_) (fun q hq j b hji hj hbq hbk => ?_) (fun j b q hji hj hbq _ => ?_)
    fun q j hq hj hself hrest => ?_, (modCache_only d i f).live⟩
  · obtain rfl := Option.some.inj (ho.symm.trans (hobj.symm.trans hq))
    refine ⟨hlive, ?_, hdata ▸ hlen, ?_⟩
    · rw [hchunk]
      exact (h.entry c (List.mem_of_getElem? hc) o ho hlive).1
    · rw [hdata, hchunk]
      exact (if_pos rfl).symm
  · obtain rfl := Option.some.inj (ho.symm.trans (hobj.symm.trans hq))
    exact h.others hc ho hji hj hbq (by rw [hbk, hchunk])
  · exact if_neg (h.others hc ho hji hj hbq)
  · unfold FileStore.put
    split_ifs with hsame
    · obtain ⟨rfl, rfl⟩ := Prod.mk.inj hsame
      exact absurd (hdirty.symm.trans (hself (hobj.trans ho) hchunk)) (by simp)
    · refine h.rest_but hc hq hj (fun hbq hbj => ?_) hrest
      exact absurd (by rw [Option.some.inj (hbq.symm.trans ho), hbj]) hsame

theorem put_self (h : CachedStore g (m.put o k (m o k)) d) : CachedStore g m d := by
  have hsame : m.put o k (m o k) = m := by
    funext q j
    unfold FileStore.put
    split_ifs with hqj
    · obtain ⟨rfl, rfl⟩ := Prod.mk.inj hqj
      rfl
    · rfl
  rwa [hsame] at h

/-- What is written into an entry is what its chunk is to hold. -/
theorem patchEntry (h : CachedStore g m d) (hlive : LiveFile d o) (hi : EntryOf d i o k) {start : ℕ}
    {src : List UInt8} (hfit : start + src.length ≤ g.dataBytesPerChunk) (writeback : ℕ) :
    Serves g (m.put o k (patch (m o k) start src)) d (patchEntry i start src writeback d) ∧
      EntryOf (Yaffs.patchEntry i start src writeback d) i o k := by
  obtain ⟨x, n, hx, hcore, heq⟩ := useCache_only i true d
  obtain ⟨c, hc, ho, rfl⟩ := hi
  have hused := h.sameCore_serves hx hcore
  obtain ⟨c', hc', h1, h2, -, h4⟩ := sameCore_get hcore hc
  have hlive' := (hused.live o).mpr hlive
  obtain ⟨hk, hlen, hdata⟩ := hused.store.entry c' (List.mem_of_getElem? hc') o (h1.trans ho) hlive'
  unfold Yaffs.patchEntry
  rw [heq]
  -- the entry is dirty first, and then it is written
  have hmarked := hused.store.writeEntry (f := fun c => { c with lastUse := n, dirty := c.dirty || true }) c'.data hc'
    hlive' (h1.trans ho) rfl rfl (Bool.or_true _) rfl hlen
  rw [hdata] at hmarked
  have hmark := hmarked.store.put_self
  have hget : (x.modCache i fun c => { c with lastUse := n, dirty := c.dirty || true }).cache[i]? =
      some { c' with lastUse := n, dirty := c'.dirty || true } := by
    rw [modCache_getElem?, hc']
    rfl
  have hwritten := hmark.writeEntry (f := fun c => { c with data := patch c.data start src, nBytes := writeback })
    (patch c'.data start src) hget ((hmarked.live o).mpr hlive') (h1.trans ho) rfl rfl (Bool.or_true _) rfl
    (patch_length hlen hfit)
  have hpatch : patch c'.data start src = patch (m o c.chunkId) start src := by rw [hdata, h2]
  rw [hpatch] at hwritten
  refine ⟨⟨?_, fun q => (hwritten.live q).trans ((hmarked.live q).trans (hused.live q))⟩, ?_⟩
  · have hkey : c'.chunkId = c.chunkId := h2
    have hstore := hwritten.store
    simp only [hkey] at hstore
    exact hstore
  · refine ⟨{ c' with lastUse := n, dirty := c'.dirty || true, data := patch c'.data start src, nBytes := writeback },
      ?_, h1.trans ho, h2⟩
    rw [modCache_getElem?, hget]
    rfl

/-- An entry whose chunk has been written back is clean. -/
theorem writeThrough (h : CachedStore g m d) (hlive : LiveFile d o) (hi : EntryOf d i o k) (nBytes : ℕ)
    (hw : chunkWritten (wrDataObj g e o k (cacheData d i) nBytes true d).2 = true) :
    Serves g m d
      ((wrDataObj g e o k (cacheData d i) nBytes true d).1.modCache i fun c => { c with dirty := false }) := by
  obtain ⟨hk, hdata⟩ := h.entry_data hlive hi
  rw [hdata] at hw ⊢
  obtain ⟨hstore, hread⟩ := h.writeBack (e := e) hlive hk nBytes true
  have hstep := wrDataObj_flash (e := e) h.settled hlive hk (h.store_length hlive hk) nBytes true
  obtain ⟨c, hc, ho, rfl⟩ := hi
  have hclean := hstore.cleanEntry (hstep.entry hc ho hlive) ((hstep.live o).mpr hlive) ho (hread hw)
  exact ⟨hclean.store, fun q => (hclean.live q).trans (hstep.live q)⟩

end CachedStore

/-! ## Writing past the cache -/

theorem chunkWritten_isSome {r : Option ℕ} (h : chunkWritten r = true) : r.isSome = true := by
  cases r with
  | none => simp [chunkWritten] at h
  | some c => rfl

theorem chunkWritten_eq_isSome {r : Option ℕ} (h : r ≠ some 0) : chunkWritten r = r.isSome := by
  cases r with
  | none => rfl
  | some c =>
    have hc : c ≠ 0 := fun h0 => h (by rw [h0])
    simp [chunkWritten, hc]

namespace CachedStore

/-- A chunk is written past the cache, and its entry is dropped. -/
theorem writePast (h : CachedStore g m d) {bs : List UInt8}
    (hstep : FlashStep g ((flashStore g d).put o k bs) d d') :
    CachedStore g (m.put o k bs) (invalidateChunkCache o k d') := by
  have hentries := h.toCacheEntries.flash hstep
  have hread : ∀ q j, LiveFile d' q → j ≠ 0 → (∀ c ∈ d'.cache, c.object = some q → c.chunkId = j → (q, j) ≠ (o, k) →
      c.dirty = false) → rdDataObj g q j d' = m.put o k bs q j := by
    intro q j hq hj hclean
    have hold := (hstep.live q).mp hq
    rw [hstep.read q j hold hj]
    unfold FileStore.put
    split_ifs with hsame
    · rfl
    · refine h.rest q j hold hj fun c hc hcq hcj => ?_
      obtain ⟨c', hc', hkept⟩ := forall₂_mem_left hstep.cache hc
      obtain rfl := hkept.live hcq hold
      exact hclean _ hc' hcq hcj hsame
  unfold invalidateChunkCache
  cases hfind : findChunkCache o k d' with
  | none =>
    have hno := findChunkCache_none hfind
    refine ⟨⟨hentries.settled, hentries.length, hentries.unique, hentries.owner, fun c hc q hq hlive => ?_⟩,
      fun q j hq hj hclean => hread q j hq hj fun c hc hcq hcj _ => hclean c hc hcq hcj⟩
    obtain ⟨hk, hlen, hdata⟩ := hentries.entry c hc q hq hlive
    refine ⟨hk, hlen, hdata.trans (if_neg fun hsame => ?_).symm⟩
    obtain ⟨rfl, hck⟩ := Prod.mk.inj hsame
    exact hno c hc hq hck
  | some i =>
    obtain ⟨c, hc, ho, rfl⟩ := findChunkCache_some hfind
    refine hentries.modCache hc (by simp) (by simp)
      (fun j b q hji hj hbq _ => if_neg (hentries.others hc ho hji hj hbq))
      fun q j hq hj _ hrest => hread q j hq hj fun b hb hbq hbj hne => ?_
    obtain ⟨n, hn⟩ := List.getElem?_of_mem hb
    by_cases hni : n = i
    · subst hni
      obtain rfl := Option.some.inj (hc.symm.trans hn)
      exact absurd (by rw [Option.some.inj (hbq.symm.trans ho), ← hbj]) hne
    · exact hrest n b hni hn hbq hbj

/-- A clean entry is dropped. -/
theorem invalidateChunkCache (h : CachedStore g m d)
    (hclean : ∀ c ∈ d.cache, c.object = some o → c.chunkId = k → c.dirty = false) :
    CachedStore g m (invalidateChunkCache o k d) := by
  unfold Yaffs.invalidateChunkCache
  cases hfind : findChunkCache o k d with
  | none => exact h
  | some i =>
    obtain ⟨c, hc, ho, hck⟩ := findChunkCache_some hfind
    exact (h.dropFree hc (Or.inr (hclean c (List.mem_of_getElem? hc) ho hck))).store

end CachedStore

theorem invalidateChunkCache_live (o k : ℕ) (d : Dev) (q : ℕ) :
    LiveFile (invalidateChunkCache o k d) q ↔ LiveFile d q := by
  unfold invalidateChunkCache
  cases findChunkCache o k d with
  | none => exact Iff.rfl
  | some i => exact (modCache_only d i _).live q

/-! ## Chunks through the cache -/

/-- If an entry is written back for the chunk to be read, it is written. -/
def ReadKeeps (g : Geometry) (e : Env) (o k nCopy : ℕ) (d : Dev) : Prop :=
  findChunkCache o k d = none → nCopy ≠ g.dataBytesPerChunk ∨ g.inbandTags = true → 0 < g.nCaches → GrabWrites g e d

instance (o k nCopy : ℕ) (d : Dev) : Decidable (ReadKeeps g e o k nCopy d) :=
  inferInstanceAs (Decidable (_ → _ → _ → GrabWrites g e d))

/-- If an entry is written back for the chunk to be written, it is written, and so is the chunk itself if it is
written through. -/
def ThroughKeeps (g : Geometry) (e : Env) (o k start : ℕ) (src : List UInt8) (writeback : ℕ) (writeThrough : Bool)
    (d : Dev) : Prop :=
  (findChunkCache o k d = none → checkAllocAvailable g 1 d.toBlockDev = true → GrabWrites g e d) ∧
    ∀ i ∈ (cacheForWrite g e o k d).2, writeThrough = true →
      let y := patchEntry i start src writeback (cacheForWrite g e o k d).1
      chunkWritten (wrDataObj g e o k (cacheData y i) writeback true y).2 = true

instance (o k start : ℕ) (src : List UInt8) (writeback : ℕ) (writeThrough : Bool) (d : Dev) :
    Decidable (ThroughKeeps g e o k start src writeback writeThrough d) :=
  @instDecidableAnd _ _ (inferInstanceAs (Decidable (_ → _ → GrabWrites g e d)))
    (inferInstanceAs (Decidable (∀ i ∈ (cacheForWrite g e o k d).2, writeThrough = true →
      chunkWritten (wrDataObj g e o k (cacheData (patchEntry i start src writeback (cacheForWrite g e o k d).1) i)
        writeback true (patchEntry i start src writeback (cacheForWrite g e o k d).1)).2 = true)))

/-- A chunk that is written past the cache finds memory for its tnode; if it finds no space, the cache has no newer
data. -/
def PastKeeps (o k : ℕ) (d : Dev) (r : Option ℕ) : Prop :=
  r ≠ some 0 ∧ (r = none → ∀ c ∈ d.cache, c.object = some o → c.chunkId = k → c.dirty = false)

instance (o k : ℕ) (d : Dev) (r : Option ℕ) : Decidable (PastKeeps o k d r) :=
  inferInstanceAs (Decidable (_ ∧ (_ → ∀ c ∈ d.cache, c.object = some o → c.chunkId = k → c.dirty = false)))

/-- What a write of the chunk writes is written. -/
def WriteKeeps (g : Geometry) (e : Env) (o k start : ℕ) (src : List UInt8) (writeback : ℕ) (writeThrough : Bool)
    (d : Dev) : Prop :=
  if src.length ≠ g.dataBytesPerChunk ∨ !g.cacheBypassAligned ∨ g.inbandTags then
    if 0 < g.nCaches then ThroughKeeps g e o k start src writeback writeThrough d
    else (wrDataObj g e o k (patch (rdDataObj g o k d) start src) writeback false d).2 ≠ some 0
  else PastKeeps o k d (wrDataObj g e o k src g.dataBytesPerChunk false d).2

instance (o k start : ℕ) (src : List UInt8) (writeback : ℕ) (writeThrough : Bool) (d : Dev) :
    Decidable (WriteKeeps g e o k start src writeback writeThrough d) :=
  inferInstanceAs (Decidable (if src.length ≠ g.dataBytesPerChunk ∨ !g.cacheBypassAligned ∨ g.inbandTags then
    if 0 < g.nCaches then ThroughKeeps g e o k start src writeback writeThrough d
    else (wrDataObj g e o k (patch (rdDataObj g o k d) start src) writeback false d).2 ≠ some 0
    else PastKeeps o k d (wrDataObj g e o k src g.dataBytesPerChunk false d).2))

namespace CachedStore

theorem fileRdChunk (h : CachedStore g m d) (hlive : LiveFile d o) (hk : k ≠ 0) {start nCopy : ℕ}
    (hfit : start + nCopy ≤ g.dataBytesPerChunk) (hw : ReadKeeps g e o k nCopy d) :
    Serves g m d (fileRdChunk g e o k start nCopy d).1 ∧
      (Yaffs.fileRdChunk g e o k start nCopy d).2 = ((m o k).drop start).take nCopy := by
  unfold Yaffs.fileRdChunk rdThroughCache
  cases hfind : findChunkCache o k d with
  | some i =>
    have hentry := findChunkCache_some hfind
    have hpos : 0 < g.nCaches := by
      obtain ⟨c, hc, -⟩ := hentry
      rw [← h.length]
      exact Nat.zero_lt_of_lt (List.getElem?_eq_some_iff.mp hc).1
    obtain ⟨huse, hdata⟩ := h.useCache_read hlive hentry
    simp only [Option.isSome_some, true_or, if_true, if_pos hpos]
    exact ⟨huse, by rw [hdata]⟩
  | none =>
    have hread := h.read_none hlive hk hfind
    simp only [Option.isSome_none, Bool.false_eq_true, false_or]
    split_ifs with hpart hpos
    · obtain ⟨hload, i, hi, hentry⟩ := h.loadCache (hw hfind hpart hpos) hpos hlive hk hfind
      generalize Yaffs.loadCache g e o k d = r at *
      obtain ⟨y, slot⟩ := r
      obtain rfl : slot = some i := hi
      simp only
      have honly := modCache_only y i fun c => { c with nBytes := 0 }
      have hbytes := hload.store.sameCore_serves honly
        (sameCore_modify (f := fun c => { c with nBytes := 0 }) (fun c => ⟨rfl, rfl, rfl, rfl⟩) i)
      have hlive' := (hbytes.live o).mpr ((hload.live o).mpr hlive)
      have hentry' : EntryOf (y.modCache i fun c => { c with nBytes := 0 }) i o k := by
        obtain ⟨c, hc, ho, hck⟩ := hentry
        exact ⟨{ c with nBytes := 0 }, by rw [modCache_getElem?, hc]; rfl, ho, hck⟩
      obtain ⟨huse, hdata⟩ := hbytes.store.useCache_read hlive' hentry'
      exact ⟨(hload.trans hbytes).trans huse, by rw [hdata]⟩
    · exact ⟨Serves.refl h, by rw [hread]⟩
    · simp only [not_or, not_not] at hpart
      obtain rfl : start = 0 := by omega
      refine ⟨Serves.refl h, ?_⟩
      rw [hread, List.drop_zero, List.take_of_length_le (h.store_length hlive hk ▸ hpart.1.ge)]

theorem cacheForWrite (h : CachedStore g m d) (hlive : LiveFile d o) (hk : k ≠ 0) (hn : 0 < g.nCaches)
    (hw : findChunkCache o k d = none → checkAllocAvailable g 1 d.toBlockDev = true → GrabWrites g e d) :
    Serves g m d (cacheForWrite g e o k d).1 ∧
      ∀ i, (Yaffs.cacheForWrite g e o k d).2 = some i → EntryOf (Yaffs.cacheForWrite g e o k d).1 i o k := by
  unfold Yaffs.cacheForWrite
  cases hfind : findChunkCache o k d with
  | none =>
    simp only
    split_ifs with halloc
    · obtain ⟨hload, i, hi, hentry⟩ := h.loadCache (hw hfind halloc) hn hlive hk hfind
      exact ⟨hload, fun j hj => Option.some.inj (hi.symm.trans hj) ▸ hentry⟩
    · exact ⟨Serves.refl h, by simp⟩
  | some i =>
    have hentry := findChunkCache_some hfind
    simp only
    split_ifs
    · exact ⟨Serves.refl h, fun j hj => Option.some.inj hj ▸ hentry⟩
    · exact ⟨Serves.refl h, by simp⟩
    · exact ⟨Serves.refl h, fun j hj => Option.some.inj hj ▸ hentry⟩

theorem wrThroughCache (h : CachedStore g m d) (hlive : LiveFile d o) (hk : k ≠ 0) (hn : 0 < g.nCaches) {start : ℕ}
    {src : List UInt8} (hfit : start + src.length ≤ g.dataBytesPerChunk) {writeback : ℕ} {writeThrough : Bool}
    (hgrab : findChunkCache o k d = none → checkAllocAvailable g 1 d.toBlockDev = true → GrabWrites g e d)
    (hthrough : ∀ i, (Yaffs.cacheForWrite g e o k d).2 = some i → writeThrough = true →
      let y := Yaffs.patchEntry i start src writeback (Yaffs.cacheForWrite g e o k d).1
      chunkWritten (wrDataObj g e o k (cacheData y i) writeback true y).2 = true) :
    let r := wrThroughCache g e o k start src writeback writeThrough d
    Serves g (if r.2 then m.put o k (patch (m o k) start src) else m) d r.1 := by
  obtain ⟨hcache, hentry⟩ := h.cacheForWrite hlive hk hn hgrab
  unfold Yaffs.wrThroughCache
  simp only
  generalize Yaffs.cacheForWrite g e o k d = r at *
  obtain ⟨y, slot⟩ := r
  cases slot with
  | none => exact hcache
  | some i =>
    have hlive' := (hcache.live o).mpr hlive
    obtain ⟨hpatch, hentry'⟩ := hcache.store.patchEntry hlive' (hentry i rfl) hfit writeback
    have hall := hcache.trans hpatch
    have hthrough := hthrough i rfl
    change Serves g _ d (if writeThrough then _ else (Yaffs.patchEntry i start src writeback y, true)).1
    cases writeThrough with
    | false => exact hall
    | true =>
      have hw := hthrough rfl
      have hwrite := hpatch.store.writeThrough ((hall.live o).mpr hlive) hentry' writeback hw
      have hsome : (wrDataObj g e o k (cacheData (Yaffs.patchEntry i start src writeback y) i) writeback true
          (Yaffs.patchEntry i start src writeback y)).2.isSome = true := chunkWritten_isSome hw
      simp only [if_true]
      change Serves g (if (wrDataObj g e o k (cacheData (Yaffs.patchEntry i start src writeback y) i) writeback true
        (Yaffs.patchEntry i start src writeback y)).2.isSome = true then _ else _) d _
      rw [if_pos hsome]
      exact hall.trans hwrite

/-- A chunk is written at once. -/
theorem wrDataObj (h : CachedStore g m d) (hlive : LiveFile d o) (hk : k ≠ 0) {bs : List UInt8}
    (hlen : bs.length = g.dataBytesPerChunk) {nBytes : ℕ} {useReserve : Bool}
    (hmem : (wrDataObj g e o k bs nBytes useReserve d).2 ≠ some 0)
    (hclean : (Yaffs.wrDataObj g e o k bs nBytes useReserve d).2 = none →
      ∀ c ∈ d.cache, c.object = some o → c.chunkId = k → c.dirty = false) :
    Serves g (if (Yaffs.wrDataObj g e o k bs nBytes useReserve d).2.isSome then m.put o k bs else m) d
      (Yaffs.invalidateChunkCache o k (Yaffs.wrDataObj g e o k bs nBytes useReserve d).1) := by
  have hstep := wrDataObj_flash (e := e) h.settled hlive hk hlen nBytes useReserve
  rw [chunkWritten_eq_isSome hmem] at hstep
  have hkept := hstep.cache
  have hkeys := fun q => (invalidateChunkCache_live o k (Yaffs.wrDataObj g e o k bs nBytes useReserve d).1 q).trans
    (hstep.live q)
  generalize Yaffs.wrDataObj g e o k bs nBytes useReserve d = r at *
  obtain ⟨y, res⟩ := r
  cases res with
  | some c => exact ⟨h.writePast hstep, hkeys⟩
  | none =>
    refine ⟨(h.flash hstep fun _ _ _ _ => Or.inl rfl).invalidateChunkCache fun c hc ho hck => ?_, hkeys⟩
    obtain ⟨b, hb, rfl | ⟨-, -, -, rfl⟩⟩ := forall₂_mem hkept hc
    · exact hclean rfl _ hb ho hck
    · simp at ho

/-- A round of the loop of `yaffs_do_file_wr`. -/
theorem wrChunk (h : CachedStore g m d) (hlive : LiveFile d o) (hk : k ≠ 0) {start : ℕ} {src : List UInt8}
    (hfit : start + src.length ≤ g.dataBytesPerChunk) {writeback : ℕ} {writeThrough : Bool}
    (hw : WriteKeeps g e o k start src writeback writeThrough d) :
    let r := wrChunk g e o k start src writeback writeThrough d
    Serves g (if r.2 then m.put o k (patch (m o k) start src) else m) d r.1 := by
  unfold WriteKeeps at hw
  unfold Yaffs.wrChunk
  by_cases hthrough : src.length ≠ g.dataBytesPerChunk ∨ !g.cacheBypassAligned ∨ g.inbandTags
  · rw [if_pos hthrough] at hw ⊢
    by_cases hn : 0 < g.nCaches
    · rw [if_pos hn] at hw ⊢
      exact h.wrThroughCache hlive hk hn hfit hw.1 hw.2
    · rw [if_neg hn] at hw ⊢
      -- there are no entries
      have hnil : d.cache = [] := List.eq_nil_of_length_eq_zero (h.length.trans (by omega))
      have hno : ∀ c ∈ d.cache, c.object = some o → c.chunkId = k → c.dirty = false := by simp [hnil]
      have hread : rdDataObj g o k d = m o k := h.rest o k hlive hk hno
      rw [hread] at hw ⊢
      have hwrite := h.wrDataObj hlive hk (patch_length (h.store_length hlive hk) hfit) hw fun _ => hno
      have hcache : (Yaffs.wrDataObj g e o k (patch (m o k) start src) writeback false d).1.cache = [] := by
        have hstep := wrDataObj_flash (e := e) h.settled hlive hk (patch_length (h.store_length hlive hk) hfit)
          writeback false
        exact List.eq_nil_of_length_eq_zero (hstep.cache.length_eq.symm.trans (by simp [hnil]))
      have hsame : ∀ y : Dev, y.cache = [] → Yaffs.invalidateChunkCache o k y = y := by
        intro y hy
        simp [Yaffs.invalidateChunkCache, findChunkCache, hy]
      rw [hsame _ hcache] at hwrite
      exact hwrite
  · rw [if_neg hthrough] at hw ⊢
    simp only [not_or, not_not] at hthrough
    obtain rfl : start = 0 := by omega
    have hpatch : patch (m o k) 0 src = src := by
      have hlen := h.store_length hlive hk
      unfold patch
      rw [List.take_zero, List.nil_append, List.drop_of_length_le (by omega), List.append_nil]
    rw [hpatch]
    exact h.wrDataObj hlive hk hthrough.1 hw.1 hw.2

end CachedStore

end Yaffs
