import Yaffs.Entries

/-!
# Runs keep the cache in order

The calls on the core between which the books of the cache are right : no chunk is cached twice, every
entry in use belongs to an object, and the dirty entries are the chunks still to be written.

`yaffs_invalidate_chunk_cache` and `yaffs_invalidate_file_cache` take an entry from its object and leave
it dirty. `cacheBooks_run` : in a run in which they meet clean entries only, the books are right.
`alignedCalls_stale` is a run in which a chunk is written past the cache while it is dirty in it.
-/

namespace Yaffs

variable {g : Geometry} {e : Env} {d : Dev} {o : ℕ}

/-! ## Books -/

section Books

variable (g : Geometry) (e : Env)

/-- `yaffs_count_dirty_caches`. -/
def countDirtyCaches (d : Dev) : ℕ :=
  d.cache.countP fun c => c.dirty

/-- The chunks in the cache that are still to be written. -/
def chunksToWrite (d : Dev) : ℕ :=
  d.cache.countP fun c => c.object.isSome && c.dirty

/-- The rest of `yaffs_get_n_free_chunks`, when `nDirty` chunks are subtracted. -/
def freeBesides (d : Dev) (nDirty : ℕ) : ℤ :=
  max 0 (d.nFreeChunks + d.nDeletedFiles - nDirty - ((g.nReservedBlocks + 1) * g.chunksPerBlock : ℕ) -
    (calcCheckptBlocksRequired g d.toBlockDev * g.chunksPerBlock : ℕ))

/-- `yaffs_get_n_free_chunks`. -/
def getNFreeChunks (d : Dev) : ℤ :=
  freeBesides g d (countDirtyCaches d)

/-- The loop of `yaffs_grab_chunk_cache` for the least recently used entry, which passes over the
entries `locked`. -/
def lruUnlocked (locked : ℕ → Bool) : List Cache → ℕ → Option (ℕ × ℕ) → Option (ℕ × ℕ)
  | [], _, best => best
  | c :: cs, i, best =>
    lruUnlocked locked cs (i + 1)
      (if c.object.isSome && !locked i && best.all fun b => decide (c.lastUse < b.2) then some (i, c.lastUse)
      else best)

/-- `yaffs_grab_chunk_cache`, while the entries `locked` are locked. -/
def grabUnlocked (locked : ℕ → Bool) (d : Dev) : Dev × Option ℕ :=
  match grabChunkWorker d with
  | some i => (d, some i)
  | none =>
    match lruUnlocked locked d.cache 0 none with
    | some (i, _) => (flushSingleCache g e i true d, some i)
    | none => (d, none)

/-- The books of the cache are right. -/
structure CacheBooks (d : Dev) : Prop where
  unique : ∀ (i j : ℕ) (c c' : Cache), d.cache[i]? = some c → d.cache[j]? = some c' → c.object.isSome →
    c.object = c'.object → c.chunkId = c'.chunkId → i = j
  live : ∀ c ∈ d.cache, ∀ o, c.object = some o → findByNumber d o = some o
  /-- Entries are locked while they are in use. -/
  unlocked : ∀ locked : ℕ → Bool, (∀ i, locked i = true → ∃ c, d.cache[i]? = some c ∧ c.object.isSome) →
    ∀ i, (grabUnlocked g e locked d).2 = some i → locked i = false
  dirty : countDirtyCaches d = chunksToWrite d
  free : getNFreeChunks g d = freeBesides g d (chunksToWrite d)

end Books

/-- The core grabs an entry when none is locked. -/
theorem grabUnlocked_none (d : Dev) : grabUnlocked g e (fun _ => false) d = grabChunkCache g e d := by
  have hlru : ∀ (cs : List Cache) (i : ℕ) (best : Option (ℕ × ℕ)),
      lruUnlocked (fun _ => false) cs i best = lruLoop cs i best := by
    intro cs
    induction cs with
    | nil => exact fun _ _ => rfl
    | cons c cs ih =>
      intro i best
      simp only [lruUnlocked, lruLoop, ih, Bool.not_false, Bool.and_true]
  unfold grabUnlocked grabChunkCache
  rw [hlru] <;> rfl

theorem lruUnlocked_unlocked (locked : ℕ → Bool) (cs : List Cache) : ∀ (i : ℕ) (best : Option (ℕ × ℕ)) (j u : ℕ),
    lruUnlocked locked cs i best = some (j, u) → best = some (j, u) ∨ locked j = false := by
  induction cs with
  | nil => exact fun i best j u h => Or.inl h
  | cons c cs ih =>
    intro i best j u h
    simp only [lruUnlocked] at h
    rcases ih _ _ _ _ h with hbest | hj
    · split_ifs at hbest with hc
      · obtain ⟨rfl, -⟩ := Prod.mk.inj (Option.some.inj hbest)
        simp only [Bool.and_eq_true, Bool.not_eq_true'] at hc
        exact Or.inr hc.1.2
      · exact Or.inl hbest
    · exact Or.inr hj

/-- In a cache that is in order the books are right. -/
theorem CacheSound.books (h : CacheSound g d) : CacheBooks g e d := by
  have hcount : countDirtyCaches d = chunksToWrite d := by
    unfold countDirtyCaches chunksToWrite
    refine List.countP_congr fun c hc => ?_
    cases hobj : c.object with
    | none => simp [h.stale c hc hobj]
    | some o => simp
  refine ⟨h.unique, fun c hc o ho => ?_, fun locked hlocked i hi => ?_, hcount, by rw [getNFreeChunks, hcount]⟩
  · unfold findByNumber
    rw [if_pos ⟨(h.live c hc o ho).1, h.ties.kept o⟩]
  · unfold grabUnlocked grabChunkWorker at hi
    split at hi
    · next j hfree =>
      obtain rfl := Option.some.inj hi
      obtain ⟨hlt, hnone, -⟩ := List.findIdx?_eq_some_iff_getElem.mp hfree
      by_contra hl
      obtain ⟨c, hc, hsome⟩ := hlocked j (by simpa using hl)
      rw [List.getElem?_eq_getElem hlt, Option.some.injEq] at hc
      rw [hc] at hnone
      rw [Option.isNone_iff_eq_none.mp hnone] at hsome
      simp at hsome
    · split at hi
      · next j u hlru =>
        obtain rfl := Option.some.inj hi
        exact (lruUnlocked_unlocked locked _ _ _ _ _ hlru).resolve_left (by simp)
      · simp at hi

/-! ## Runs -/

/-- A call on the core, or an eviction. -/
inductive CacheCall
  | core (op : Op)
  | evict
  deriving DecidableEq, Repr

/-- The calls on the core that do not rename. Only files and directories are hooked to inodes. -/
def Op.covered (d : Dev) : Op → Bool
  | .rename _ _ _ _ => false
  | .openInode _ o => (d.obj o).variantType = .file || (d.obj o).variantType = .directory
  | _ => true

/-- One call. -/
def cacheStep (g : Geometry) (e : Env) (d : Dev) : CacheCall → Dev
  | .core op => if op.covered d then step g e d op else d
  | .evict => (grabChunkCache g e d).1

/-- A sequence of calls. -/
def cacheRun (g : Geometry) (e : Env) (d : Dev) (cs : List CacheCall) : Dev :=
  cs.foldl (cacheStep g e) d

/-- A call that writes a file past the cache meets no dirty entry of what it writes, and one that deletes a
file on a device with soft deletion finds no dirty entry of it. -/
def CallClean (g : Geometry) (e : Env) (d : Dev) : CacheCall → Prop
  | .core (.write o offset data writeThrough) =>
    HoleClean g e o offset d ∧
      WriteClean g e o writeThrough data.length data offset (handleHole g e o offset d)
  | .core (.resize o size) => HoleClean g e o size (resizeStart g e o d)
  | .core (.unlink o) => unlinksFile d o = true → g.deletesByResize = true ∨ CleanFile d o
  | .core (.closeInode o) =>
    (d.obj o).unlinked = true → (d.obj o).variantType = .file → g.deletesByResize = true ∨ CleanFile d o
  | _ => True

/-- Every call of the run is clean. -/
def RunClean (g : Geometry) (e : Env) : Dev → List CacheCall → Prop
  | _, [] => True
  | d, c :: cs => CallClean g e d c ∧ RunClean g e (cacheStep g e d c) cs

theorem freshDev_cacheSound (g : Geometry) (bad : ℕ → Bool) : CacheSound g (freshDev g bad) := by
  have hmem : ∀ c ∈ (freshDev g bad).cache, c = { data := zeroChunk g } := fun c hc => List.eq_of_mem_replicate hc
  refine ⟨freshDev_tied g bad, by simp [freshDev], fun i j c c' hi _ hsome _ _ => ?_, fun c hc o ho => ?_,
    fun c hc _ => by rw [hmem c hc], fun c hc o ho _ => by rw [hmem c hc]⟩
  · rw [hmem c (List.mem_of_getElem? hi)] at hsome
    simp at hsome
  · rw [hmem c hc] at ho
    simp at ho

/-- What an object that can be reached is. -/
theorem reachable_spec (h : Tied [] d) (ho : reachable d o = true) :
    o ∈ d.ids ∧ (d.obj o).deleted = false ∧ (d.obj o).softDel = false := by
  simp only [reachable, Bool.and_eq_true, Bool.not_eq_true'] at ho
  refine ⟨?_, ho.2, ?_⟩
  · have hfind := ho.1
    unfold findByNumber at hfind
    split_ifs at hfind with hid
    · exact hid.1
    · simp at hfind
  · by_contra hs
    have := (h.soft o (by simpa using hs)).2
    rw [ho.2] at this
    exact Bool.noConfusion this

theorem openFile_served (h : Tied [] d) (ho : openFile d o = true) : ServedFile d o := by
  simp only [openFile, Bool.and_eq_true, decide_eq_true_eq] at ho
  obtain ⟨hid, -, hs⟩ := reachable_spec h ho.1
  exact ⟨hid, ho.2, hs⟩

theorem releaseInode_sound (h : CacheSound g d) (ho : o ∈ d.ids) (hs : (d.obj o).softDel = false)
    (hclean : (d.obj o).unlinked = true → (d.obj o).variantType = .file → g.deletesByResize = true ∨ CleanFile d o) :
    CacheSound g (releaseInode g e o d) := by
  have hobj : ∀ q, (d.modObj o fun ob => { ob with myInode := none }).obj q =
      { d.obj q with myInode := if q = o then none else (d.obj q).myInode } := by
    intro q
    by_cases hq : q = o
    · subst hq
      simp [Dev.modObj]
    · simp [Dev.modObj, hq]
  have hx : CacheSound g (d.modObj o fun ob => { ob with myInode := none }) := by
    refine ⟨h.ties.setInode (by simp), h.length, h.unique, fun c hc q hq => ?_, h.stale, fun c hc q hq hsq => ?_⟩
    · rw [hobj]
      exact h.live c hc q hq
    · rw [hobj] at hsq
      exact h.soft c hc q hq hsq
  unfold releaseInode
  simp only
  split_ifs with hun
  · rw [hobj] at hun
    have hinitial : o ∉ initialDirs := fun hi => by
      rw [show (d.obj o).unlinked = false from (h.ties.initial o hi).2.2.1] at hun
      exact Bool.noConfusion hun
    refine (delObj_tidy hx hinitial (by rw [hobj]; simp) (by rw [hobj]; exact hs) fun ht => ?_).sound hx
    rw [hobj] at ht
    exact hclean hun ht
  · exact hx

theorem hookInode_sound (h : CacheSound g d) (ho : o ∈ d.ids) (hdel : (d.obj o).deleted = false)
    (htype : (d.obj o).variantType = .file ∨ (d.obj o).variantType = .directory) (i : ℕ) :
    CacheSound g (hookInode i o d) := by
  have hobj : ∀ q, (hookInode i o d).obj q = { d.obj q with myInode := if q = o then some i else (d.obj q).myInode } := by
    intro q
    by_cases hq : q = o
    · subst hq
      simp [hookInode, Dev.modObj]
    · simp [hookInode, Dev.modObj, hq]
  refine ⟨hookInode_tied h.ties ho htype hdel i, h.length, h.unique, fun c hc q hq => ?_, h.stale, fun c hc q hq hsq => ?_⟩
  · rw [hobj]
    exact h.live c hc q hq
  · rw [hobj] at hsq
    exact h.soft c hc q hq hsq

theorem updateDirtyDirs_tidying : Tidying g (updateDirtyDirs g e) := by
  have hloop : ∀ n, Tidying g (updateDirtyDirsLoop g e n) := by
    intro n
    induction n with
    | zero => exact fun d h => Tidy.refl h
    | succ n ih =>
      intro d h
      unfold updateDirtyDirsLoop
      split
      · exact Tidy.refl h
      · next o rest _ =>
        have hrest : Tidy [] d { d with dirtyDirs := rest } := (Tidy.refl h).same ⟨fun _ => rfl, rfl, rfl⟩ rfl
        simp only
        split_ifs
        · exact (hrest.next h (updateOh_tidying (e := e) o none false false 0)).next h ih
        · exact hrest.next h ih
  exact fun d h => hloop _ d h

theorem checkpointSave_tidying : Tidying g (checkpointSave g e) := by
  intro d h
  have hblocks : (checkpointSave g e d).obj = d.obj ∧ (checkpointSave g e d).ids = d.ids ∧
      (checkpointSave g e d).gcCleanupList = d.gcCleanupList ∧ (checkpointSave g e d).cache = d.cache := by
    unfold checkpointSave wrCheckptData
    simp only
    split_ifs <;> exact ⟨rfl, rfl, rfl, rfl⟩
  exact (Tidy.refl h).same ⟨fun o => by rw [hblocks.1], hblocks.2.1, hblocks.2.2.1⟩ hblocks.2.2.2

/-- A directory that can be reached by a path can take an object. -/
theorem namedDir_plain (h : Tied [] d) (ho : namedDir d o = true) :
    o ∈ d.ids ∧ (d.obj o).variantType = .directory ∧ (d.obj o).unlinked = false ∧
      ¬(o = objectIdUnlinked ∨ o = objectIdDeleted) := by
  simp only [namedDir, named, Bool.and_eq_true, Bool.not_eq_true', decide_eq_true_eq, bne_iff_ne] at ho
  exact ⟨(reachable_spec h ho.1.1.1.1).1, ho.1.1.2, ho.1.1.1.2, not_or.mpr ⟨ho.1.2, ho.2⟩⟩

/-- One clean call keeps the cache in order. -/
theorem cacheStep_sound (h : CacheSound g d) (c : CacheCall) (hclean : CallClean g e d c) :
    CacheSound g (cacheStep g e d c) := by
  have htidy : ∀ {f : Dev → Dev}, Tidying g f → CacheSound g (f d) := fun hf => (hf d h).sound h
  cases c with
  | evict => exact (grabChunkCache_tidy h).1.sound h
  | core op =>
    unfold cacheStep step
    simp only
    split_ifs with hcov hall
    case neg => exact h
    case neg => exact h
    cases op with
    | create type parent name aliasStr =>
      simp only [Op.allowed, Bool.and_eq_true] at hall
      obtain ⟨hp, htype, hun, hplain⟩ := namedDir_plain h.ties hall.1.2
      exact createObj_sound h hp htype hun hplain (fun ht => by simp [ht, ObjType.creatable] at hall) name aliasStr
    | link parent name target =>
      simp only [Op.allowed, Bool.and_eq_true] at hall
      obtain ⟨hp, htype, hun, hplain⟩ := namedDir_plain h.ties hall.1.1.1
      simp only [Op.exec, linkObj]
      split
      · next q hq =>
        have hany := hall.2
        rw [hq] at hany
        simp only [Option.any_some, named, Bool.and_eq_true, bne_iff_ne] at hany
        exact createObj_sound h hp htype hun hplain (fun _ => ⟨(reachable_spec h.ties hany.1.1).1, hany.2⟩) name []
      · exact h
    | rename => simp [Op.covered] at hcov
    | unlink o =>
      simp only [Op.allowed, named, Bool.and_eq_true] at hall
      obtain ⟨hid, -, hs⟩ := reachable_spec h.ties hall.1
      obtain ⟨S, hS⟩ := unlinkObj_tidy (e := e) h hid hs hclean
      exact hS.sound h
    | openInode i o =>
      simp only [Op.allowed, named, Bool.and_eq_true] at hall
      obtain ⟨hid, hdel, -⟩ := reachable_spec h.ties hall.1.1
      simp only [Op.covered, Bool.or_eq_true, decide_eq_true_eq] at hcov
      exact hookInode_sound h hid hdel hcov i
    | closeInode o =>
      simp only [Op.allowed, Bool.and_eq_true] at hall
      obtain ⟨hid, -, hs⟩ := reachable_spec h.ties hall.1
      exact releaseInode_sound h hid hs hclean
    | read o offset n => exact (fileRdLoop_caches n offset n d h (openFile_served h.ties hall)).sound
    | write o offset data writeThrough =>
      simp only [Op.allowed, Bool.and_eq_true] at hall
      exact (wrFile_caches h (openFile_served h.ties hall.1) data offset writeThrough hclean.1 hclean.2).sound
    | resize o size =>
      simp only [Op.allowed, Bool.and_eq_true] at hall
      exact (resizeFile_caches h (openFile_served h.ties hall.1) size hclean).sound
    | setAttribs o =>
      have hdirty : Tidy [] d (d.modObj o fun ob => { ob with dirty := true }) :=
        (Tidy.refl h).same (SameTies.modObj rfl) rfl
      exact (updateOh_tidying (e := e) o none true false 0 _ (hdirty.sound h)).sound (hdirty.sound h)
    | flush o dataSync discardCache => exact htidy (flushFile_tidying o dataSync discardCache)
    | flushAll discard => exact htidy (flushWholeCache_tidying discard)
    | updateDirs => exact (updateDirtyDirs_tidying (e := e) d h).sound h
    | bgGc => exact htidy (checkGc_tidying true)
    | save => exact htidy checkpointSave_tidying

/-- Clean calls keep the cache in order. -/
theorem cacheRun_sound (cs : List CacheCall) : ∀ d, CacheSound g d → RunClean g e d cs →
    CacheSound g (cacheRun g e d cs) := by
  induction cs with
  | nil => exact fun d h _ => h
  | cons c cs ih => exact fun d h hclean => ih _ (cacheStep_sound h c hclean.1) hclean.2

/-- Whatever the driver and the allocator answer, the books of the cache are right after every run from
blank flash in which the calls that invalidate entries meet clean ones. -/
theorem cacheBooks_run (g : Geometry) (e : Env) (bad : ℕ → Bool) (cs : List CacheCall)
    (h : RunClean g e (freshDev g bad) cs) : CacheBooks g e (cacheRun g e (freshDev g bad) cs) :=
  (cacheRun_sound cs _ (freshDev_cacheSound g bad) h).books

/-- Nothing is written past the cache on a device that does not ask for it. -/
theorem writeClean_plain (hby : g.cacheBypassAligned = false) (o : ℕ) (writeThrough : Bool) (fuel : ℕ) :
    ∀ buffer offset d, WriteClean g e o writeThrough fuel buffer offset d := by
  have hround : ∀ o k src d, RoundClean g o k src d := fun o k src d hb => by
    simp [bypasses, hby] at hb
  induction fuel with
  | zero => exact fun _ _ _ => trivial
  | succ fuel ih => exact fun buffer offset d _ => ⟨hround _ _ _ _, fun _ => ih _ _ _⟩

theorem holeClean_plain (hby : g.cacheBypassAligned = false) (o size : ℕ) (d : Dev) : HoleClean g e o size d := by
  have hfill : ∀ fuel pos increase d, FillClean g e o fuel pos increase d := by
    intro fuel
    induction fuel with
    | zero => exact fun _ _ _ => trivial
    | succ fuel ih => exact fun pos increase d _ => ⟨writeClean_plain hby _ _ _ _ _ _, fun _ => ih _ _ _⟩
  exact fun _ _ _ _ => hfill _ _ _ _

theorem write_clean (hby : g.cacheBypassAligned = false) (o offset : ℕ) (data : List UInt8) (writeThrough : Bool)
    (d : Dev) : CallClean g e d (.core (.write o offset data writeThrough)) :=
  ⟨holeClean_plain hby _ _ _, writeClean_plain hby _ _ _ _ _ _⟩

/-- Files are also emptied before they are deleted on a device without soft deletion. -/
theorem runClean_plain (hby : g.cacheBypassAligned = false) (hdel : g.deletesByResize = true)
    (cs : List CacheCall) : ∀ d, RunClean g e d cs := by
  have hcall : ∀ d c, CallClean g e d c := by
    intro d c
    cases c with
    | evict => trivial
    | core op =>
      cases op with
      | write => exact write_clean hby _ _ _ _ _
      | resize => exact holeClean_plain hby _ _ _
      | unlink => exact fun _ => Or.inl hdel
      | closeInode => exact fun _ _ => Or.inl hdel
      | _ => trivial
  induction cs with
  | nil => exact fun _ => trivial
  | cons c cs ih => exact fun d => ⟨hcall d c, ih _⟩

/-- A file is written, read, evicted and unlinked on the sample device. -/
def sampleCalls : List CacheCall :=
  [.core (.create .file objectIdRoot "a".toList []), .core (.write 257 0 (List.replicate 10 1) false),
    .core (.write 257 0 (List.replicate 512 2) false), .core (.read 257 0 20), .evict, .core (.unlink 257)]

theorem sampleCalls_books :
    RunClean sampleGeometry okEnv (freshDev sampleGeometry fun _ => false) sampleCalls ∧
      CacheBooks sampleGeometry okEnv (cacheRun sampleGeometry okEnv (freshDev sampleGeometry fun _ => false) sampleCalls) :=
  have hclean := runClean_plain (g := sampleGeometry) (by decide) (by decide) sampleCalls _
  ⟨hclean, cacheBooks_run sampleGeometry okEnv (fun _ => false) sampleCalls hclean⟩

/-- The sample device, which writes whole chunks past the cache. -/
def alignedGeometry : Geometry :=
  { sampleGeometry with cacheBypassAligned := true }

/-- Ten bytes of a chunk are written, then all of it. -/
def alignedCalls : List CacheCall :=
  [.core (.create .file objectIdRoot "a".toList []), .core (.write 257 0 (List.replicate 10 1) false),
    .core (.write 257 0 (List.replicate 512 2) false)]

/-- The second write takes the entry from the file and leaves it dirty : a chunk is subtracted that nobody
will write. -/
theorem alignedCalls_stale :
    ¬CacheBooks alignedGeometry okEnv
      (cacheRun alignedGeometry okEnv (freshDev alignedGeometry fun _ => false) alignedCalls) := by
  intro h
  have hcount : countDirtyCaches
      (cacheRun alignedGeometry okEnv (freshDev alignedGeometry fun _ => false) alignedCalls) = 1 ∧
      chunksToWrite (cacheRun alignedGeometry okEnv (freshDev alignedGeometry fun _ => false) alignedCalls) = 0 := by
    decide +kernel
  have := h.dirty
  rw [hcount.1, hcount.2] at this
  exact absurd this (by decide)

end Yaffs
