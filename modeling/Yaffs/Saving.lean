import Yaffs.CheckptRecords
import Yaffs.CheckptSpace

/-!
# The stream of a saved device

The bytes `yaffs2_wr_checkpt_data` gives to the stream, and what becomes of the block table while it does :
the blocks that were empty become checkpoint blocks, in order, each with its first page.
-/

namespace Yaffs

open Paging

variable {p : Param} {e : Env} {W : List UInt8} {x : UInt8} {j N : ℕ} {d d₁ : BlockDev}

/-! ## Blocks taken -/

/-- The blocks `j` pages of a stream lie in. -/
def blocksFor (p : Param) (j : ℕ) : ℕ :=
  (j + p.chunksPerBlock - 1) / p.chunksPerBlock

/-- The first `k` empty blocks of `d₁` have become checkpoint blocks. -/
structure Took (p : Param) (d₁ : BlockDev) (k : ℕ) (d : BlockDev) : Prop where
  info : ∀ b, d.blockInfo b =
    if b ∈ (emptyBlocks p d₁).take k then { d₁.blockInfo b with blockState := .checkpoint } else d₁.blockInfo b
  blocks : d.blocksInCheckpt = d₁.blocksInCheckpt + k
  bits : d.chunkBits = d₁.chunkBits
  erased : d.nErasedBlocks = d₁.nErasedBlocks
  free : d.nFreeChunks = d₁.nFreeChunks
  alloc : d.alloc = d₁.alloc
  seqNumber : d.seqNumber = d₁.seqNumber

theorem took_zero (p : Param) (d₁ : BlockDev) : Took p d₁ 0 d₁ :=
  ⟨fun b => by simp, rfl, rfl, rfl, rfl, rfl, rfl⟩

theorem Took.congr {k : ℕ} (h : Took p d₁ k d) {d' : BlockDev} (hinfo : d'.blockInfo = d.blockInfo)
    (hblocks : d'.blocksInCheckpt = d.blocksInCheckpt) (hbits : d'.chunkBits = d.chunkBits)
    (herased : d'.nErasedBlocks = d.nErasedBlocks) (hfree : d'.nFreeChunks = d.nFreeChunks)
    (halloc : d'.alloc = d.alloc)
    (hseq : d'.seqNumber = d.seqNumber) : Took p d₁ k d' where
  info := by rw [hinfo]; exact h.info
  blocks := hblocks.trans h.blocks
  bits := hbits.trans h.bits
  erased := herased.trans h.erased
  free := hfree.trans h.free
  alloc := halloc.trans h.alloc
  seqNumber := hseq.trans h.seqNumber

theorem blocksFor_mono {i : ℕ} (h : i ≤ j) : blocksFor p i ≤ blocksFor p j :=
  Nat.div_le_div_right (by omega)

theorem blocksFor_succ (hp : 0 < p.chunksPerBlock) (j : ℕ) : blocksFor p (j + 1) = j / p.chunksPerBlock + 1 := by
  rw [blocksFor, show j + 1 + p.chunksPerBlock - 1 = j + p.chunksPerBlock by omega, Nat.add_div_right _ hp]

theorem blocksFor_zero (hp : 0 < p.chunksPerBlock) : blocksFor p 0 = 0 := by
  rw [blocksFor, Nat.zero_add]
  exact Nat.div_eq_of_lt (by omega)

theorem blocksFor_of_mod (hp : 0 < p.chunksPerBlock) (h : j % p.chunksPerBlock = 0) :
    blocksFor p j = j / p.chunksPerBlock := by
  cases j with
  | zero => rw [blocksFor_zero hp, Nat.zero_div]
  | succ j =>
    rw [blocksFor_succ hp]
    rcases succ_mod_cases hp j with ⟨-, -, h3⟩ | ⟨-, h2, -⟩
    · exact h3.symm
    · omega

theorem blocksFor_of_mod_ne (hp : 0 < p.chunksPerBlock) (h : j % p.chunksPerBlock ≠ 0) :
    blocksFor p j = j / p.chunksPerBlock + 1 := by
  cases j with
  | zero => exact absurd (Nat.zero_mod _) h
  | succ j =>
    rw [blocksFor_succ hp]
    rcases succ_mod_cases hp j with ⟨-, h2, -⟩ | ⟨-, -, h3⟩
    · exact absurd h2 h
    · rw [h3]

/-- A page that is written into the block `b`. -/
theorem Took.write (hp : 0 < p.chunksPerBlock) (h : Took p d₁ (blocksFor p j) d) {b : ℕ}
    (hblock : (emptyBlocks p d₁)[j / p.chunksPerBlock]? = some b)
    (hchunk : d.checkpt.curChunk = j % p.chunksPerBlock) :
    Took p d₁ (blocksFor p (j + 1)) (checkptTakeBlock b d) := by
  rw [blocksFor_succ hp]
  unfold checkptTakeBlock
  rw [hchunk]
  split_ifs with hmod
  · rw [blocksFor_of_mod hp hmod] at h
    refine ⟨fun b' => ?_, ?_, h.bits, h.erased, h.free, h.alloc, h.seqNumber⟩
    · have hmem : b' ∈ (emptyBlocks p d₁).take (j / p.chunksPerBlock + 1) ↔
          b' ∈ (emptyBlocks p d₁).take (j / p.chunksPerBlock) ∨ b' = b := by
        rw [List.take_add_one, hblock]
        simp
      have hinfo := h.info b'
      simp only [hmem, BlockDev.setState, BlockDev.modBlock, Function.update_apply]
      by_cases hb : b' = b
      · subst hb
        rw [hinfo]
        split_ifs <;> simp_all
      · simp only [hb, if_false, or_false]
        exact hinfo
    · change d.blocksInCheckpt + 1 = _
      rw [h.blocks, Nat.add_assoc]
  · rwa [blocksFor_of_mod_ne hp hmod] at h

/-- A flush that finds a block takes it with its first page. -/
theorem checkptFlushBuffer_took (hp : 0 < p.chunksPerBlock) (h : OnStream p e d₁ W j d)
    (hat : CursorAt p (emptyBlocks p d₁) j d.checkpt) (hres : (p.nReservedBlocks : ℤ) < d₁.nErasedBlocks)
    (hj : j < (emptyBlocks p d₁).length * p.chunksPerBlock) (ht : Took p d₁ (blocksFor p j) d) :
    Took p d₁ (blocksFor p (j + 1)) (checkptFlushBuffer p e d).1 := by
  have hlt := (Nat.div_lt_iff_lt_mul hp).mpr hj
  have hsome := List.getElem?_eq_getElem hlt
  generalize (emptyBlocks p d₁)[j / p.chunksPerBlock] = b at hsome
  obtain ⟨x, hx, hflush⟩ := checkptFlushBuffer_cases p e d
  have htook : Took p d₁ (blocksFor p j) x ∧ x.checkpt.curBlock = some b ∧ x.checkpt.curChunk = j % p.chunksPerBlock := by
    by_cases hmod : j % p.chunksPerBlock = 0
    · obtain ⟨hcur, -⟩ := checkptFindErasedBlock_on hp h hat hres hmod
      rcases hx with ⟨-, rfl⟩ | ⟨hne, -⟩
      · exact ⟨ht.congr rfl rfl rfl rfl rfl rfl rfl, hcur.trans hsome, hmod.symm⟩
      · exact absurd (hat.closed hmod).1 hne
    · have hopen := hat.opened hmod
      rcases hx with ⟨hnone, -⟩ | ⟨-, rfl⟩
      · rw [hopen.1, hsome] at hnone
        exact absurd hnone (by simp)
      · exact ⟨ht, hopen.1.trans hsome, hopen.2.1⟩
  rcases hflush with ⟨hnone, -⟩ | ⟨b', hb', hfl⟩
  · rw [htook.2.1] at hnone
    exact absurd hnone (by simp)
  · obtain rfl : b = b' := Option.some.inj (htook.2.1.symm.trans hb')
    rw [hfl]
    exact (htook.1.write hp hsome htook.2.2).congr rfl rfl rfl rfl rfl rfl rfl

/-! ## Bytes written -/

/-- The writer behind the bytes `W`, with the blocks it has taken for them. -/
structure Saved (p : Param) (e : Env) (d₁ : BlockDev) (W : List UInt8) (d : BlockDev) : Prop where
  streamed : Streamed p e d₁ W d
  took : Took p d₁ (blocksFor p (W.length / p.payload)) d

/-- One more byte, as long as there is a block for it. -/
theorem Saved.put (hp : 0 < p.chunksPerBlock) (hP : 0 < p.payload)
    (hres : (p.nReservedBlocks : ℤ) < d₁.nErasedBlocks)
    (h : Saved p e d₁ W d) (x : UInt8) (hW : W.length + 1 < failPoint p d₁) :
    let y : BlockDev := { d with checkpt := d.checkpt.put x }
    (p.dataBytesPerChunk ≤ y.checkpt.byteOffs →
      (checkptFlushBuffer p e y).2 = true ∧ Saved p e d₁ (W ++ [x]) (checkptFlushBuffer p e y).1) ∧
    (y.checkpt.byteOffs < p.dataBytesPerChunk → Saved p e d₁ (W ++ [x]) y) := by
  have hput := h.streamed.put hP x
  have htook : Took p d₁ (blocksFor p (W.length / p.payload)) { d with checkpt := d.checkpt.put x } :=
    h.took.congr rfl rfl rfl rfl rfl rfl rfl
  have hsize : p.dataBytesPerChunk = checkptHdrSize + p.payload := by
    unfold Param.payload at hP ⊢
    omega
  have hoff := hput.byteOffs
  have hmod := Nat.mod_lt W.length hP
  have hlen : (W ++ [x]).length = W.length + 1 := by simp
  refine ⟨fun hfull => ?_, fun hpart => ?_⟩
  · have hlast : W.length % p.payload + 1 = p.payload := by omega
    obtain ⟨-, -, hdiv⟩ | ⟨hne, -, -⟩ := succ_mod_cases hP W.length
    · have hj : W.length / p.payload < roomPages p d₁ := by
        have hlt : W.length + 1 < (roomPages p d₁ + 1) * p.payload := hW
        have := (Nat.div_lt_iff_lt_mul hP).mpr hlt
        omega
      obtain ⟨hok, hs⟩ := hput.flush hp hP hres hlast hj
      refine ⟨hok, hs, ?_⟩
      rw [hlen, hdiv]
      exact checkptFlushBuffer_took hp hput.onStream hput.cursor hres hj htook
    · omega
  · have hlast : W.length % p.payload + 1 < p.payload := by omega
    obtain ⟨heq, -, -⟩ | ⟨-, -, hdiv⟩ := succ_mod_cases hP W.length
    · omega
    · refine ⟨hput.stays hP hlast, ?_⟩
      rw [hlen, hdiv]
      exact htook

/-- A call of the writer for `n` bytes, of each of which `P` holds whatever blocks have been taken for the
first `N` bytes. -/
theorem checkptWrLoop_saved (hp : 0 < p.chunksPerBlock) (hP : 0 < p.payload)
    (hres : (p.nReservedBlocks : ℤ) < d₁.nErasedBlocks) {byteAt : BlockDev → ℕ → UInt8} {P : ℕ → UInt8 → Prop}
    {N : ℕ} (hN : N < failPoint p d₁)
    (hbyte : ∀ k x i, k ≤ blocksFor p (N / p.payload) → Took p d₁ k x → P i (byteAt x i)) (n : ℕ) :
    ∀ (i : ℕ) (W : List UInt8) (d : BlockDev), W.length + n ≤ N → Saved p e d₁ W d →
      ∃ bs, bs.length = n ∧ (∀ k < n, P (i + k) (bs.getD k 0)) ∧ (checkptWrLoop p e byteAt n i d).2 = true ∧
        Saved p e d₁ (W ++ bs) (checkptWrLoop p e byteAt n i d).1 := by
  induction n with
  | zero => exact fun i W d _ h => ⟨[], rfl, fun k hk => absurd hk (Nat.not_lt_zero k), rfl,
    by rw [List.append_nil]; exact h⟩
  | succ n ih =>
    intro i W d hW h
    obtain ⟨hfull, hpart⟩ := h.put hp hP hres (byteAt d i) (by omega)
    have hrest : ∀ y, Saved p e d₁ (W ++ [byteAt d i]) y → ∃ bs, bs.length = n + 1 ∧
        (∀ k < n + 1, P (i + k) (bs.getD k 0)) ∧ (checkptWrLoop p e byteAt n (i + 1) y).2 = true ∧
        Saved p e d₁ (W ++ bs) (checkptWrLoop p e byteAt n (i + 1) y).1 := by
      intro y hy
      obtain ⟨bs, h1, h2, h3, h4⟩ := ih (i + 1) _ y (by simp; omega) hy
      refine ⟨byteAt d i :: bs, by rw [List.length_cons, h1], fun k hk => ?_, h3, ?_⟩
      · cases k with
        | zero => exact hbyte _ d i (blocksFor_mono (Nat.div_le_div_right (by omega))) h.took
        | succ k =>
          have := h2 k (by omega)
          rwa [show i + 1 + k = i + (k + 1) by omega] at this
      · rwa [List.append_assoc] at h4
    unfold checkptWrLoop
    dsimp only
    split_ifs with hoff hok
    · exact hrest _ (hfull hoff).2
    · exact absurd (hfull hoff).1 hok
    · exact hrest _ (hpart (Nat.lt_of_not_le hoff))

/-! ## Records written -/

/-- The records `rs`, in a stream of `N` bytes, give it bytes of which `S` holds. -/
def Gives (p : Param) (e : Env) (d₁ : BlockDev) (N : ℕ) (rs : List CheckptRecord) (S : List UInt8 → Prop) : Prop :=
  ∀ (W : List UInt8) (d : BlockDev), W.length + recordBytes rs ≤ N → Saved p e d₁ W d →
    ∃ bs, bs.length = recordBytes rs ∧ S bs ∧ (checkptWrAll p e rs d).2 = true ∧
      Saved p e d₁ (W ++ bs) (checkptWrAll p e rs d).1

theorem checkptWrAll_append (rs rs' : List CheckptRecord) (d : BlockDev) :
    checkptWrAll p e (rs ++ rs') d =
      if (checkptWrAll p e rs d).2 then checkptWrAll p e rs' (checkptWrAll p e rs d).1 else checkptWrAll p e rs d := by
  induction rs generalizing d with
  | nil => rfl
  | cons r rs ih =>
    simp only [List.cons_append, checkptWrAll]
    by_cases hok : (checkptWr p e r d).2 = true
    · simp only [if_pos hok]
      exact ih _
    · simp only [if_neg hok]

theorem gives_nil : Gives p e d₁ N [] (· = []) :=
  fun W d _ h => ⟨[], rfl, rfl, rfl, by rw [List.append_nil]; exact h⟩

theorem Gives.append {rs rs' : List CheckptRecord} {S S' : List UInt8 → Prop} (h : Gives p e d₁ N rs S)
    (h' : Gives p e d₁ N rs' S') : Gives p e d₁ N (rs ++ rs') fun bs => ∃ a b, bs = a ++ b ∧ S a ∧ S' b := by
  intro W d hW hd
  rw [recordBytes_append] at hW
  obtain ⟨a, ha, hS, hok, hs⟩ := h W d (by omega) hd
  obtain ⟨b, hb, hS', hok', hs'⟩ := h' (W ++ a) _ (by rw [List.length_append]; omega) hs
  refine ⟨a ++ b, by rw [List.length_append, recordBytes_append, ha, hb], ⟨a, b, rfl, hS, hS'⟩, ?_⟩
  rw [checkptWrAll_append, if_pos hok, ← List.append_assoc]
  exact ⟨hok', hs'⟩

theorem Gives.join {rs rs' : List CheckptRecord} {a b : List UInt8} (h : Gives p e d₁ N rs (· = a))
    (h' : Gives p e d₁ N rs' (· = b)) : Gives p e d₁ N (rs ++ rs') (· = a ++ b) := by
  intro W d hW hd
  obtain ⟨bs, h1, ⟨_, _, rfl, rfl, rfl⟩, h3⟩ := h.append h' W d hW hd
  exact ⟨_, h1, rfl, h3⟩

theorem Gives.flatMap {α : Type*} {f : α → List CheckptRecord} {F : α → List UInt8} (l : List α)
    (h : ∀ a ∈ l, Gives p e d₁ N (f a) (· = F a)) : Gives p e d₁ N (l.flatMap f) (· = l.flatMap F) := by
  induction l with
  | nil => exact gives_nil
  | cons a l ih =>
    rw [List.flatMap_cons, List.flatMap_cons]
    exact (h a List.mem_cons_self).join (ih fun b hb => h b (List.mem_cons_of_mem a hb))

section

variable (hp : 0 < p.chunksPerBlock) (hP : 0 < p.payload) (hres : (p.nReservedBlocks : ℤ) < d₁.nErasedBlocks)

  (hN : N < failPoint p d₁)

include hp hP hres hN

/-- One record. -/
theorem gives_record {r : CheckptRecord} {P : ℕ → UInt8 → Prop}
    (hbyte : ∀ k x i, k ≤ blocksFor p (N / p.payload) → Took p d₁ k x → P i (r.byteAt x i)) :
    Gives p e d₁ N [r] fun bs => bs.length = r.size ∧ ∀ i < r.size, P i (bs.getD i 0) := by
  intro W d hW hd
  have hsize : recordBytes [r] = r.size := by simp [recordBytes]
  obtain ⟨bs, h1, h2, h3, h4⟩ := checkptWrLoop_saved hp hP hres hN hbyte r.size 0 W d (by omega) hd
  refine ⟨bs, h1.trans hsize.symm, ⟨h1, fun i hi => ?_⟩, ?_⟩
  · have := h2 i hi
    rwa [Nat.zero_add] at this
  · have hwr : checkptWr p e r d = checkptWrLoop p e r.byteAt r.size 0 d := rfl
    simp only [checkptWrAll, hwr, h3, if_true, h4, and_self]

/-- A record whose bytes are known. -/
theorem gives_bytes (bs : List UInt8) : Gives p e d₁ N [.ofBytes bs] (· = bs) := by
  intro W d hW hd
  obtain ⟨bs', h1, ⟨hlen, h2⟩, h3⟩ := gives_record (e := e) (r := .ofBytes bs)
      (P := fun i x => x = bs.getD i 0) hp hP hres hN
    (fun _ _ _ _ _ => rfl) W d hW hd
  refine ⟨bs', h1, List.ext_getElem hlen fun i hi hi' => ?_, h3⟩
  have := h2 i hi'
  rwa [List.getD_eq_getElem _ _ hi, List.getD_eq_getElem _ _ hi'] at this

end

/-! ## What is stored of a device -/

section

variable (g : Geometry)

/-- A validity marker. -/
def validityCp (head : ℕ) : List UInt8 :=
  [checkptValiditySize, yaffsMagic, checkpointVersion, head].flatMap u32Bytes

/-- `struct yaffs_checkpt_dev`. -/
def devCp (d : Dev) : List UInt8 :=
  [checkptDevSize, u32 d.nErasedBlocks, d.alloc.block.getD (2 ^ 32 - 1), d.alloc.page, u32 d.nFreeChunks,
    u32 d.nDeletedFiles, u32 d.nUnlinkedFiles, 0, d.seqNumber].flatMap u32Bytes

/-- A level-0 tnode with its first chunk. -/
def leafBytes (q : ℕ × Tnode 0) : List UInt8 :=
  u32Bytes q.1 ++ tnodeBytes g q.2

/-- The tree of a file. -/
def fileStream (f : FileVar) : List UInt8 :=
  f.leafList.flatMap (leafBytes g) ++ u32Bytes (2 ^ 32 - 1)

/-- An object, with its tree. -/
def objStream (o : ℕ) (ob : Obj) : List UInt8 :=
  objCp o ob ++ if ob.variantType = .file then fileStream g ob.file else []

/-- The record behind the last object. -/
def endCp : List UInt8 :=
  (checkptObjSize :: List.replicate 7 (2 ^ 32 - 1)).flatMap u32Bytes

/-- The objects that are stored, in their order. -/
def savedIds (d : Dev) : List ℕ :=
  (bucketOrder d.ids).filter fun o => !(d.obj o).deferredFree

/-- All objects. -/
def objsStream (d : Dev) : List UInt8 :=
  (savedIds d).flatMap (fun o => objStream g o (d.obj o)) ++ endCp

/-- The chunks in use as they are stored. -/
structure StoredBits (d : BlockDev) (bits : List UInt8) : Prop where
  length : bits.length = (chunkBitsRecord g).size
  byte : ∀ i < bits.length, bits.getD i 0 = (chunkBitsRecord g).byteAt d i

/-- What a device with the objects and counters of `d` gives a stream of `N` bytes, up to the sum. -/
def StoredDev (N : ℕ) (d : Dev) (W : List UInt8) : Prop :=
  ∃ table bits, W = validityCp 1 ++ (devCp d ++ (table ++ (bits ++ (objsStream g d ++ validityCp 0)))) ∧
    StoredTable g d.blockInfo (· ∈ (emptyBlocks g d.toBlockDev).take (blocksFor g (N / g.payload))) table ∧
    StoredBits g d.toBlockDev bits

end

section

variable {g : Geometry}

theorem ofWords_singleton (w : ℕ) : CheckptRecord.ofWords [w] = .ofBytes (u32Bytes w) := by
  rw [CheckptRecord.ofWords, List.flatMap_singleton]

/-- The bytes of the tnodes of a file. -/
theorem gives_tnodeRecords (hknown : ∀ bs, Gives g e d₁ N [.ofBytes bs] (· = bs)) (n : ℕ) (t : Tnode n) (off : ℕ) :
    Gives g e d₁ N (tnodeRecords g n t off) (· = (Tnode.leafList n t off).flatMap (leafBytes g)) := by
  induction n generalizing off with
  | zero =>
    rw [tnodeRecords, Tnode.leafList, List.flatMap_singleton, ofWords_singleton]
    exact (hknown (u32Bytes (off * 16))).join (hknown (tnodeBytes g t))
  | succ n ih =>
    rw [Tnode.leafList, List.flatMap_assoc]
    refine Gives.flatMap _ fun i _ => ?_
    cases t.internal i with
    | none => exact gives_nil
    | some t' => exact ih t' _

theorem gives_fileRecords (hknown : ∀ bs, Gives g e d₁ N [.ofBytes bs] (· = bs)) (f : FileVar) :
    Gives g e d₁ N (fileRecords g f) (· = fileStream g f) := by
  rw [fileRecords, ofWords_singleton]
  refine Gives.join ?_ (hknown _)
  unfold FileVar.leafList
  cases f.top with
  | none => exact gives_nil
  | some t => exact gives_tnodeRecords hknown _ t 0

theorem gives_objRecords (hknown : ∀ bs, Gives g e d₁ N [.ofBytes bs] (· = bs)) (o : ℕ) (ob : Obj) :
    Gives g e d₁ N (objRecords g o ob) (· = if ob.deferredFree then [] else objStream g o ob) := by
  unfold objRecords
  split_ifs with hfree hfile
  · exact gives_nil
  · unfold objStream
    rw [if_pos hfile]
    exact (hknown (objCp o ob)).join (gives_fileRecords hknown ob.file)
  · unfold objStream
    rw [if_neg hfile, List.append_nil]
    exact hknown (objCp o ob)

theorem gives_objsRecords (hknown : ∀ bs, Gives g e d₁ N [.ofBytes bs] (· = bs)) (d : Dev) :
    Gives g e d₁ N (objsRecords g d) (· = objsStream g d) := by
  have hobjs : (savedIds d).flatMap (fun o => objStream g o (d.obj o)) =
      (bucketOrder d.ids).flatMap fun o => if (d.obj o).deferredFree then [] else objStream g o (d.obj o) := by
    unfold savedIds
    induction bucketOrder d.ids with
    | nil => rfl
    | cons o l ih => cases hfree : (d.obj o).deferredFree <;> simp [hfree, ih]
  have hrecords : objsRecords g d = (bucketOrder d.ids).flatMap
      (fun o => objRecords g o (d.obj o)) ++ [endRecord] := by
    rw [objsRecords, bucketOrder, List.flatMap_assoc]
  rw [hrecords, objsStream, hobjs]
  exact (Gives.flatMap _ fun o _ => gives_objRecords hknown o (d.obj o)).join (hknown endCp)

/-- All records up to the sum. -/
theorem gives_checkptRecords (hP : 0 < g.payload) (d : Dev) (hres : (g.nReservedBlocks : ℤ) < d.nErasedBlocks)
    (hN : N < failPoint g d.toBlockDev) : Gives g e d.toBlockDev N (checkptRecords g d) (StoredDev g N d) := by
  have hp : 0 < g.chunksPerBlock := by
    have := g.two_le_chunksPerBlock
    omega
  have hknown := gives_bytes (e := e) hp hP hres hN
  have htable := gives_record (e := e) (r := blockInfoRecord g) hp hP hres hN (P := fun i x =>
    ∃ s, (s = (d.blockInfo (g.startBlock + i / 8)).blockState ∨ g.startBlock + i / 8 ∈
        (emptyBlocks g d.toBlockDev).take (blocksFor g (N / g.payload)) ∧ s = .checkpoint) ∧
      x = ({ d.blockInfo (g.startBlock + i / 8) with blockState := s } : BlockInfo).entry.getD (i % 8) 0)
    fun k x i hk ht => by
      have hinfo := ht.info (g.startBlock + i / 8)
      by_cases hmem : g.startBlock + i / 8 ∈ (emptyBlocks g d.toBlockDev).take k
      · rw [if_pos hmem] at hinfo
        refine ⟨.checkpoint, Or.inr ⟨List.take_subset_take_left _ hk hmem, rfl⟩, ?_⟩
        rw [← hinfo]
        rfl
      · rw [if_neg hmem] at hinfo
        refine ⟨_, Or.inl rfl, ?_⟩
        rw [← hinfo]
        rfl
  have hbits := gives_record (e := e) (r := chunkBitsRecord g) hp hP hres hN
    (P := fun i x => x = (chunkBitsRecord g).byteAt d.toBlockDev i) fun k x i _ ht => by
      unfold chunkBitsRecord
      dsimp only
      rw [ht.bits]
  intro W x hW hx
  have hrecords : checkptRecords g d = [.ofBytes (validityCp 1)] ++ ([.ofBytes (devCp d)] ++ ([blockInfoRecord g] ++
      ([chunkBitsRecord g] ++ (objsRecords g d ++ [.ofBytes (validityCp 0)])))) := by
    rw [checkptRecords, List.append_assoc]
    rfl
  rw [hrecords] at hW ⊢
  obtain ⟨bs, h1, ⟨_, _, rfl, rfl, _, _, rfl, rfl, table, _, rfl, ht, bits, _, rfl, hb, _, _, rfl, rfl, rfl⟩, h3⟩ :=
    ((hknown (validityCp 1)).append ((hknown (devCp d)).append (htable.append (hbits.append
      ((gives_objsRecords hknown d).append (hknown (validityCp 0))))))) W x hW hx
  refine ⟨_, h1, ⟨table, bits, rfl, ⟨ht.1, fun i hi => ht.2 i (ht.1 ▸ hi)⟩, ⟨hb.1, fun i hi => hb.2 i (hb.1 ▸ hi)⟩⟩,
    h3⟩

/-! ## The whole -/

/-- The sum of the bytes `W`. -/
def sumCp (W : List UInt8) : List UInt8 :=
  u32Bytes ((byteSum W * 2 ^ 8 % 2 ^ 32) ||| (byteXor W).toNat)

theorem length_sumCp (W : List UInt8) : (sumCp W).length = 4 := rfl

/-- Closing a stream for which there is room, the blocks of all its pages have been taken. -/
theorem checkptClose_took (hp : 0 < p.chunksPerBlock) (hP : 0 < p.payload)
    (hres : (p.nReservedBlocks : ℤ) < d₁.nErasedBlocks) (h : Saved p e d₁ W d)
    (hroom : W.length ≤ roomPages p d₁ * p.payload) : ∃ x, Took p d₁ (blocksFor p (pagesOf p W)) x ∧
      checkptClose p e d = { x with
        nFreeChunks := x.nFreeChunks - (x.blocksInCheckpt * p.chunksPerBlock : ℕ)
        nErasedBlocks := x.nErasedBlocks - x.blocksInCheckpt } := by
  have hoff := h.streamed.byteOffs
  unfold checkptClose pagesOf
  rw [if_pos h.streamed.openWrite]
  by_cases hmod : W.length % p.payload = 0
  · have hnone : ¬d.checkpt.byteOffs ≠ checkptHdrSize := by omega
    rw [if_pos hmod]
    dsimp only
    rw [if_neg hnone]
    exact ⟨d, h.took, rfl⟩
  · have hsome : d.checkpt.byteOffs ≠ checkptHdrSize := by omega
    rw [if_neg hmod]
    dsimp only
    rw [if_pos hsome]
    have hj : W.length / p.payload < roomPages p d₁ := by
      have := pagesOf_le hP hroom
      rw [pagesOf, if_neg hmod] at this
      omega
    exact ⟨_, checkptFlushBuffer_took hp h.streamed.onStream h.streamed.cursor hres hj h.took, rfl⟩

/-- The device `d₁` with its checkpoint `W` written : the blocks taken for it, and its counters. -/
structure Written (g : Geometry) (d₁ : Dev) (W : List UInt8) (d : Dev) : Prop where
  readable : Readable g d₁.toBlockDev W (pagesOf g W) d.nand
  took : ∃ x, Took g d₁.toBlockDev (blocksFor g (pagesOf g W)) x ∧
    d = { d₁ with
      toBlockDev := { x with
        nFreeChunks := x.nFreeChunks - (x.blocksInCheckpt * g.chunksPerBlock : ℕ)
        nErasedBlocks := x.nErasedBlocks - x.blocksInCheckpt
        isCheckpointed := true } }

/-- A checkpoint for which there is room is written whole. -/
theorem wrCheckptData_written {d : Dev} (hP : 0 < g.payload) (hreq : g.checkptRequired = true)
    (hmark : ∀ n, e.markOk n = true) (hw : ∀ n, e.writeOk n = true) (hlay : Layout g d.toBlockDev)
    (hopen : (checkptOpen g e d.toBlockDev).2 = true)
    (hroom : streamBytes g (d.onBlocks (checkptOpen g e)).1 ≤
      roomPages g (d.onBlocks (checkptOpen g e)).1.toBlockDev * g.payload) :
    ∃ W, StoredDev g (streamBytes g (d.onBlocks (checkptOpen g e)).1) (d.onBlocks (checkptOpen g e)).1 W ∧
      (W ++ sumCp W).length = streamBytes g (d.onBlocks (checkptOpen g e)).1 ∧
      Written g (d.onBlocks (checkptOpen g e)).1 (W ++ sumCp W) (wrCheckptData g e d) := by
  have hp : 0 < g.chunksPerBlock := by
    have := g.two_le_chunksPerBlock
    omega
  obtain ⟨-, hres, hs⟩ := checkptOpen_spec (e := e) hp hmark hlay hopen
  have hwr : wrCheckptData g e d =
      let d₁ := (d.onBlocks (checkptOpen g e)).1
      let r := d₁.onBlocks (checkptWrAll g e (checkptRecords g d₁))
      let r := if r.2 then r.1.onBlocks fun b => checkptWr g e (sumRecord b) b else r
      r.1.mapBlocks fun b => { checkptClose g e b with isCheckpointed := r.2 } := by
    unfold wrCheckptData
    dsimp only
    rw [if_pos hreq, if_pos (show (d.onBlocks (checkptOpen g e)).2 = true from hopen)]
  rw [hwr]
  change Streamed g e (d.onBlocks (checkptOpen g e)).1.toBlockDev []
    (d.onBlocks (checkptOpen g e)).1.toBlockDev at hs
  change (g.nReservedBlocks : ℤ) < (d.onBlocks (checkptOpen g e)).1.nErasedBlocks at hres
  generalize (d.onBlocks (checkptOpen g e)).1 = d₁ at *
  have hN : streamBytes g d₁ < failPoint g d₁.toBlockDev := by
    rw [failPoint, Nat.add_mul, Nat.one_mul]
    omega
  have hsaved : Saved g e d₁.toBlockDev [] d₁.toBlockDev := by
    refine ⟨hs, ?_⟩
    rw [List.length_nil, Nat.zero_div, blocksFor_zero hp]
    exact took_zero g.toParam d₁.toBlockDev
  obtain ⟨W, hlen, hW, hok, hsaved'⟩ := gives_checkptRecords hP d₁ hres hN [] d₁.toBlockDev
    (by rw [List.length_nil, streamBytes]; omega) hsaved
  rw [List.nil_append] at hsaved'
  refine ⟨W, hW, ?_⟩
  dsimp only [Dev.onBlocks]
  rw [if_pos hok]
  dsimp only
  generalize (checkptWrAll g e (checkptRecords g d₁) d₁.toBlockDev).1 = x at hsaved'
  have hsum : sumRecord x = .ofBytes (sumCp W) := by
    rw [sumRecord, ofWords_singleton, checkptSum, hsaved'.streamed.sum, hsaved'.streamed.xor, sumCp]
  have hsize : streamBytes g d₁ = recordBytes (checkptRecords g d₁) + 4 := by
    rw [streamBytes, sumRecord, size_ofWords, List.length_singleton]
  have hone : recordBytes [.ofBytes (sumCp W)] = 4 := by
    rw [recordBytes, List.map_singleton, List.sum_singleton]
    exact length_sumCp W
  obtain ⟨bs, -, rfl, hok', hs'⟩ := gives_bytes (e := e) hp hP hres hN (sumCp W) W x
    (by rw [hlen, hone, hsize]) hsaved'
  have hwr' : checkptWrAll g e [.ofBytes (sumCp W)] x = checkptWr g e (sumRecord x) x := by
    rw [hsum, checkptWrAll]
    cases hr : checkptWr g e (.ofBytes (sumCp W)) x with
    | mk y ok => cases ok <;> rfl
  rw [hwr'] at hok' hs'
  have htotal : (W ++ sumCp W).length = streamBytes g d₁ := by
    rw [List.length_append, hlen, length_sumCp, hsize]
  refine ⟨htotal, ?_⟩
  have hread := checkptClose_readable hp hs'.streamed hres hw
  rw [Nat.min_eq_left (pagesOf_le hP (htotal ▸ hroom))] at hread
  obtain ⟨y, hy, hclose⟩ := checkptClose_took hp hP hres hs' (htotal ▸ hroom)
  refine ⟨hread, y, hy, ?_⟩
  rw [hok']
  unfold Dev.mapBlocks
  dsimp only
  rw [hclose]

end

end Yaffs
