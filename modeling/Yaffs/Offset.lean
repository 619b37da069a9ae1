import Yaffs.ScanOrder

/-!
# Places in a file

`yaffs_addr_to_chunk`, and the places in which the end of a data chunk is computed. The quotient of an
address is cut to 32 bits before it is divided by the odd part of the chunk size, and the end of a
chunk is computed in 32 bits.
-/

namespace Yaffs

/-! ## Addresses -/

/-- `yaffs_addr_to_chunk`, whose `chunk_out` is an `int`. -/
def addrToChunkOut (p : Param) (addr : ℕ) : ℤ × ℕ :=
  (s32 (addrToChunk p addr).1, (addrToChunk p addr).2)

/-- `YAFFS_MAX_FILE_SIZE`, of a host with addresses of 64 bits. -/
def yaffsMaxFileSize : ℕ := 0x800000000 - 1

/-- The chunk and the offset in it are those of the address. -/
structure SplitsAddr (p : Param) (addr : ℕ) : Prop where
  /-- otherwise the code divides by zero -/
  size_pos : 0 < p.dataBytesPerChunk
  chunk : (addrToChunkOut p addr).1 = (addr / p.dataBytesPerChunk : ℕ)
  offset : (addrToChunkOut p addr).2 = addr % p.dataBytesPerChunk

/-- Nothing of the address is cut off. -/
structure AddrFits (p : Param) (addr : ℕ) : Prop where
  size_pos : 0 < p.dataBytesPerChunk
  quotient : addr >>> p.chunkShift < 2 ^ 32
  chunk : addr / p.dataBytesPerChunk < 2 ^ 31

section

variable {p : Param} {addr : ℕ}

/-- `calc_shifts` splits off the powers of two. -/
theorem calcShifts_spec (n : ℕ) : ∀ x, 0 < x → x < 2 ^ n →
    2 ^ calcShifts n x * (x / 2 ^ calcShifts n x) = x ∧ x / 2 ^ calcShifts n x % 2 = 1 := by
  induction n with
  | zero => exact fun x h1 h2 => by omega
  | succ n ih =>
    intro x h1 h2
    unfold calcShifts
    split_ifs with h
    · rw [Nat.pow_zero, Nat.div_one]
      exact ⟨Nat.one_mul x, h.resolve_left h1.ne'⟩
    · have heven : x % 2 = 0 := by omega
      obtain ⟨hmul, hodd⟩ := ih (x / 2) (by omega) (by rw [Nat.pow_succ] at h2; omega)
      rw [Nat.pow_succ, Nat.mul_comm (2 ^ _), ← Nat.div_div_eq_div_mul]
      refine ⟨?_, hodd⟩
      rw [Nat.mul_assoc, hmul]
      omega

theorem chunkDiv_eq (p : Param) : p.chunkDiv = p.dataBytesPerChunk / 2 ^ p.chunkShift :=
  Nat.shiftRight_eq_div_pow _ _

/-- The chunk size is a power of two and an odd number. -/
theorem chunkShift_spec (h1 : 0 < p.dataBytesPerChunk) (h2 : p.dataBytesPerChunk < 2 ^ 32) :
    2 ^ p.chunkShift * p.chunkDiv = p.dataBytesPerChunk ∧ p.chunkDiv % 2 = 1 := by
  rw [chunkDiv_eq]
  exact calcShifts_spec 32 _ h1 h2

/-- The quotient is divided in two steps. -/
theorem shiftRight_div (h1 : 0 < p.dataBytesPerChunk) (h2 : p.dataBytesPerChunk < 2 ^ 32) (addr : ℕ) :
    (addr >>> p.chunkShift) / p.chunkDiv = addr / p.dataBytesPerChunk := by
  rw [Nat.shiftRight_eq_div_pow, Nat.div_div_eq_div_mul, (chunkShift_spec h1 h2).1]

theorem s32_of_lt {n : ℕ} (h : n < 2 ^ 31) : s32 n = n := by
  unfold s32
  rw [bmod_word]
  split_ifs <;> omega

theorem s32_lt (n : ℕ) : s32 n < 2 ^ 31 := by
  unfold s32
  rw [bmod_word]
  split_ifs <;> omega

/-- A quotient that is cut to 32 bits is another one, also when it is divided. -/
theorem mod_div_ne {q div : ℕ} (hdiv : 0 < div) (hle : div ≤ 2 ^ 32) (hq : 2 ^ 32 ≤ q) :
    q % 2 ^ 32 / div ≠ q / div := by
  have hstep : q % 2 ^ 32 + div ≤ q := by
    have := Nat.div_add_mod q (2 ^ 32)
    have : 1 ≤ q / 2 ^ 32 := (Nat.one_le_div_iff (by decide)).mpr hq
    omega
  have hdivs := Nat.div_le_div_right (c := div) hstep
  rw [Nat.add_div_right _ hdiv] at hdivs
  omega

theorem addrToChunkOut_fst (p : Param) (addr : ℕ) : (addrToChunkOut p addr).1 = s32 (addrToChunk p addr).1 := by
  rw [addrToChunkOut]

theorem addrToChunk_fst (p : Param) (addr : ℕ) :
    (addrToChunk p addr).1 = (addr >>> p.chunkShift) % 2 ^ 32 / p.chunkDiv := by
  unfold addrToChunk
  split_ifs with h
  · rw [h, Nat.div_one]
  · rfl

/-- The address is split exactly when nothing of it is cut off. -/
theorem splitsAddr_iff (hsize : p.dataBytesPerChunk < 2 ^ 32) : SplitsAddr p addr ↔ AddrFits p addr := by
  constructor
  · rintro ⟨hpos, hchunk, -⟩
    obtain ⟨-, hodd⟩ := chunkShift_spec hpos hsize
    have hquot := shiftRight_div hpos hsize addr
    have hle : p.chunkDiv ≤ 2 ^ 32 := (chunkDiv_eq p ▸ Nat.div_le_self _ _ : p.chunkDiv ≤ _).trans hsize.le
    rw [addrToChunkOut_fst] at hchunk
    have hint : addr / p.dataBytesPerChunk < 2 ^ 31 := by
      have := s32_lt (addrToChunk p addr).1
      omega
    refine ⟨hpos, ?_, hint⟩
    by_contra hge
    have hword : (addrToChunk p addr).1 < 2 ^ 32 := by
      rw [addrToChunk_fst]
      exact (Nat.div_le_self _ _).trans_lt (Nat.mod_lt _ (by decide))
    rw [← s32_of_lt hint] at hchunk
    have heq := (s32_inj hword (by omega)).mp hchunk
    rw [addrToChunk_fst, ← hquot] at heq
    exact mod_div_ne (by omega) hle (not_lt.mp hge) heq
  · rintro ⟨hpos, hlt, hint⟩
    obtain ⟨hmul, hodd⟩ := chunkShift_spec hpos hsize
    have hfst : (addrToChunk p addr).1 = addr / p.dataBytesPerChunk := by
      rw [addrToChunk_fst, Nat.mod_eq_of_lt hlt, shiftRight_div hpos hsize]
    refine ⟨hpos, ?_, ?_⟩
    · rw [addrToChunkOut_fst, hfst, s32_of_lt hint]
    · change (addrToChunk p addr).2 = _
      unfold addrToChunk
      rw [Nat.mod_eq_of_lt hlt]
      split_ifs with h
      · rw [h, Nat.mul_one] at hmul
        rw [hmul]
      · change u32 ((addr : ℤ) - ((addr >>> p.chunkShift) / p.chunkDiv * p.dataBytesPerChunk : ℕ)) = _
        have hmod := Nat.mod_lt addr hpos
        have hdiv := Nat.div_add_mod' addr p.dataBytesPerChunk
        rw [shiftRight_div hpos hsize]
        unfold u32
        omega

/-- The sample device with inband tags, in chunks of `n` bytes. -/
def inbandParam (n : ℕ) : Param :=
  { sampleGeometry.toParam with inbandTags := true, dataBytesPerChunk := n }

/-- Pages of 2048 bytes with inband tags : the end of the largest file. -/
theorem inbandParam_splits : SplitsAddr (inbandParam 2032) yaffsMaxFileSize :=
  (splitsAddr_iff (by decide)).mpr ⟨by decide, by decide, by decide⟩

/-- Pages of 2060 bytes with inband tags : the address of 16 GiB is taken for the start of the file. -/
theorem inbandParam_not_splits : ¬∀ (p : Param) (addr : ℕ), 0 < p.dataBytesPerChunk → p.dataBytesPerChunk < 2 ^ 32 →
    addr ≤ yaffsMaxFileSize → SplitsAddr p addr := by
  intro h
  have hchunk := (h (inbandParam 2044) (2 ^ 34) (by decide) (by decide) (by decide)).chunk
  exact absurd hchunk (by decide)

end

/-! ## Ends of chunks -/

/-- The end of a data chunk as `yaffs1_scan` computes it. -/
def Param.endpos1 (p : Param) (k nBytes : ℕ) : ℕ :=
  ((k - 1) * p.dataBytesPerChunk + nBytes) % 2 ^ 32

/-- The sizes of a file behind a data chunk that `yaffs1_scan` has met. -/
def raiseSize1 (useHeaderFileSize : Bool) (endpos : ℕ) (f : FileVar) : FileVar :=
  if f.storedSize < endpos then
    { f with storedSize := endpos, fileSize := if useHeaderFileSize then f.fileSize else endpos }
  else f

theorem modFile_self (d : Dev) (o : ℕ) {h : FileVar → FileVar} (hh : h (d.obj o).file = (d.obj o).file) :
    d.modFile o h = d := by
  unfold Dev.modFile Dev.modObj
  simp only [hh]
  rw [Function.update_eq_self]

/-- `yaffs1_scan` on a data chunk raises the sizes of its file. -/
theorem scanData1_eq (g : Geometry) (e : Env) (m : MountParam) (b c : ℕ) (t : ExtTags) (s : ScanDev) :
    scanData1 g e m b c t s =
      (let r := findOrCreateByNumber g e t.objId .file (s.mapBlk (takeScanned b c))
      match r.2 with
      | none => (r.1, false)
      | some o =>
        let q := r.1.onDev (putChunkForwards g e m o t.chunkId c)
        (if (q.1.obj o).variantType = .file then
            q.1.mapDev fun d => d.modFile o (raiseSize1 m.useHeaderFileSize (g.endpos1 t.chunkId t.nBytes))
          else q.1, q.2)) := by
  unfold scanData1
  dsimp only
  cases (findOrCreateByNumber g e t.objId .file (s.mapBlk (takeScanned b c))).2 with
  | none => rfl
  | some o =>
    dsimp only
    generalize (findOrCreateByNumber g e t.objId .file (s.mapBlk (takeScanned b c))).1.onDev
      (putChunkForwards g e m o t.chunkId c) = q
    change _ = (if _ then _ else _, q.2)
    congr 1
    by_cases hfile : (q.1.obj o).variantType = .file
    · rw [if_pos hfile]
      by_cases hlt : (q.1.obj o).file.storedSize < g.endpos1 t.chunkId t.nBytes
      · rw [if_pos ⟨hfile, hlt⟩]
        unfold ScanDev.mapDev Dev.modFile Dev.modObj raiseSize1
        simp only [if_pos hlt]
        rfl
      · rw [if_neg fun hand => hlt hand.2]
        have hself : q.1.toDev.modFile o (raiseSize1 m.useHeaderFileSize (g.endpos1 t.chunkId t.nBytes)) = q.1.toDev :=
          modFile_self q.1.toDev o (if_neg hlt)
        unfold ScanDev.mapDev
        dsimp only
        rw [hself]
    · rw [if_neg hfile, if_neg fun hand => hfile hand.1]

/-- The end of a chunk is computed exactly : where it is written, where `yaffs2_scan_backwards` compares
it with the shrink size and with the size, and where `yaffs1_scan` does. -/
structure EndExact (p : Param) (k nBytes : ℕ) : Prop where
  stored : ∀ f, (raiseStoredSize p k nBytes f).storedSize =
    max f.storedSize ((k - 1) * p.dataBytesPerChunk + nBytes)
  shrink : ∀ size, p.chunkBase k < size ↔ (k - 1) * p.dataBytesPerChunk < size
  scanned : ∀ f, (raiseSize (p.chunkBase k + nBytes) f).storedSize =
    max f.storedSize ((k - 1) * p.dataBytesPerChunk + nBytes)
  scanned1 : ∀ useHeader f, (raiseSize1 useHeader (p.endpos1 k nBytes) f).storedSize =
    max f.storedSize ((k - 1) * p.dataBytesPerChunk + nBytes)

section

variable {p : Param} {k nBytes : ℕ}

theorem raiseSize_storedSize (endpos : ℕ) (f : FileVar) :
    (raiseSize endpos f).storedSize = max f.storedSize endpos := by
  unfold raiseSize
  split_ifs with h
  · exact (Nat.max_eq_right h.le).symm
  · exact (Nat.max_eq_left (not_lt.mp h)).symm

theorem raiseSize1_storedSize (useHeader : Bool) (endpos : ℕ) (f : FileVar) :
    (raiseSize1 useHeader endpos f).storedSize = max f.storedSize endpos := by
  unfold raiseSize1
  rcases lt_or_ge f.storedSize endpos with h | h
  · rw [if_pos h]
    exact (Nat.max_eq_right h.le).symm
  · rw [if_neg (not_lt.mpr h)]
    exact (Nat.max_eq_left h).symm

theorem raiseStoredSize_storedSize (hk : 0 < k) (f : FileVar) : (raiseStoredSize p k nBytes f).storedSize =
    max f.storedSize (((k - 1) * p.dataBytesPerChunk + nBytes) % 2 ^ 32) := by
  unfold raiseStoredSize
  simp only [hk, true_and]
  split_ifs with h
  · exact (Nat.max_eq_right h.le).symm
  · exact (Nat.max_eq_left (not_lt.mp h)).symm

/-- The ends of chunks are exact up to 4 GiB. -/
theorem endExact_iff (hk : 0 < k) :
    EndExact p k nBytes ↔ (k - 1) * p.dataBytesPerChunk + nBytes < 2 ^ 32 := by
  constructor
  · intro h
    have hstored := h.stored {}
    rw [raiseStoredSize_storedSize hk] at hstored
    have hmod := Nat.mod_lt ((k - 1) * p.dataBytesPerChunk + nBytes) (Nat.two_pow_pos 32)
    change max 0 _ = max 0 _ at hstored
    rw [Nat.max_eq_right (Nat.zero_le _), Nat.max_eq_right (Nat.zero_le _)] at hstored
    omega
  · intro h
    have hbase : p.chunkBase k = (k - 1) * p.dataBytesPerChunk := Nat.mod_eq_of_lt (by omega)
    refine ⟨fun f => ?_, fun size => by rw [hbase], fun f => ?_, fun useHeader f => ?_⟩
    · rw [raiseStoredSize_storedSize hk, Nat.mod_eq_of_lt h]
    · rw [raiseSize_storedSize, hbase]
    · rw [raiseSize1_storedSize, Param.endpos1, Nat.mod_eq_of_lt h]

/-- The last byte before 4 GiB, in chunks of 2048 bytes. -/
theorem endExact_below : EndExact { sampleGeometry.toParam with dataBytesPerChunk := 2048 } (2 ^ 21) 2047 :=
  (endExact_iff (by decide)).mpr (by decide)

/-- The chunk that ends at 4 GiB leaves the stored size at 0. -/
theorem endExact_at_4GiB : ¬∀ (p : Param) (k nBytes : ℕ), 0 < k →
    (k - 1) * p.dataBytesPerChunk + nBytes ≤ yaffsMaxFileSize → EndExact p k nBytes := by
  intro h
  have hstored := (h { sampleGeometry.toParam with dataBytesPerChunk := 2048 } (2 ^ 21) 2048 (by decide)
    (by decide)).stored {}
  exact absurd hstored (by decide)

end

end Yaffs
