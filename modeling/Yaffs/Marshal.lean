import Yaffs.Endian
import Yaffs.Offset

/-!
# Attributes in object headers

The core keeps the attributes of an object as numbers of `YTIME_T`, and a header has words of 32 bits
for them. A time is stored twice, its low word alone and both its words in the fields that WinCE
used; a high word of all ones there means that the header has no high word. `marshal_iff` says which
objects come back from their headers as they went in, in whatever byte order the headers are
stored. With a `loff_t` of 32 bits `FSIZE_HIGH` is 0, which is the high word of every size there is.
-/

namespace Yaffs

open ByteOrder

/-! ## The fields of a header -/

/-- `YTIME_T` : `u32` where `CONFIG_YAFFS_USE_32_BIT_TIME_T` is set, or `u64`. -/
inductive TimeType
  | u32
  | u64
  deriving DecidableEq, Repr

def TimeType.bits : TimeType → ℕ
  | .u32 => 32
  | .u64 => 64

/-- The attributes of an object, of their types in `struct yaffs_obj`. -/
structure Attribs (t : TimeType) where
  ystUid : BitVec t.bits
  ystGid : BitVec t.bits
  ystAtime : BitVec t.bits
  ystMtime : BitVec t.bits
  ystCtime : BitVec t.bits
  ystRdev : UInt32
  deriving DecidableEq, Repr

/-- A value of 32 bits is stored in a header. -/
def toU32 {w : ℕ} (x : BitVec w) : UInt32 :=
  ⟨x.setWidth 32⟩

/-- `yaffs_oh_time_load` : `yst_time` and the two words of `win_time`. -/
def ohTimeLoad (t : TimeType) (timeval : BitVec t.bits) : UInt32 × UInt32 × UInt32 :=
  let lower := toU32 timeval
  let upper := match t with
    | .u32 => 0
    | .u64 => toU32 (timeval >>> 32)
  (lower, lower, upper)

/-- A time of two words; `YTIME_T` may have no room for the high one. -/
def timeOfWords (t : TimeType) (upper lower : UInt32) : BitVec t.bits :=
  match t with
  | .u64 => (upper.toBitVec.setWidth 64 <<< 32) ||| lower.toBitVec.setWidth 64
  | .u32 => lower.toBitVec

/-- `yaffs_oh_time_fetch`. -/
def ohTimeFetch (t : TimeType) (ystTime winTime0 winTime1 : UInt32) : BitVec t.bits :=
  if winTime1 = 0xffffffff then timeOfWords t 0 ystTime else timeOfWords t winTime1 winTime0

variable {t : TimeType}

/-- `yaffs_load_attribs_oh`. -/
def loadAttribsOh (oh : HdrWords) (a : Attribs t) : HdrWords :=
  let ctime := ohTimeLoad t a.ystCtime
  let mtime := ohTimeLoad t a.ystMtime
  let atime := ohTimeLoad t a.ystAtime
  { oh with
    ystUid := toU32 a.ystUid
    ystGid := toU32 a.ystGid
    ystCtime := ctime.1
    winCtime0 := ctime.2.1
    winCtime1 := ctime.2.2
    ystMtime := mtime.1
    winMtime0 := mtime.2.1
    winMtime1 := mtime.2.2
    ystAtime := atime.1
    winAtime0 := atime.2.1
    winAtime1 := atime.2.2
    ystRdev := a.ystRdev }

/-- `yaffs_load_attribs`. -/
def loadAttribs (t : TimeType) (oh : HdrWords) : Attribs t where
  ystUid := oh.ystUid.toBitVec.setWidth t.bits
  ystGid := oh.ystGid.toBitVec.setWidth t.bits
  ystCtime := ohTimeFetch t oh.ystCtime oh.winCtime0 oh.winCtime1
  ystMtime := ohTimeFetch t oh.ystMtime oh.winMtime0 oh.winMtime1
  ystAtime := ohTimeFetch t oh.ystAtime oh.winAtime0 oh.winAtime1
  ystRdev := oh.ystRdev

/-- `yaffs_oh_to_size`, of a header that is in the order of the flash if `doEndian` is set. -/
def ohToSizeIn (swap : Bool) (oh : HdrWords) (doEndian : Bool) : ℕ :=
  ohToSize
    { oh with
      fileSizeLow := doEndianU32 (doEndian && swap) oh.fileSizeLow
      fileSizeHigh :=
        if oh.fileSizeHigh = 0xffffffff then oh.fileSizeHigh
        else doEndianU32 (doEndian && swap) oh.fileSizeHigh }

/-- The header `yaffs_update_oh` writes for the attributes and the size, over what it has of other fields. -/
def storedHdr (swap : Bool) (oh : HdrWords) (a : Attribs t) (n : ℕ) : HdrWords :=
  doEndianOh swap (ohSizeLoad swap (loadAttribsOh oh a) n false)

/-- The attributes and the size of an object come back from its header, and gc patches a stored header
as if it had decoded it, changed it and encoded it again. -/
structure Marshals (swap : Bool) (oh : HdrWords) (a : Attribs t) (n : ℕ) : Prop where
  attribs : loadAttribs t (doEndianOh swap (storedHdr swap oh a n)) = a
  size : ohToSizeIn swap (doEndianOh swap (storedHdr swap oh a n)) false = n
  sizeStored : ohToSizeIn swap (storedHdr swap oh a n) true = n
  patch : ∀ stored fileSize, gcHdrWords swap fileSize stored =
    doEndianOh swap (gcHdrWords false fileSize (doEndianOh swap stored))

/-- The header has room for the attributes : owner and group have 32 bits, and the high word of no time is
the one that stands for none. -/
structure Storable (a : Attribs t) : Prop where
  uid : a.ystUid.toNat < 2 ^ 32
  gid : a.ystGid.toNat < 2 ^ 32
  atime : a.ystAtime.toNat < 0xffffffff * 2 ^ 32
  mtime : a.ystMtime.toNat < 0xffffffff * 2 ^ 32
  ctime : a.ystCtime.toNat < 0xffffffff * 2 ^ 32

/-! ## Times -/

theorem toNat_toU32 {w : ℕ} (x : BitVec w) : (toU32 x).toNat = x.toNat % 2 ^ 32 := by
  simp [toU32, UInt32.toNat]

/-- A number comes back from the word it is stored in if it has 32 bits. -/
theorem setWidth_toU32 (x : BitVec t.bits) :
    (toU32 x).toBitVec.setWidth t.bits = x ↔ x.toNat < 2 ^ 32 := by
  have hlow : (toU32 x).toBitVec.toNat = x.toNat % 2 ^ 32 := toNat_toU32 x
  have hle : 32 ≤ t.bits := by cases t <;> decide
  have hpow : 2 ^ 32 ≤ 2 ^ t.bits := Nat.pow_le_pow_right (by decide) hle
  rw [← BitVec.toNat_inj, BitVec.toNat_setWidth, hlow]
  have hlt : x.toNat % 2 ^ 32 < 2 ^ t.bits := lt_of_lt_of_le (Nat.mod_lt _ (by decide)) hpow
  rw [Nat.mod_eq_of_lt hlt]
  constructor
  · intro h
    rw [← h]
    exact Nat.mod_lt _ (by decide)
  · exact Nat.mod_eq_of_lt

theorem timeOfWords_toNat (upper lower : UInt32) :
    (timeOfWords .u64 upper lower).toNat = upper.toNat * 2 ^ 32 + lower.toNat := by
  have hupper : upper.toBitVec.toNat < 2 ^ 32 := upper.toBitVec.isLt
  have hlower : lower.toBitVec.toNat < 2 ^ 32 := lower.toBitVec.isLt
  have hu : (upper.toBitVec.setWidth 64 <<< 32).toNat = 2 ^ 32 * upper.toNat := by
    rw [BitVec.toNat_shiftLeft, BitVec.toNat_setWidth, Nat.mod_eq_of_lt (by omega), Nat.shiftLeft_eq,
      Nat.mod_eq_of_lt (by omega), Nat.mul_comm]
    rfl
  have hl : (lower.toBitVec.setWidth 64).toNat = lower.toNat := by
    rw [BitVec.toNat_setWidth]
    exact Nat.mod_eq_of_lt (by omega)
  change ((upper.toBitVec.setWidth 64 <<< 32) ||| lower.toBitVec.setWidth 64).toNat = _
  have hlower' : lower.toNat < 2 ^ 32 := hlower
  rw [BitVec.toNat_or, hu, hl, ← Nat.two_pow_add_eq_or_of_lt hlower', Nat.mul_comm]

/-- A time comes back unless its high word is the one that stands for none. -/
theorem ohTimeFetch_ohTimeLoad (t : TimeType) (x : BitVec t.bits) :
    ohTimeFetch t (ohTimeLoad t x).1 (ohTimeLoad t x).2.1 (ohTimeLoad t x).2.2 = x ↔
      x.toNat < 0xffffffff * 2 ^ 32 := by
  cases t with
  | u32 =>
    have hx : x.toNat < 2 ^ 32 := x.isLt
    have hback : ohTimeFetch .u32 (ohTimeLoad .u32 x).1 (ohTimeLoad .u32 x).2.1 (ohTimeLoad .u32 x).2.2 = x :=
      BitVec.setWidth_eq x
    exact ⟨fun _ => lt_of_lt_of_le hx (by decide), fun _ => hback⟩
  | u64 =>
    have hx : x.toNat < 2 ^ 64 := x.isLt
    have hlower : (toU32 x).toNat = x.toNat % 2 ^ 32 := toNat_toU32 x
    have hupper : (toU32 (x >>> 32)).toNat = x.toNat / 2 ^ 32 := by
      rw [toNat_toU32, BitVec.toNat_ushiftRight, Nat.shiftRight_eq_div_pow]
      exact Nat.mod_eq_of_lt (by omega)
    have hnone : toU32 (x >>> 32) = 0xffffffff ↔ x.toNat / 2 ^ 32 = 0xffffffff := by
      rw [← UInt32.toNat_inj, hupper]
      rfl
    change (if toU32 (x >>> 32) = 0xffffffff then timeOfWords .u64 0 (toU32 x)
      else timeOfWords .u64 (toU32 (x >>> 32)) (toU32 x)) = x ↔ _
    rw [← BitVec.toNat_inj, apply_ite BitVec.toNat, timeOfWords_toNat, timeOfWords_toNat, hlower, hupper]
    by_cases hall : toU32 (x >>> 32) = 0xffffffff
    · -- the high word is lost
      have hlost := hnone.mp hall
      rw [if_pos hall, UInt32.toNat_zero]
      omega
    · have hword := mt hnone.mpr hall
      rw [if_neg hall]
      omega

/-! ## Headers -/

theorem doEndianOh_doEndianOh (swap : Bool) (oh : HdrWords) : doEndianOh swap (doEndianOh swap oh) = oh := by
  have h := doEndian_doEndian swap (.objHdr oh)
  exact Record.objHdr.inj h

theorem storedHdr_decoded (swap : Bool) (oh : HdrWords) (a : Attribs t) (n : ℕ) :
    doEndianOh swap (storedHdr swap oh a n) = ohSizeLoad swap (loadAttribsOh oh a) n false :=
  doEndianOh_doEndianOh swap _

theorem loadAttribs_loadAttribsOh (oh : HdrWords) (a : Attribs t) :
    loadAttribs t (loadAttribsOh oh a) = a ↔ Storable a := by
  obtain ⟨uid, gid, atime, mtime, ctime, rdev⟩ := a
  have hfields : loadAttribs t (loadAttribsOh oh ⟨uid, gid, atime, mtime, ctime, rdev⟩) =
      ⟨uid, gid, atime, mtime, ctime, rdev⟩ ↔
      (toU32 uid).toBitVec.setWidth t.bits = uid ∧ (toU32 gid).toBitVec.setWidth t.bits = gid ∧
      ohTimeFetch t (ohTimeLoad t atime).1 (ohTimeLoad t atime).2.1 (ohTimeLoad t atime).2.2 = atime ∧
      ohTimeFetch t (ohTimeLoad t mtime).1 (ohTimeLoad t mtime).2.1 (ohTimeLoad t mtime).2.2 = mtime ∧
      ohTimeFetch t (ohTimeLoad t ctime).1 (ohTimeLoad t ctime).2.1 (ohTimeLoad t ctime).2.2 = ctime := by
    simp only [loadAttribs, loadAttribsOh, Attribs.mk.injEq, and_true]
  rw [hfields]
  simp only [setWidth_toU32, ohTimeFetch_ohTimeLoad]
  exact ⟨fun ⟨h1, h2, h3, h4, h5⟩ => ⟨h1, h2, h3, h4, h5⟩, fun ⟨h1, h2, h3, h4, h5⟩ => ⟨h1, h2, h3, h4, h5⟩⟩

/-- No swapped word is all ones but the word of all ones itself. -/
theorem doEndianU32_ones (swap : Bool) (x : UInt32) : doEndianU32 swap x = 0xffffffff ↔ x = 0xffffffff := by
  have hones : swap32 0xffffffff = 0xffffffff := by decide
  cases swap with
  | false => rfl
  | true =>
    constructor
    · intro h
      have := congrArg swap32 h
      rwa [hones, doEndianU32, if_pos rfl, swap32_swap32] at this
    · rintro rfl
      exact hones

/-- The size comes back, be the header in the order of the host or in that of the flash. -/
theorem ohToSizeIn_ohSizeLoad (swap : Bool) (oh : HdrWords) (doEndian : Bool) {n : ℕ} (hn : n ≤ yaffsMaxFileSize) :
    ohToSizeIn swap (ohSizeLoad swap oh n doEndian) doEndian = n := by
  have hmax : yaffsMaxFileSize < 2 ^ 35 := by decide
  have hback : ∀ x : UInt32, doEndianU32 (doEndian && swap) (doEndianU32 (doEndian && swap) x) = x := by
    intro x
    unfold doEndianU32
    split_ifs
    · exact swap32_swap32 x
    · rfl
  have hlow : (UInt32.ofNat n).toNat = n % 2 ^ 32 := UInt32.toNat_ofNat'
  have hhigh : (UInt32.ofNat (n / 2 ^ 32)).toNat = n / 2 ^ 32 := by
    rw [UInt32.toNat_ofNat']
    exact Nat.mod_eq_of_lt (by omega)
  have hne : UInt32.ofNat (n / 2 ^ 32) ≠ 0xffffffff := by
    intro h
    have := congrArg UInt32.toNat h
    rw [hhigh] at this
    have hones : (0xffffffff : UInt32).toNat = 0xffffffff := rfl
    omega
  have hne' := mt (doEndianU32_ones (doEndian && swap) _).mp hne
  simp only [ohToSizeIn, ohSizeLoad, if_neg hne', hback, ohToSize, ne_eq, hne, not_false_eq_true, if_true, hlow, hhigh]
  omega

theorem ohSizeLoad_stored (swap : Bool) (oh : HdrWords) (n : ℕ) :
    doEndianOh swap (ohSizeLoad swap oh n false) = ohSizeLoad swap (doEndianOh swap oh) n true := by
  cases swap <;> rfl

/-- The attributes and the size come back from the header, whatever its byte order, exactly if the header
has room for the attributes; the patch of gc is always that of the decoded header. -/
theorem marshal_iff (swap : Bool) (oh : HdrWords) (a : Attribs t) {n : ℕ} (hn : n ≤ yaffsMaxFileSize) :
    Marshals swap oh a n ↔ Storable a := by
  have hattribs : loadAttribs t (doEndianOh swap (storedHdr swap oh a n)) = loadAttribs t (loadAttribsOh oh a) := by
    rw [storedHdr_decoded]
    rfl
  constructor
  · intro h
    exact (loadAttribs_loadAttribsOh oh a).mp (hattribs ▸ h.attribs)
  · intro h
    refine ⟨hattribs.trans ((loadAttribs_loadAttribsOh oh a).mpr h), ?_, ?_, fun stored fileSize => ?_⟩
    · rw [storedHdr_decoded]
      exact ohToSizeIn_ohSizeLoad swap _ false hn
    · unfold storedHdr
      rw [ohSizeLoad_stored]
      exact ohToSizeIn_ohSizeLoad swap _ true hn
    · have hpatch := gcHdrWords_doEndianOh swap fileSize (doEndianOh swap stored)
      rwa [doEndianOh_doEndianOh] at hpatch

/-- A file of a sample size with the attributes of an object of the current time. -/
def sampleAttribs (mtime : BitVec 64) : Attribs .u64 :=
  { ystUid := 1000, ystGid := 1000, ystAtime := 1700000000, ystMtime := mtime, ystCtime := 1700000000
    ystRdev := 0 }

/-- An empty header, as `yaffs_update_oh` wipes it. -/
def erasedHdr : HdrWords :=
  { type := 0xffffffff, parentObjId := 0xffffffff, sumNoLongerUsed := [], name := [], ystMode := 0xffffffff
    ystUid := 0xffffffff, ystGid := 0xffffffff, ystAtime := 0xffffffff, ystMtime := 0xffffffff
    ystCtime := 0xffffffff, fileSizeLow := 0xffffffff, equivId := 0xffffffff, aliasName := []
    ystRdev := 0xffffffff, winCtime0 := 0xffffffff, winCtime1 := 0xffffffff, winAtime0 := 0xffffffff
    winAtime1 := 0xffffffff, winMtime0 := 0xffffffff, winMtime1 := 0xffffffff
    inbandShadowedObjId := 0xffffffff, inbandIsShrink := 0xffffffff, fileSizeHigh := 0xffffffff
    reserved := 0xffffffff, shadowsObj := 0xffffffff, isShrink := 0xffffffff }

/-- A header in the other byte order marshals an object of the current time. -/
theorem sampleAttribs_marshals : Marshals true erasedHdr (sampleAttribs 1700000000) 5000000000 :=
  (marshal_iff true erasedHdr (sampleAttribs 1700000000) (by decide)).mpr
    ⟨by decide, by decide, by decide, by decide, by decide⟩

/-- A time one second before the epoch comes back as one in the year 2106. -/
theorem sampleAttribs_not_marshals : (loadAttribs .u64 (doEndianOh false
      (storedHdr false erasedHdr (sampleAttribs (-1)) 0))).ystMtime = 0xffffffff ∧
    ¬Marshals false erasedHdr (sampleAttribs (-1)) 0 :=
  ⟨by decide, fun h => absurd h.attribs (by decide)⟩

end Yaffs
