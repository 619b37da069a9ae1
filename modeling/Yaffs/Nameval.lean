import Yaffs.Agreement
import Yaffs.Memory

/-!
# Extended attributes

The part of an object header page behind the header holds name-value records, back to back : the
size of the record, the name with its zero, and the value. There is no count. A walk takes a
record while its size is positive and the record ends before the end of the area, so that a
record is only recognised when at least one byte of the area follows it. `nvalSet` accepts a
record that fills the area to its last byte. `Records` says that a list of attributes stands in
the area, and every call that does not write such a record keeps it.
-/

namespace Yaffs

open Memory

/-- The area of a header page that holds attributes, of `data_bytes_per_chunk` less the header.
No position in it overflows an `int`. -/
structure AttrArea where
  /-- `xb_size` -/
  size : ℕ
  /-- the byte order of the sizes : that of the host, unless `swap_endian` -/
  bigEndian : Bool
  size_lt : size < 2 ^ 30

/-- An area that has room for the size of a record, if it has any. -/
structure XattrArea extends AttrArea where
  size_ok : size = 0 ∨ 4 ≤ size

instance : CoeOut XattrArea AttrArea :=
  ⟨XattrArea.toAttrArea⟩

/-- The errors of the name-value store. -/
inductive NvalError where
  | noData
  | exist
  | noSpc
  | range
  deriving DecidableEq, Repr

/-- A name, without its terminating zero, and a value. -/
abbrev Attr : Type :=
  List UInt8 × List UInt8

/-! ## Sizes -/

/-- Conversion to `s32`. -/
def toS32 (n : ℕ) : ℤ :=
  if n % 2 ^ 32 < 2 ^ 31 then (n % 2 ^ 32 : ℕ) else (n % 2 ^ 32 : ℕ) - 2 ^ 32

/-- The four bytes of a size, after `yaffs_do_endian_s32`. -/
def s32Bytes (a : AttrArea) (n : ℕ) : List UInt8 :=
  if a.bigEndian then (u32Bytes n).reverse else u32Bytes n

/-- The size at `p`, after `yaffs_do_endian_s32`. -/
def s32At (a : AttrArea) (m : Mem) (p : ℕ) : ℤ :=
  toS32 (u32OfBytes (if a.bigEndian then (load m p 4).reverse else load m p 4))

/-- The size a walk continues with at `pos`. -/
def nextSize (a : AttrArea) (m : Mem) (pos : ℕ) : ℤ :=
  if pos + 4 < a.size then s32At a m pos else 0

/-- The loop condition of the walks : a record of size `s` at `pos` is recognised. -/
def IsRecord (a : AttrArea) (pos : ℕ) (s : ℤ) : Prop :=
  0 < s ∧ s < a.size ∧ pos + s < a.size

instance (a : AttrArea) (pos : ℕ) (s : ℤ) : Decidable (IsRecord a pos s) :=
  inferInstanceAs (Decidable (_ ∧ _ ∧ _))

/-! ## The calls -/

/-- The loop of `nval_find`, from a record of size `s` at `pos` on. Each turn passes a byte at
least, so that `size` turns are enough. -/
def nvalFindLoop (a : AttrArea) (m : Mem) (name : List UInt8) : ℕ → ℕ → ℤ → Option (ℕ × ℤ)
  | 0, _, _ => none
  | n + 1, pos, s =>
    if IsRecord a pos s then
      if strncmpEq m (pos + 4) s.toNat name then some (pos, s)
      else nvalFindLoop a m name n (pos + s.toNat) (nextSize a m (pos + s.toNat))
    else none

/-- `nval_find` : the position and the size of a record. -/
def nvalFind (a : AttrArea) (m : Mem) (name : List UInt8) : Option (ℕ × ℤ) :=
  nvalFindLoop a m name a.size 0 (s32At a m 0)

/-- The loop of `nval_used`. -/
def nvalUsedLoop (a : AttrArea) (m : Mem) : ℕ → ℕ → ℤ → ℕ
  | 0, pos, _ => pos
  | n + 1, pos, s =>
    if IsRecord a pos s then
      nvalUsedLoop a m n (pos + s.toNat) (nextSize a m (pos + s.toNat))
    else pos

/-- `nval_used` : the bytes the records take. -/
def nvalUsed (a : AttrArea) (m : Mem) : ℕ :=
  nvalUsedLoop a m a.size 0 (s32At a m 0)

/-- `nval_del` : the records behind are moved over the record, the tail is zeroed. -/
def nvalDel (a : AttrArea) (m : Mem) (name : List UInt8) : Mem × Except NvalError Unit :=
  match nvalFind a m name with
  | none => (m, .error .noData)
  | some (pos, _) =>
    if a.size ≤ pos then (m, .error .noData)
    else
      let size := (s32At a m pos).toNat
      let moved := moveDown m pos size (a.size - (pos + size))
      (clear moved (a.size - size) size, .ok ())

/-- `strncpy` of `name` with `n` bytes : what is left is padded with zeros. -/
def strncpyBytes (name : List UInt8) (n : ℕ) : List UInt8 :=
  name.take n ++ List.replicate (n - name.length) 0

/-- A record is written at `start`. The padding of `strncpy` is as long as the whole record, so
that it ends four bytes behind it. -/
def nvalWrite (a : AttrArea) (m : Mem) (start : ℕ) (reclen : ℤ) (namelen : ℕ) (name value : List UInt8) : Mem :=
  let m := store m start (s32Bytes a reclen.toNat)
  let m := store m (start + 4) (strncpyBytes name reclen.toNat)
  store m (start + 4 + (namelen + 1)) value

/-- `nval_set`, with the flags `XATTR_CREATE` and `XATTR_REPLACE`. -/
def nvalSet (a : AttrArea) (m : Mem) (name value : List UInt8) (create replace : Bool) :
    Mem × Except NvalError Unit :=
  let namelen := min name.length a.size
  let found := nvalFind a m name
  let sizeExist := (found.map Prod.snd).getD 0
  if create ∧ found.isSome then (m, .error .exist)
  else if replace ∧ found.isNone then (m, .error .noData)
  else
    let space : ℤ := a.size - nvalUsed a m + sizeExist
    let reclen := toS32 (4 + namelen + 1 + value.length)
    if space < reclen then (m, .error .noSpc)
    else
      let m := if found.isSome then (nvalDel a m name).1 else m
      (nvalWrite a m (nvalUsed a m) reclen namelen name value, .ok ())

/-- The loop of `nval_get` over the name of a record, with the bytes of it that are left. -/
def skipName (a : AttrArea) (m : Mem) : ℕ → ℕ → ℕ × ℕ
  | pos, 0 => (pos, 0)
  | pos, n + 1 => if m pos ≠ 0 ∧ pos < a.size then skipName a m (pos + 1) n else (pos, n + 1)

/-- `nval_get` : the size of the value and the bytes that are copied. -/
def nvalGet (a : AttrArea) (m : Mem) (name : List UInt8) (bsize : ℕ) : Except NvalError (ℤ × List UInt8) :=
  match nvalFind a m name with
  | none => .error .noData
  | some (pos, _) =>
    if pos < a.size then
      let (pos', left) := skipName a m (pos + 4) (s32At a m pos - 4).toNat
      let size : ℤ := (if s32At a m pos < 4 then s32At a m pos - 4 else left) - 1
      if bsize = 0 then .ok (size, [])
      else if size ≤ bsize then .ok (size, load m (pos' + 1) size.toNat)
      else .error .range
    else .error .range

/-- The loop of `nval_list`, with what has been copied. -/
def nvalListLoop (a : AttrArea) (m : Mem) (bsize : ℕ) : ℕ → ℕ → ℤ → List UInt8 → List UInt8
  | 0, _, _, out => out
  | n + 1, pos, s, out =>
    if 4 < s ∧ s ≤ a.size ∧ pos + s < a.size then
      let len := strnlen m (pos + 4) (s - 4).toNat
      if out.length + len + 1 < bsize then
        nvalListLoop a m bsize n (pos + s.toNat) (nextSize a m (pos + s.toNat))
          (out ++ load m (pos + 4) len ++ [0])
      else out
    else out

/-- `nval_list` : the names that are copied, each with its zero. -/
def nvalList (a : AttrArea) (m : Mem) (bsize : ℕ) : List UInt8 :=
  nvalListLoop a m bsize a.size 0 (s32At a m 0) []

variable {a : XattrArea} {m m' : Mem} {rs u v : List Attr} {r : Attr} {name value other : List UInt8}
  {pos n p : ℕ} {s : ℤ}

/-! ## Records in the area -/

/-- The bytes a record takes. -/
def recLen (r : Attr) : ℕ :=
  5 + r.1.length + r.2.length

/-- The bytes of a record. -/
def recBytes (a : XattrArea) (r : Attr) : List UInt8 :=
  s32Bytes a (recLen r) ++ ((r.1 ++ [0]) ++ r.2)

/-- The bytes all records take. -/
def total (rs : List Attr) : ℕ :=
  (rs.map recLen).sum

/-- The attributes `rs` stand in the area. Behind them the walks stop : what the next size would
be is zero as far as it is in the area, or nothing has been written and it is that of erased
flash. -/
structure Records (a : XattrArea) (m : Mem) (rs : List Attr) : Prop where
  stand : At m 0 (rs.flatMap (recBytes a))
  names : (rs.map Prod.fst).Nodup
  terminated : ∀ r ∈ rs, 0 ∉ r.1
  room : rs = [] ∨ total rs < a.size
  stop : (∀ i, total rs ≤ i → i < total rs + 4 → i < a.size → m i = 0) ∨
    (rs = [] ∧ ∀ i, i < a.size → m i = 255)

@[simp] theorem total_nil : total [] = 0 := rfl

@[simp] theorem total_cons : total (r :: rs) = recLen r + total rs := by
  simp [total]

@[simp] theorem total_append : total (u ++ v) = total u + total v := by
  simp [total]

/-- The names of all records, each with its zero. -/
def nameBytes (rs : List Attr) : List UInt8 :=
  rs.flatMap fun r => r.1 ++ [0]

theorem s32Bytes_length (a : AttrArea) (n : ℕ) : (s32Bytes a n).length = 4 := by
  unfold s32Bytes
  split <;> rfl

theorem recBytes_length : (recBytes a r).length = recLen r := by
  simp only [recBytes, recLen, List.length_append, s32Bytes_length, List.length_singleton]
  omega

theorem flatMap_length : (rs.flatMap (recBytes a)).length = total rs := by
  induction rs with
  | nil => rfl
  | cons r rs ih => rw [List.flatMap_cons, List.length_append, recBytes_length, ih, total_cons]

/-- Every record takes five bytes at least. -/
theorem five_mul_length_le : 5 * rs.length ≤ total rs := by
  induction rs with
  | nil => simp
  | cons r rs ih =>
    rw [List.length_cons, total_cons]
    have : 5 ≤ recLen r := by
      unfold recLen
      omega
    omega

theorem toS32_eq (h : n < 2 ^ 31) : toS32 n = n := by
  have : n % 2 ^ 32 = n := Nat.mod_eq_of_lt (by omega)
  rw [toS32, this, if_pos h]

/-- A size that has been written is read back. -/
theorem s32At_eq (h : At m p (s32Bytes a n)) (hn : n < 2 ^ 31) : s32At a m p = n := by
  have hload : load m p 4 = s32Bytes a n := by
    have := load_eq h
    rwa [s32Bytes_length] at this
  have hword : u32OfBytes (u32Bytes n) = n := by
    have := u32OfBytes_u32Bytes n []
    rw [List.append_nil] at this
    rw [this]
    exact Nat.mod_eq_of_lt (by omega)
  unfold s32At
  rw [hload]
  unfold s32Bytes
  split
  · rw [List.reverse_reverse, hword, toS32_eq hn]
  · rw [hword, toS32_eq hn]

/-- Four equal bytes are the same size in either order. -/
theorem s32At_const {x : UInt8} (h : ∀ i, i < 4 → m (p + i) = x) :
    s32At a m p = toS32 (u32OfBytes [x, x, x, x]) := by
  have hload : load m p 4 = [x, x, x, x] := by
    have h0 := h 0 (by omega)
    have h1 := h 1 (by omega)
    have h2 := h 2 (by omega)
    have h3 := h 3 (by omega)
    simp [load, List.range_succ, h1, h2, h3]
    exact h0
  unfold s32At
  rw [hload]
  simp

/-- The loop of `nval_get` ends on the zero of the name. -/
theorem skipName_eq {bs : List UInt8} (hat : At m p (bs ++ [0])) (hbs : 0 ∉ bs) (hp : p + bs.length < a.size)
    (hn : bs.length < n) : skipName a m p n = (p + bs.length, n - bs.length) := by
  induction bs generalizing p n with
  | nil =>
    obtain ⟨n, rfl⟩ := Nat.exists_eq_succ_of_ne_zero (Nat.ne_of_gt hn)
    obtain ⟨hzero, -⟩ := at_cons.mp hat
    rw [skipName, if_neg fun hc => hc.1 hzero]
    rfl
  | cons c bs ih =>
    obtain ⟨n, rfl⟩ := Nat.exists_eq_succ_of_ne_zero (Nat.ne_of_gt (Nat.zero_lt_of_lt hn))
    obtain ⟨hc, hrest⟩ := at_cons.mp hat
    have hne : m p ≠ 0 := fun h0 => hbs (by rw [← h0, hc]; exact List.mem_cons_self)
    rw [List.length_cons] at hp hn
    rw [skipName, if_pos ⟨hne, by omega⟩, ih hrest (fun h0 => hbs (List.mem_cons_of_mem _ h0)) (by omega) (by omega),
      List.length_cons]
    exact Prod.ext (by omega) (by omega)

theorem not_isRecord_of_nonpos (h : s ≤ 0) : ¬ IsRecord a pos s :=
  fun hr => absurd hr.1 (not_lt.mpr h)

namespace Records

variable (h : Records a m rs)

include h

/-- No record is taken behind the last one. -/
theorem not_isRecord_total : ¬ IsRecord a (total rs) (nextSize a m (total rs)) := by
  unfold nextSize
  split
  · rename_i hpos
    rcases h.stop with hz | ⟨rfl, hff⟩
    · have := s32At_const (a := a) (m := m) (p := total rs) (x := 0) fun i hi => hz _ (by omega) (by omega) (by omega)
      rw [this]
      exact not_isRecord_of_nonpos (by decide)
    · have := s32At_const (a := a) (m := m) (p := total []) (x := 255) fun i hi => hff _ (by omega)
      rw [this]
      exact not_isRecord_of_nonpos (by decide)
  · exact not_isRecord_of_nonpos le_rfl

/-- An empty area starts with no record. -/
theorem not_isRecord_zero (hrs : rs = []) : ¬ IsRecord a 0 (s32At a m 0) := by
  subst hrs
  rcases a.size_ok with hsize | hsize
  · rintro ⟨hpos, hlt, -⟩
    omega
  · rcases h.stop with hz | ⟨-, hff⟩
    · have := s32At_const (a := a) (m := m) (p := 0) (x := 0) fun i hi =>
        hz _ (by simp) (by simp only [total_nil]; omega) (by omega)
      rw [this]
      exact not_isRecord_of_nonpos (by decide)
    · have := s32At_const (a := a) (m := m) (p := 0) (x := 255) fun i hi => hff _ (by omega)
      rw [this]
      exact not_isRecord_of_nonpos (by decide)

/-- Where the parts of a record stand. -/
theorem parts (hrs : rs = u ++ r :: v) :
    At m (total u) (s32Bytes a (recLen r)) ∧ At m (total u + 4) (r.1 ++ [0]) ∧
      At m (total u + 4 + (r.1.length + 1)) r.2 := by
  have hstand := h.stand
  rw [hrs, List.flatMap_append, at_append, flatMap_length, Nat.zero_add, List.flatMap_cons, at_append] at hstand
  obtain ⟨-, hrec, -⟩ := hstand
  rw [recBytes, at_append, at_append, s32Bytes_length, List.length_append, List.length_singleton] at hrec
  exact hrec

/-- A record that stands in the area ends before the area does. -/
theorem lt_size (hrs : rs = u ++ r :: v) : total u + recLen r < a.size := by
  rcases h.room with hnil | hroom
  · rw [hrs] at hnil
    simp at hnil
  · rw [hrs, total_append, total_cons] at hroom
    omega

/-- The size of a record is read from the area. -/
theorem s32At_eq (hrs : rs = u ++ r :: v) : s32At a m (total u) = recLen r := by
  have hlt := h.lt_size hrs
  have := a.size_lt
  exact Yaffs.s32At_eq (h.parts hrs).1 (by omega)

theorem isRecord (hrs : rs = u ++ r :: v) : IsRecord a (total u) (recLen r) := by
  have hlt := h.lt_size hrs
  have : 5 ≤ recLen r := by
    unfold recLen
    omega
  exact ⟨by omega, by omega, by omega⟩

end Records

/-- What a walk holds as the next size when it comes to the records `rs`. -/
def StartsWith (a : XattrArea) (pos : ℕ) : List Attr → ℤ → Prop
  | [], s => ¬ IsRecord a pos s
  | r :: _, s => s = recLen r

namespace Records

variable (h : Records a m rs)

include h

/-- The first size a walk reads. -/
theorem startsWith_zero : StartsWith a 0 rs (s32At a m 0) := by
  cases rs with
  | nil => exact h.not_isRecord_zero rfl
  | cons r rs => exact h.s32At_eq (u := []) rfl

/-- The size a walk reads behind the records `u`. -/
theorem startsWith_next (hrs : rs = u ++ v) : StartsWith a (total u) v (nextSize a m (total u)) := by
  cases v with
  | nil =>
    rw [List.append_nil] at hrs
    subst hrs
    exact h.not_isRecord_total
  | cons r v =>
    have hlt := h.lt_size hrs
    have : 5 ≤ recLen r := by
      unfold recLen
      omega
    unfold nextSize
    rw [if_pos (by omega)]
    exact h.s32At_eq hrs

/-- The size a walk reads behind one record more. -/
theorem startsWith_step (hrs : rs = u ++ r :: v) :
    StartsWith a (total u + recLen r) v (nextSize a m (total u + recLen r)) := by
  have := h.startsWith_next (u := u ++ [r]) (v := v) (by rw [hrs, List.append_assoc, List.singleton_append])
  simpa using this

/-- The names are compared as wholes. -/
theorem strncmpEq_eq (hrs : rs = u ++ r :: v) (hname : 0 ∉ name) :
    strncmpEq m (total u + 4) (recLen r) name = decide (r.1 = name) := by
  refine Memory.strncmpEq_eq (h.parts hrs).2.1 (h.terminated r (by rw [hrs]; simp)) hname ?_
  unfold recLen
  omega

/-! ## Walks -/

/-- A name that does not occur is not found. -/
theorem nvalFindLoop_none (hname : 0 ∉ name) (hrs : rs = u ++ v) (hs : StartsWith a (total u) v s)
    (hn : v.length ≤ n) (hnot : name ∉ v.map Prod.fst) : nvalFindLoop a m name n (total u) s = none := by
  induction v generalizing u s n with
  | nil =>
    cases n with
    | zero => rfl
    | succ n => exact if_neg hs
  | cons r v ih =>
    obtain ⟨n, rfl⟩ := Nat.exists_eq_succ_of_ne_zero (Nat.ne_of_gt (lt_of_lt_of_le (Nat.succ_pos _) hn))
    obtain rfl : s = recLen r := hs
    rw [List.map_cons, List.mem_cons, not_or] at hnot
    have hcmp : strncmpEq m (total u + 4) (recLen r) name = false := by
      rw [h.strncmpEq_eq hrs hname]
      exact decide_eq_false fun heq => hnot.1 heq.symm
    have hrec := ih (u := u ++ [r]) (n := n) (by rw [hrs, List.append_assoc, List.singleton_append])
      (by simpa using h.startsWith_step hrs) (by simpa using hn) hnot.2
    rw [nvalFindLoop, if_pos (h.isRecord hrs), Int.toNat_natCast, hcmp]
    simpa using hrec

/-- The record of a name is found where it stands. -/
theorem nvalFindLoop_some {w : List Attr} (hname : 0 ∉ r.1) (hrs : rs = u ++ (v ++ r :: w))
    (hs : StartsWith a (total u) (v ++ r :: w) s) (hn : v.length < n) (hnot : r.1 ∉ v.map Prod.fst) :
    nvalFindLoop a m r.1 n (total u) s = some (total u + total v, (recLen r : ℤ)) := by
  induction v generalizing u s n with
  | nil =>
    obtain ⟨n, rfl⟩ := Nat.exists_eq_succ_of_ne_zero (Nat.ne_of_gt hn)
    obtain rfl : s = recLen r := hs
    rw [List.nil_append] at hrs
    rw [nvalFindLoop, if_pos (h.isRecord hrs), Int.toNat_natCast, h.strncmpEq_eq hrs hname]
    simp
  | cons q v ih =>
    obtain ⟨n, rfl⟩ := Nat.exists_eq_succ_of_ne_zero (Nat.ne_of_gt (Nat.zero_lt_of_lt hn))
    obtain rfl : s = recLen q := hs
    rw [List.map_cons, List.mem_cons, not_or] at hnot
    have hcmp : strncmpEq m (total u + 4) (recLen q) r.1 = false := by
      rw [h.strncmpEq_eq hrs hname]
      exact decide_eq_false fun heq => hnot.1 heq.symm
    have hrec := ih (u := u ++ [q]) (n := n) (by rw [hrs, List.append_assoc, List.singleton_append]; rfl)
      (by simpa using h.startsWith_step hrs) (by simpa using hn) hnot.2
    rw [List.cons_append] at hrs
    rw [nvalFindLoop, if_pos (h.isRecord hrs), Int.toNat_natCast, hcmp]
    simpa [Nat.add_assoc] using hrec

/-- There are no more records than turns. -/
theorem length_le : rs.length ≤ a.size := by
  rcases h.room with rfl | hroom
  · exact Nat.zero_le _
  · have : 5 * rs.length ≤ total rs := five_mul_length_le
    omega

theorem nvalFind_none (hname : 0 ∉ name) (hnot : name ∉ rs.map Prod.fst) : nvalFind a m name = none :=
  h.nvalFindLoop_none (u := []) hname rfl h.startsWith_zero h.length_le hnot

theorem nvalFind_some (hrs : rs = u ++ r :: v) : nvalFind a m r.1 = some (total u, (recLen r : ℤ)) := by
  have hname : 0 ∉ r.1 := h.terminated r (by rw [hrs]; simp)
  have hnames := h.names
  have hlen := h.length_le
  have hstart := h.startsWith_zero
  rw [hrs] at hnames hlen hstart
  have hnot : r.1 ∉ u.map Prod.fst := by
    rw [List.map_append, List.map_cons] at hnames
    intro hmem
    exact (List.nodup_append.mp hnames).2.2 _ hmem _ List.mem_cons_self rfl
  have hlt : u.length < a.size := by
    rw [List.length_append, List.length_cons] at hlen
    omega
  have := h.nvalFindLoop_some (u := []) hname hrs hstart hlt hnot
  simpa [nvalFind] using this

theorem nvalUsedLoop_eq (hrs : rs = u ++ v) (hs : StartsWith a (total u) v s) (hn : v.length ≤ n) :
    nvalUsedLoop a m n (total u) s = total rs := by
  induction v generalizing u s n with
  | nil =>
    rw [List.append_nil] at hrs
    rw [hrs]
    cases n with
    | zero => rfl
    | succ n => exact if_neg hs
  | cons r v ih =>
    obtain ⟨n, rfl⟩ := Nat.exists_eq_succ_of_ne_zero (Nat.ne_of_gt (lt_of_lt_of_le (Nat.succ_pos _) hn))
    obtain rfl : s = recLen r := hs
    have hrec := ih (u := u ++ [r]) (n := n) (by rw [hrs, List.append_assoc, List.singleton_append])
      (by simpa using h.startsWith_step hrs) (by simpa using hn)
    rw [nvalUsedLoop, if_pos (h.isRecord hrs), Int.toNat_natCast]
    simpa using hrec

theorem nvalUsed_eq : nvalUsed a m = total rs :=
  h.nvalUsedLoop_eq (u := []) rfl h.startsWith_zero h.length_le

/-- The value of a record is returned. -/
theorem nvalGet_some (hrs : rs = u ++ r :: v) (bsize : ℕ) :
    nvalGet a m r.1 bsize =
      if bsize = 0 then .ok (r.2.length, [])
      else if r.2.length ≤ bsize then .ok (r.2.length, r.2)
      else .error .range := by
  have hlt := h.lt_size hrs
  have hterm : 0 ∉ r.1 := h.terminated r (by rw [hrs]; simp)
  obtain ⟨-, hname, hvalue⟩ := h.parts hrs
  have hleft : (s32At a m (total u) - 4).toNat = r.1.length + (1 + r.2.length) := by
    rw [h.s32At_eq hrs]
    unfold recLen
    omega
  unfold recLen at hlt
  have hskip : skipName a m (total u + 4) (r.1.length + (1 + r.2.length)) =
      (total u + 4 + r.1.length, 1 + r.2.length) := by
    rw [skipName_eq hname hterm (by omega) (by omega), Nat.add_sub_cancel_left]
  have hsize : ((1 + r.2.length : ℕ) : ℤ) - 1 = r.2.length := by omega
  have hlong : ¬s32At a m (total u) < 4 := by
    rw [h.s32At_eq hrs]
    unfold recLen
    omega
  unfold nvalGet
  rw [h.nvalFind_some hrs]
  simp only [hleft, hskip, if_neg hlong]
  rw [if_pos (by omega), hsize, Int.toNat_natCast, Nat.add_assoc _ r.1.length 1, load_eq hvalue]
  simp only [Nat.cast_le]

theorem nvalGet_none (hname : 0 ∉ name) (hnot : name ∉ rs.map Prod.fst) (bsize : ℕ) :
    nvalGet a m name bsize = .error .noData := by
  unfold nvalGet
  rw [h.nvalFind_none hname hnot]

theorem nvalListLoop_eq {bsize : ℕ} {b : List UInt8} (hrs : rs = u ++ v)
    (hs : StartsWith a (total u) v s) (hn : v.length ≤ n) (hsize : b.length + (nameBytes v).length < bsize) :
    nvalListLoop a m bsize n (total u) s b = b ++ nameBytes v := by
  induction v generalizing u s n b with
  | nil =>
    rw [show nameBytes [] = [] from rfl, List.append_nil]
    cases n with
    | zero => rfl
    | succ n =>
      refine if_neg fun hc => hs ⟨by omega, ?_, hc.2.2⟩
      have := hc.2.2
      omega
  | cons r v ih =>
    obtain ⟨n, rfl⟩ := Nat.exists_eq_succ_of_ne_zero (Nat.ne_of_gt (lt_of_lt_of_le (Nat.succ_pos _) hn))
    obtain rfl : s = recLen r := hs
    have hlt := h.lt_size hrs
    have hterm : 0 ∉ r.1 := h.terminated r (by rw [hrs]; simp)
    obtain ⟨-, hname, -⟩ := h.parts hrs
    have hfive : 5 ≤ recLen r := by
      unfold recLen
      omega
    have hlen : strnlen m (total u + 4) ((recLen r : ℤ) - 4).toNat = r.1.length := by
      refine strnlen_eq hname hterm ?_
      unfold recLen
      omega
    have hcons : nameBytes (r :: v) = (r.1 ++ [0]) ++ nameBytes v := rfl
    rw [hcons, List.length_append, List.length_append, List.length_singleton] at hsize
    have hrec := ih (u := u ++ [r]) (n := n) (b := b ++ r.1 ++ [0])
      (by rw [hrs, List.append_assoc, List.singleton_append])
      (by simpa using h.startsWith_step hrs) (by simpa using hn)
      (by simp only [List.length_append, List.length_singleton]; omega)
    rw [total_append, total_cons, total_nil, Nat.add_zero] at hrec
    rw [nvalListLoop, if_pos ⟨by omega, by omega, by omega⟩, hlen, Int.toNat_natCast]
    simp only
    rw [if_pos (by omega), load_eq (at_append.mp hname).1, hrec, hcons]
    simp only [List.append_assoc]

/-- A buffer that is longer than all names lists them all. -/
theorem nvalList_eq {bsize : ℕ} (hsize : (nameBytes rs).length < bsize) : nvalList a m bsize = nameBytes rs := by
  have := h.nvalListLoop_eq (u := []) (b := []) rfl h.startsWith_zero h.length_le (by simpa using hsize)
  simpa [nvalList] using this

/-! ## Deletion -/

/-- Without a record the others stand as before, in their order. -/
theorem nvalDel_eq (hrs : rs = u ++ r :: v) :
    (nvalDel a m r.1).2 = .ok () ∧ Records a (nvalDel a m r.1).1 (u ++ v) := by
  have hlt := h.lt_size hrs
  have htotal : total rs = total u + recLen r + total v := by
    rw [hrs, total_append, total_cons, Nat.add_assoc]
  have hroom : total rs < a.size := h.room.resolve_left (by rw [hrs]; simp)
  have hstand := h.stand
  rw [hrs, List.flatMap_append, at_append, flatMap_length, Nat.zero_add, List.flatMap_cons, at_append,
    recBytes_length] at hstand
  obtain ⟨hxs, -, hys⟩ := hstand
  have hval : nvalDel a m r.1 =
      (clear (moveDown m (total u) (recLen r) (a.size - (total u + recLen r))) (a.size - recLen r) (recLen r),
        .ok ()) := by
    unfold nvalDel
    rw [h.nvalFind_some hrs]
    simp only
    rw [if_neg (by omega), h.s32At_eq hrs, Int.toNat_natCast]
  rw [hval]
  refine ⟨rfl, ?_⟩
  refine
    { stand := ?_
      names := ?_
      terminated := fun q hq => h.terminated q ?_
      room := Or.inr (by rw [total_append]; omega)
      stop := Or.inl fun i hi hi4 hsize => ?_ }
  · rw [List.flatMap_append, at_append, flatMap_length, Nat.zero_add]
    refine ⟨hxs.congr fun i _ hi => ?_, ?_⟩
    · rw [flatMap_length, Nat.zero_add] at hi
      simp only [clear, moveDown]
      rw [if_neg (by omega), if_neg (by omega)]
    · have hmoved := At.moveDown (n := a.size - (total u + recLen r)) hys (by rw [flatMap_length]; omega)
      refine hmoved.congr fun i hi hi' => ?_
      rw [flatMap_length] at hi'
      simp only [clear]
      rw [if_neg (by omega)]
  · have := h.names
    rw [hrs, List.map_append, List.map_cons] at this
    rw [List.map_append]
    exact this.sublist (List.Sublist.append_left (List.sublist_cons_self _ _) _)
  · rw [hrs]
    rcases List.mem_append.mp hq with hq | hq
    · exact List.mem_append_left _ hq
    · exact List.mem_append_right _ (List.mem_cons_of_mem _ hq)
  · rw [total_append] at hi hi4
    simp only [clear, moveDown]
    by_cases htail : a.size - recLen r ≤ i
    · rw [if_pos (by omega)]
    · rw [if_neg (by omega), if_pos (by omega)]
      rcases h.stop with hz | ⟨hnil, -⟩
      · exact hz _ (by omega) (by omega) (by omega)
      · rw [hrs] at hnil
        simp at hnil

/-! ## Writing -/

/-- A record that leaves a byte of the area free stands behind the others. -/
theorem nvalWrite_eq (hname : 0 ∉ name) (hnot : name ∉ rs.map Prod.fst)
    (hlt : total rs + recLen (name, value) < a.size) :
    Records a (nvalWrite a m (total rs) (recLen (name, value) : ℕ) name.length name value) (rs ++ [(name, value)]) := by
  have hlen : recLen (name, value) = 5 + name.length + value.length := rfl
  have hpad : strncpyBytes name (recLen (name, value)) =
      (name ++ [0]) ++ List.replicate (recLen (name, value) - (name.length + 1)) 0 := by
    have hsucc : recLen (name, value) - name.length = recLen (name, value) - (name.length + 1) + 1 := by omega
    rw [strncpyBytes, List.take_of_length_le (by omega), hsucc, List.replicate_succ, List.append_assoc,
      List.singleton_append]
  have hpadlen : (strncpyBytes name (recLen (name, value))).length = recLen (name, value) := by
    rw [hpad, List.length_append, List.length_append, List.length_singleton, List.length_replicate]
    omega
  unfold nvalWrite
  simp only [Int.toNat_natCast]
  refine
    { stand := ?_
      names := ?_
      terminated := fun q hq => ?_
      room := Or.inr (by simpa using hlt)
      stop := Or.inl fun i hi hi4 hsize => ?_ }
  · rw [List.flatMap_append, at_append, flatMap_length, Nat.zero_add, List.flatMap_singleton, recBytes, at_append,
      s32Bytes_length]
    refine ⟨h.stand.congr fun i _ hi => ?_, ?_, ?_⟩
    · rw [flatMap_length, Nat.zero_add] at hi
      rw [store_of_lt (by omega), store_of_lt (by omega), store_of_lt hi]
    · have hat : At (store m (total rs) (s32Bytes a (recLen (name, value)))) (total rs)
          (s32Bytes a (recLen (name, value))) := at_store
      refine hat.congr fun i _ hi => ?_
      rw [s32Bytes_length] at hi
      rw [store_of_lt (by omega), store_of_lt hi]
    · rw [at_append, List.length_append, List.length_singleton]
      refine ⟨?_, at_store⟩
      have hat : At (store (store m (total rs) (s32Bytes a (recLen (name, value)))) (total rs + 4)
          (strncpyBytes name (recLen (name, value)))) (total rs + 4) (name ++ [0]) := by
        have hstore : At (store (store m (total rs) (s32Bytes a (recLen (name, value)))) (total rs + 4)
            (strncpyBytes name (recLen (name, value)))) (total rs + 4)
            (strncpyBytes name (recLen (name, value))) := at_store
        rw [hpad] at hstore ⊢
        exact (at_append.mp hstore).1
      refine hat.congr fun i _ hi => store_of_lt ?_
      rw [List.length_append, List.length_singleton] at hi
      exact hi
  · rw [List.map_append, List.map_singleton, List.nodup_append]
    refine ⟨h.names, List.nodup_singleton _, fun x hx y hy heq => ?_⟩
    obtain rfl : y = name := List.mem_singleton.mp hy
    exact hnot (heq ▸ hx)
  · rcases List.mem_append.mp hq with hq | hq
    · exact h.terminated q hq
    · rw [List.mem_singleton.mp hq]
      exact hname
  · -- what the padding of the name has left behind the value
    rw [total_append, total_cons, total_nil, Nat.add_zero] at hi hi4
    rw [store_of_ge (by omega), hpad]
    have hi' : i - (total rs + 4) - (name ++ [0]).length < recLen (name, value) - (name.length + 1) := by
      rw [List.length_append, List.length_singleton]
      omega
    have hge : (name ++ [0]).length ≤ i - (total rs + 4) := by
      rw [List.length_append, List.length_singleton]
      omega
    simp only [store]
    rw [if_pos (by omega), List.getElem?_append_right hge, List.getElem?_replicate, if_pos hi']
    rfl

end Records

/-! ## The attributes of an area -/

/-- The attributes without that of `name`. -/
def without (name : List UInt8) (rs : List Attr) : List Attr :=
  rs.filter fun r => r.1 ≠ name

theorem without_of_notMem (hnot : name ∉ rs.map Prod.fst) : without name rs = rs := by
  refine List.filter_eq_self.mpr fun r hr => ?_
  have : r.1 ≠ name := fun heq => hnot (heq ▸ List.mem_map_of_mem hr)
  simpa using this

theorem without_split (hnames : ((u ++ r :: v).map Prod.fst).Nodup) : without r.1 (u ++ r :: v) = u ++ v := by
  rw [List.map_append, List.map_cons, List.nodup_append, List.nodup_cons] at hnames
  obtain ⟨-, ⟨hys, -⟩, hxs⟩ := hnames
  have hx : without r.1 u = u := without_of_notMem fun hmem => hxs _ hmem _ List.mem_cons_self rfl
  have hy : without r.1 v = v := without_of_notMem hys
  unfold without at hx hy ⊢
  rw [List.filter_append, List.filter_cons, hx, hy]
  simp

theorem notMem_without : name ∉ (without name rs).map Prod.fst := by
  intro hmem
  obtain ⟨r, hr, rfl⟩ := List.mem_map.mp hmem
  have := (List.mem_filter.mp hr).2
  simp at this

theorem lookup_split (hnames : ((u ++ r :: v).map Prod.fst).Nodup) :
    (u ++ r :: v).lookup r.1 = some r.2 := by
  rw [List.map_append, List.map_cons, List.nodup_append] at hnames
  refine List.lookup_eq_some_iff.mpr ⟨u, v, rfl, fun q hq => ?_⟩
  have : r.1 ≠ q.1 := fun heq => hnames.2.2 _ (List.mem_map_of_mem hq) _ List.mem_cons_self heq.symm
  simpa using this

theorem lookup_eq_none (hnot : name ∉ rs.map Prod.fst) : rs.lookup name = none := by
  refine List.lookup_eq_none_iff.mpr fun q hq => ?_
  have : name ≠ q.1 := fun heq => hnot (heq ▸ List.mem_map_of_mem hq)
  simpa using this

/-- Other names are looked up as before. -/
theorem lookup_without (hne : other ≠ name) : (without name rs).lookup other = rs.lookup other := by
  induction rs with
  | nil => rfl
  | cons r rs ih =>
    unfold without at ih ⊢
    rw [List.filter_cons, List.lookup_cons]
    by_cases hr : r.1 = name
    · have hbeq : (other == r.1) = false := by simpa [hr] using hne
      rw [if_neg (by simpa using hr), hbeq, ih]
    · rw [if_pos (by simpa using hr), List.lookup_cons, ih]

theorem lookup_append_ne (hne : other ≠ name) : (rs ++ [(name, value)]).lookup other = rs.lookup other := by
  have hbeq : (other == name) = false := by simpa using hne
  rw [List.lookup_append, List.lookup_cons, hbeq]
  simp

/-- A name either has a record or has none. -/
theorem mem_names_split (hmem : name ∈ rs.map Prod.fst) : ∃ u r v, rs = u ++ r :: v ∧ r.1 = name := by
  obtain ⟨r, hr, rfl⟩ := List.mem_map.mp hmem
  obtain ⟨u, v, hrs⟩ := List.append_of_mem hr
  exact ⟨u, r, v, hrs, rfl⟩

/-- A call of `nval_set` that either fails for its flags, or whose sizes fit an `int` and whose
record does not end with the last byte of the area. -/
def SetMeets (a : XattrArea) (rs : List Attr) (name value : List UInt8) (create replace : Bool) : Prop :=
  (create = true ∧ name ∈ rs.map Prod.fst) ∨ (replace = true ∧ name ∉ rs.map Prod.fst) ∨
    5 + min name.length a.size + value.length < 2 ^ 31 ∧
      total (without name rs) + recLen (name, value) ≠ a.size

namespace Records

variable (h : Records a m rs) {create replace : Bool}

include h

theorem nvalFind_isSome (hname : 0 ∉ name) : (nvalFind a m name).isSome = true ↔ name ∈ rs.map Prod.fst := by
  constructor
  · intro hsome
    by_contra hnot
    rw [h.nvalFind_none hname hnot] at hsome
    simp at hsome
  · intro hmem
    obtain ⟨u, r, v, hrs, rfl⟩ := mem_names_split hmem
    rw [h.nvalFind_some hrs]
    rfl

/-- The space `nval_set` finds is what the other records leave. -/
theorem space_eq (hname : 0 ∉ name) :
    (a.size : ℤ) - nvalUsed a m + ((nvalFind a m name).map Prod.snd).getD 0 = a.size - total (without name rs) := by
  rw [h.nvalUsed_eq]
  by_cases hmem : name ∈ rs.map Prod.fst
  · obtain ⟨u, r, v, hrs, rfl⟩ := mem_names_split hmem
    have hnames := h.names
    rw [hrs] at hnames
    rw [h.nvalFind_some hrs, hrs, without_split hnames]
    simp only [Option.map_some, Option.getD_some, total_append, total_cons]
    omega
  · rw [h.nvalFind_none hname hmem, without_of_notMem hmem]
    simp

/-- Once the record of the name is gone, the others stand. -/
theorem others (hname : 0 ∉ name) :
    Records a (if (nvalFind a m name).isSome then (nvalDel a m name).1 else m) (without name rs) := by
  by_cases hmem : name ∈ rs.map Prod.fst
  · rw [if_pos ((h.nvalFind_isSome hname).mpr hmem)]
    obtain ⟨u, r, v, hrs, rfl⟩ := mem_names_split hmem
    have hnames := h.names
    rw [hrs] at hnames
    rw [hrs, without_split hnames]
    exact (h.nvalDel_eq hrs).2
  · rw [if_neg fun hsome => hmem ((h.nvalFind_isSome hname).mp hsome), without_of_notMem hmem]
    exact h

theorem nvalSet_exist (hname : 0 ∉ name) (hc : create = true) (hmem : name ∈ rs.map Prod.fst) :
    nvalSet a m name value create replace = (m, .error .exist) := by
  unfold nvalSet
  simp only
  rw [if_pos ⟨hc, (h.nvalFind_isSome hname).mpr hmem⟩]

theorem nvalSet_noData (hname : 0 ∉ name) (hr : replace = true) (hnot : name ∉ rs.map Prod.fst) :
    nvalSet a m name value create replace = (m, .error .noData) := by
  have hnone := h.nvalFind_none hname hnot
  unfold nvalSet
  simp only [hnone]
  rw [if_neg fun hc => by simpa using hc.2, if_pos ⟨hr, rfl⟩]

/-- A call that its flags allow is refused when the record does not fit, and else puts it behind
the others. -/
theorem nvalSet_eq (hname : 0 ∉ name) (hc : ¬ (create = true ∧ name ∈ rs.map Prod.fst))
    (hr : ¬ (replace = true ∧ name ∉ rs.map Prod.fst))
    (hint : 5 + min name.length a.size + value.length < 2 ^ 31)
    (hne : total (without name rs) + recLen (name, value) ≠ a.size) :
    nvalSet a m name value create replace = (m, .error .noSpc) ∨
      (nvalSet a m name value create replace).2 = .ok () ∧
        Records a (nvalSet a m name value create replace).1 (without name rs ++ [(name, value)]) := by
  have hothers := h.others hname
  have hsome := h.nvalFind_isSome hname
  have hnone : (nvalFind a m name).isNone = true ↔ name ∉ rs.map Prod.fst := by
    rw [← hsome, Option.isNone_iff_eq_none, ← Option.not_isSome_iff_eq_none]
  have hreclen : toS32 (4 + min name.length a.size + 1 + value.length) =
      ((5 + min name.length a.size + value.length : ℕ) : ℤ) := by
    rw [toS32_eq (by omega)]
    omega
  have hlen : recLen (name, value) = 5 + name.length + value.length := rfl
  unfold nvalSet
  simp only
  rw [if_neg (fun hh => hc ⟨hh.1, hsome.mp hh.2⟩), if_neg (fun hh => hr ⟨hh.1, hnone.mp hh.2⟩), h.space_eq hname,
    hreclen]
  rcases Nat.lt_or_ge a.size (total (without name rs) + recLen (name, value)) with hfull | hfits
  · refine Or.inl (if_pos ?_)
    omega
  · right
    have hmin : min name.length a.size = name.length := Nat.min_eq_left (by omega)
    rw [if_neg (by omega), hothers.nvalUsed_eq, hmin]
    exact ⟨rfl, hothers.nvalWrite_eq hname notMem_without (by omega)⟩

end Records

/-- A failing call leaves the memory as it is. -/
theorem nvalSet_error {create replace : Bool} {er : NvalError}
    (h : (nvalSet a m name value create replace).2 = .error er) : (nvalSet a m name value create replace).1 = m := by
  unfold nvalSet at h ⊢
  simp only at h ⊢
  split_ifs at h ⊢ <;> rfl

theorem nvalDel_error {er : NvalError} (h : (nvalDel a m name).2 = .error er) : (nvalDel a m name).1 = m := by
  unfold nvalDel at h ⊢
  split at h
  · rfl
  · simp only at h ⊢
    split_ifs at h ⊢
    rfl

/-! ## Runs -/

/-- What is seen of the area by the calls is the map `rs`. -/
structure IsMap (a : XattrArea) (m : Mem) (rs : List Attr) : Prop where
  /-- `nval_get` returns the value of every name -/
  get : ∀ name, 0 ∉ name → ∀ bsize, nvalGet a m name bsize =
    match rs.lookup name with
    | none => .error .noData
    | some value =>
      if bsize = 0 then .ok (value.length, [])
      else if value.length ≤ bsize then .ok (value.length, value)
      else .error .range
  /-- `nval_list` lists every name once -/
  names : (rs.map Prod.fst).Nodup
  list : ∀ bsize, (nameBytes rs).length < bsize → nvalList a m bsize = nameBytes rs
  /-- `XATTR_CREATE` fails for the names that are present -/
  create : ∀ name value replace, 0 ∉ name →
    ((nvalSet a m name value true replace).2 = .error .exist ↔ (rs.lookup name).isSome)
  /-- `XATTR_REPLACE` fails for the names that are absent -/
  replace : ∀ name value, 0 ∉ name →
    ((nvalSet a m name value false true).2 = .error .noData ↔ rs.lookup name = none)
  del : ∀ name, 0 ∉ name → ((nvalDel a m name).2 = .error .noData ↔ rs.lookup name = none)

/-- `nval_set` fails with `-EEXIST` for `XATTR_CREATE` and a name that is found. -/
theorem nvalSet_eq_exist {create replace : Bool} :
    (nvalSet a m name value create replace).2 = .error .exist ↔
      create = true ∧ (nvalFind a m name).isSome = true := by
  unfold nvalSet
  simp only
  split_ifs with hc hr hspace
  · exact iff_of_true rfl hc
  all_goals exact iff_of_false (by simp) hc

/-- `nval_set` fails with `-ENODATA` for `XATTR_REPLACE` and a name that is not found. -/
theorem nvalSet_eq_noData {replace : Bool} :
    (nvalSet a m name value false replace).2 = .error .noData ↔
      replace = true ∧ (nvalFind a m name).isNone = true := by
  unfold nvalSet
  simp only
  rw [if_neg (by simp)]
  split_ifs with hr hspace
  · exact iff_of_true rfl hr
  all_goals exact iff_of_false (by simp) hr

theorem lookup_isSome : (rs.lookup name).isSome = true ↔ name ∈ rs.map Prod.fst := by
  rw [← not_iff_not, Bool.not_eq_true, Option.isSome_eq_false_iff, Option.isNone_iff_eq_none]
  constructor
  · intro hnone hmem
    obtain ⟨r, hr, rfl⟩ := List.mem_map.mp hmem
    have := List.lookup_eq_none_iff.mp hnone r hr
    simp at this
  · exact lookup_eq_none

theorem lookup_isNone : rs.lookup name = none ↔ name ∉ rs.map Prod.fst := by
  rw [← lookup_isSome, Bool.not_eq_true, Option.isSome_eq_false_iff, Option.isNone_iff_eq_none]

/-- What stands in the area is what the calls see. -/
theorem Records.isMap (h : Records a m rs) : IsMap a m rs where
  get := by
    intro name hname bsize
    by_cases hmem : name ∈ rs.map Prod.fst
    · obtain ⟨u, r, v, hrs, rfl⟩ := mem_names_split hmem
      have hnames := h.names
      rw [hrs] at hnames
      have hlookup : rs.lookup r.1 = some r.2 := by
        rw [hrs]
        exact lookup_split hnames
      rw [hlookup, h.nvalGet_some hrs]
    · rw [lookup_eq_none hmem, h.nvalGet_none hname hmem]
  names := h.names
  list := fun _ hsize => h.nvalList_eq hsize
  create := by
    intro name value replace hname
    rw [nvalSet_eq_exist, lookup_isSome, h.nvalFind_isSome hname]
    exact and_iff_right rfl
  replace := by
    intro name value hname
    rw [nvalSet_eq_noData, lookup_isNone, ← h.nvalFind_isSome hname, Option.isNone_iff_eq_none,
      ← Option.not_isSome_iff_eq_none]
    exact and_iff_right rfl
  del := by
    intro name hname
    rw [lookup_isNone]
    by_cases hmem : name ∈ rs.map Prod.fst
    · obtain ⟨u, r, v, hrs, rfl⟩ := mem_names_split hmem
      rw [(h.nvalDel_eq hrs).1]
      exact iff_of_false (by simp) (not_not.mpr hmem)
    · unfold nvalDel
      rw [h.nvalFind_none hname hmem]
      exact iff_of_true rfl hmem

/-- An area that is filled with zeros or, as erased flash, with ones. -/
def Blank (a : XattrArea) (m : Mem) : Prop :=
  (∀ i, i < a.size → m i = 0) ∨ ∀ i, i < a.size → m i = 255

/-- The attributes after a call of `nval_set` that returned `result`. -/
def afterSet (rs : List Attr) (name value : List UInt8) : Except NvalError Unit → List Attr
  | .ok () => without name rs ++ [(name, value)]
  | .error _ => rs

/-- The attributes after a call of `nval_del` that returned `result`. -/
def afterDel (rs : List Attr) (name : List UInt8) : Except NvalError Unit → List Attr
  | .ok () => without name rs
  | .error _ => rs

/-- Runs of calls on a blank area, with the attributes that have been set and not deleted. -/
inductive NvalRun (a : XattrArea) : Mem → List Attr → Prop
  | blank {m : Mem} : Blank a m → NvalRun a m []
  | set {m : Mem} {rs : List Attr} (name value : List UInt8) (create replace : Bool) :
      NvalRun a m rs → 0 ∉ name → SetMeets a rs name value create replace →
      NvalRun a (nvalSet a m name value create replace).1
        (afterSet rs name value (nvalSet a m name value create replace).2)
  | del {m : Mem} {rs : List Attr} (name : List UInt8) :
      NvalRun a m rs → 0 ∉ name →
      NvalRun a (nvalDel a m name).1 (afterDel rs name (nvalDel a m name).2)

theorem Blank.records (h : Blank a m) : Records a m [] where
  stand := at_nil
  names := List.nodup_nil
  terminated := by simp
  room := Or.inl rfl
  stop := h.imp (fun hz i _ _ hi => hz i hi) fun hff => ⟨rfl, hff⟩

/-- A call of `nval_set` that meets the condition keeps the records. -/
theorem Records.set {create replace : Bool} (h : Records a m rs) (hname : 0 ∉ name)
    (hmeets : SetMeets a rs name value create replace) :
    Records a (nvalSet a m name value create replace).1
      (afterSet rs name value (nvalSet a m name value create replace).2) := by
  by_cases hc : create = true ∧ name ∈ rs.map Prod.fst
  · rw [h.nvalSet_exist hname hc.1 hc.2]
    exact h
  by_cases hr : replace = true ∧ name ∉ rs.map Prod.fst
  · rw [h.nvalSet_noData hname hr.1 hr.2]
    exact h
  obtain ⟨hint, hne⟩ := (hmeets.resolve_left hc).resolve_left hr
  rcases h.nvalSet_eq hname hc hr hint hne with hfull | ⟨hok, hrec⟩
  · rw [hfull]
    exact h
  · rw [hok]
    exact hrec

theorem Records.del (h : Records a m rs) (hname : 0 ∉ name) :
    Records a (nvalDel a m name).1 (afterDel rs name (nvalDel a m name).2) := by
  by_cases hmem : name ∈ rs.map Prod.fst
  · obtain ⟨u, r, v, hrs, rfl⟩ := mem_names_split hmem
    have hnames := h.names
    rw [hrs] at hnames
    obtain ⟨hok, hrec⟩ := h.nvalDel_eq hrs
    rw [hok, hrs, afterDel, without_split hnames]
    exact hrec
  · have hval : nvalDel a m name = (m, .error .noData) := by
      unfold nvalDel
      rw [h.nvalFind_none hname hmem]
    rw [hval]
    exact h

/-- In every run the attributes stand in the area. -/
theorem NvalRun.records (h : NvalRun a m rs) : Records a m rs := by
  induction h with
  | blank hblank => exact hblank.records
  | set name value create replace _ hname hmeets ih => exact ih.set hname hmeets
  | del name _ hname ih => exact ih.del hname

/-- A call for one name leaves what is looked up for the others. -/
theorem afterSet_lookup {result : Except NvalError Unit} (hne : other ≠ name) :
    (afterSet rs name value result).lookup other = rs.lookup other := by
  cases result with
  | ok => rw [afterSet, lookup_append_ne hne, lookup_without hne]
  | error => rfl

theorem afterDel_lookup {result : Except NvalError Unit} (hne : other ≠ name) :
    (afterDel rs name result).lookup other = rs.lookup other := by
  cases result with
  | ok => rw [afterDel, lookup_without hne]
  | error => rfl

/-- The value that has been set is looked up. -/
theorem afterSet_lookup_self : (afterSet rs name value (.ok ())).lookup name = some value := by
  rw [afterSet, List.lookup_append, lookup_eq_none notMem_without]
  simp

/-- Equal attributes are read alike. -/
theorem IsMap.get_eq {u : List Attr} (h : IsMap a m rs) (h' : IsMap a m' u) (hname : 0 ∉ name)
    (heq : u.lookup name = rs.lookup name) (bsize : ℕ) : nvalGet a m' name bsize = nvalGet a m name bsize := by
  rw [h.get name hname, h'.get name hname, heq]

/-- In a run whose records leave the last byte of the area free, the attributes form a map : it is
what the calls see, a call for one name leaves the values of the others, and a call that fails
leaves the memory. -/
theorem nvalRun_isMap (h : NvalRun a m rs) :
    IsMap a m rs ∧
      (∀ name value create replace, 0 ∉ name → SetMeets a rs name value create replace →
        ((nvalSet a m name value create replace).2 = .ok () → ∀ bsize, value.length ≤ bsize → bsize ≠ 0 →
            nvalGet a (nvalSet a m name value create replace).1 name bsize = .ok (value.length, value)) ∧
          (∀ er, (nvalSet a m name value create replace).2 = .error er →
            (nvalSet a m name value create replace).1 = m) ∧
          ∀ other, 0 ∉ other → other ≠ name → ∀ bsize,
            nvalGet a (nvalSet a m name value create replace).1 other bsize = nvalGet a m other bsize) ∧
      ∀ name, 0 ∉ name →
        ((nvalDel a m name).2 = .ok () → ∀ bsize, nvalGet a (nvalDel a m name).1 name bsize = .error .noData) ∧
          (∀ er, (nvalDel a m name).2 = .error er → (nvalDel a m name).1 = m) ∧
          ∀ other, 0 ∉ other → other ≠ name → ∀ bsize,
            nvalGet a (nvalDel a m name).1 other bsize = nvalGet a m other bsize := by
  have hrec := h.records
  refine ⟨hrec.isMap, fun name value create replace hname hmeets => ?_, fun name hname => ?_⟩
  · have hset := (hrec.set hname hmeets).isMap
    refine ⟨fun hok bsize hsize hzero => ?_, fun er her => nvalSet_error her, fun other hother hne bsize => ?_⟩
    · rw [hset.get name hname, hok, afterSet_lookup_self]
      simp only
      rw [if_neg hzero, if_pos hsize]
    · exact hrec.isMap.get_eq hset hother (afterSet_lookup hne) bsize
  · have hdel := (hrec.del hname).isMap
    refine ⟨fun hok bsize => ?_, fun er her => nvalDel_error her, fun other hother hne bsize => ?_⟩
    · rw [hdel.get name hname, hok, afterDel, lookup_eq_none notMem_without]
    · exact hrec.isMap.get_eq hdel hother (afterDel_lookup hne) bsize

/-- The area behind the header of a page of 2048 bytes. -/
def pageArea : XattrArea where
  size := 1536
  bigEndian := false
  size_ok := by decide
  size_lt := by decide

/-- A value of 24 bytes under the name `a`, set in a zeroed area, is a map of one name. -/
theorem pageArea_isMap :
    IsMap pageArea (nvalSet pageArea (fun _ => 0) [97] (List.replicate 24 7) false false).1
      [([97], List.replicate 24 7)] := by
  have hblank : NvalRun pageArea (fun _ => 0) [] := .blank (Or.inl fun _ _ => rfl)
  have hmeets : SetMeets pageArea [] [97] (List.replicate 24 7) false false :=
    Or.inr (Or.inr ⟨by decide, by decide⟩)
  exact (nvalRun_isMap (NvalRun.set [97] (List.replicate 24 7) false false hblank (by decide) hmeets)).1

/-- A record that fills the area to its end is accepted, and then is not found. -/
theorem fullRecord_lost :
    ∃ m, Blank pageArea m ∧ (nvalSet pageArea m [97] (List.replicate 1530 7) false false).2 = .ok () ∧
      nvalGet pageArea (nvalSet pageArea m [97] (List.replicate 1530 7) false false).1 [97] 1530 = .error .noData :=
  ⟨fun _ => 0, Or.inl fun _ _ => rfl, by decide +kernel, by decide +kernel⟩

end Yaffs
