import Yaffs.Header
import Yaffs.Memory

/-!
# Names in object headers

A name is cut or converted three times : `yaffs_load_oh_from_name` puts it into the header, with one
byte for a character when it fits ASCII, `yaffs_load_name_from_oh` takes it out again, and a name of
up to 15 characters is also kept in the object. The header has room for `YAFFS_MAX_NAME_LENGTH`
characters and a zero, which is what the checks of paths and names allow, but one character less is
copied, or two less when the name is stored as unicode. `reloadName_eq` says what comes back, and
`survives_iff` which names are found again.
-/

namespace Yaffs

open Memory

/-- How the core is built and mounted, as far as names go. -/
structure NameMode where
  /-- `CONFIG_YAFFS_UNICODE` : a `YCHAR` has 16 bits. -/
  unicode : Bool
  /-- `CONFIG_YAFFS_AUTO_UNICODE`, and `auto_unicode` is set. -/
  autoUnicode : Bool
  /-- `char` is signed. -/
  charSigned : Bool
  bigEndian : Bool

/-- A name as its `YCHAR`s, without the terminating zero. -/
abbrev YName := List ℕ

namespace NameMode

variable (m : NameMode)

/-- `YAFFS_MAX_NAME_LENGTH`. -/
def maxNameLength : ℕ :=
  if m.unicode then 127 else 255

/-- `sizeof(YCHAR)`. -/
def unitSize : ℕ :=
  if m.unicode then 2 else 1

/-! ## Fields of characters -/

/-- The `YCHAR` at index `i` of a field. -/
def unitAt (f : Mem) (i : ℕ) : ℕ :=
  if m.unicode then
    if m.bigEndian then (f (2 * i)).toNat * 256 + (f (2 * i + 1)).toNat
    else (f (2 * i + 1)).toNat * 256 + (f (2 * i)).toNat
  else (f i).toNat

/-- The field with the `YCHAR` `c` at index `i`. -/
def setUnit (f : Mem) (i c : ℕ) : Mem :=
  if m.unicode then
    if m.bigEndian then store f (2 * i) [UInt8.ofNat (c / 256), UInt8.ofNat c]
    else store f (2 * i) [UInt8.ofNat c, UInt8.ofNat (c / 256)]
  else store f i [UInt8.ofNat c]

/-- `strncpy` of `n` `YCHAR`s into a field, from index `p` on. -/
def strncpyUnits (f : Mem) : ℕ → YName → ℕ → Mem
  | _, _, 0 => f
  | p, [], n + 1 => m.setUnit (strncpyUnits f (p + 1) [] n) p 0
  | p, c :: cs, n + 1 => m.setUnit (strncpyUnits f (p + 1) cs n) p c

/-- The string `strncpy` takes out of a field into a wiped buffer, `n` `YCHAR`s at most. -/
def readUnits (f : Mem) : ℕ → ℕ → YName
  | _, 0 => []
  | p, n + 1 => if m.unitAt f p = 0 then [] else m.unitAt f p :: readUnits f (p + 1) n

/-- A `char` as a `YCHAR`. -/
def ofChar (w : ℕ) : ℕ :=
  if m.unicode ∧ m.charSigned ∧ 0x80 ≤ w then 0xff00 + w else w

/-- The loop of `yaffs_load_name_from_oh` over a name stored as ASCII. -/
def readAscii (f : Mem) : ℕ → ℕ → YName
  | _, 0 => []
  | p, n + 1 => if f p = 0 then [] else m.ofChar (f p).toNat :: readAscii f (p + 1) n

/-! ## The functions of the core -/

/-- `((*w) & 0xff00)` is zero, of a `YCHAR` as an `int`. -/
def isAsciiUnit (w : ℕ) : Bool :=
  if m.unicode then decide (w < 0x100) else !m.charSigned || decide (w < 0x80)

/-- The name fits the ASCII character set. -/
def isAscii (name : YName) : Bool :=
  name.all m.isAsciiUnit

/-- `yaffs_load_oh_from_name`, into the field `f`. -/
def loadOhFromName (f : Mem) (name : YName) : Mem :=
  if m.autoUnicode then
    if m.isAscii name then store f 0 ((name.take (m.maxNameLength - 1)).map UInt8.ofNat)
    else m.strncpyUnits (m.setUnit f 0 0) 1 name (m.maxNameLength - 2)
  else m.strncpyUnits f 0 name (m.maxNameLength - 1)

/-- `yaffs_load_name_from_oh`, into a wiped buffer. -/
def loadNameFromOh (f : Mem) (buffSize : ℕ) : YName :=
  if m.autoUnicode then
    if m.unitAt f 0 ≠ 0 then m.readAscii f 0 (buffSize - 1) else m.readUnits f 1 (buffSize - 1)
  else m.readUnits f 0 (buffSize - 1)

/-- The name field `yaffs_update_oh` writes : it is wiped first. -/
def hdrField (name : YName) : Mem :=
  m.loadOhFromName (fun _ => 0) name

/-- The name back from its header. -/
def reloadName (name : YName) : YName :=
  m.loadNameFromOh (m.hdrField name) (m.maxNameLength + 1)

/-- The loop of `yaffs_calc_name_sum`, from the weight `i` on. -/
def calcNameSumLoop : YName → ℕ → ℕ → ℕ
  | [], _, sum => sum
  | c :: cs, i, sum =>
    if i < m.maxNameLength / 2 then calcNameSumLoop cs (i + 1) ((sum + (c &&& 0x1f) * i) % 2 ^ 16) else sum

/-- `yaffs_calc_name_sum`. -/
def calcNameSum (name : YName) : ℕ :=
  m.calcNameSumLoop name 1 0

/-- What an object keeps of its name. -/
structure Kept where
  shortName : YName
  sum : ℕ

/-- `yaffs_fix_null_name`. -/
def fixNullName (o : ℕ) (name : YName) (bufferSize : ℕ) : YName :=
  if name.isEmpty then (Yaffs.fixNullName o [] bufferSize).map Char.toNat else name

/-- `yaffs_set_obj_name`. -/
def setObjName (o : ℕ) (name : YName) : Kept :=
  if name.isEmpty then
    let short := fixNullName o [] shortNameLength
    ⟨short, m.calcNameSum short⟩
  else ⟨if name.length ≤ shortNameLength then name else [], m.calcNameSum name⟩

/-- `yaffs_get_obj_name`, of an object with the name field `f` in its header, into a buffer of
`YAFFS_MAX_NAME_LENGTH + 1`. -/
def getObjName (o : ℕ) (k : Kept) (f : Mem) : YName :=
  let name :=
    if o = objectIdLostNFound then lostNFoundName.map Char.toNat
    else if !k.shortName.isEmpty then k.shortName
    else m.loadNameFromOh f (m.maxNameLength + 1)
  fixNullName o name (m.maxNameLength + 1)

/-- The loop of `yaffsfs_CheckPath`, behind `n` characters of a part of the path and `divs` dividers. -/
def checkPathLoop : YName → ℕ → ℕ → Bool
  | [], _, _ => true
  | c :: cs, n, divs =>
    if n < m.maxNameLength ∧ divs < 100 then
      if c = '/'.toNat then checkPathLoop cs 0 (divs + 1) else checkPathLoop cs (n + 1) divs
    else false

/-- `yaffsfs_CheckPath` finds nothing wrong. -/
def checkPath (path : YName) : Bool :=
  m.checkPathLoop path 0 0

/-! ## What a field holds -/

/-- The `YCHAR`s end here. -/
def unitLimit : ℕ :=
  if m.unicode then 0x10000 else 0x100

/-- A character of a name. -/
def IsUnit (w : ℕ) : Prop :=
  0 < w ∧ w < m.unitLimit

variable {m} {f : Mem} {p q n c : ℕ} {name xs : YName}

theorem unitLimit_pos : 0 < m.unitLimit := by
  unfold unitLimit
  split_ifs <;> decide

theorem unitAt_setUnit (hc : c < m.unitLimit) : m.unitAt (m.setUnit f p c) q = if q = p then c else m.unitAt f q := by
  unfold unitAt setUnit
  unfold unitLimit at hc
  rcases lt_trichotomy q p with hlt | rfl | hgt
  · rw [if_neg (show ¬q = p by omega)]
    have h0 : 2 * q < 2 * p := by omega
    have h1 : 2 * q + 1 < 2 * p := by omega
    cases m.unicode <;> cases m.bigEndian <;> simp [store_of_lt h0, store_of_lt h1, store_of_lt hlt]
  · rw [if_pos rfl]
    revert hc
    cases m.unicode <;> cases m.bigEndian <;> simp [store] <;> omega
  · rw [if_neg (show ¬q = p by omega)]
    have h0 : ∀ a b : UInt8, 2 * p + [a, b].length ≤ 2 * q := fun _ _ => by simp; omega
    have h1 : ∀ a b : UInt8, 2 * p + [a, b].length ≤ 2 * q + 1 := fun a b => (h0 a b).trans (Nat.le_succ _)
    have h2 : ∀ a : UInt8, p + [a].length ≤ q := fun _ => hgt
    cases m.unicode <;> cases m.bigEndian <;> simp [store_of_ge (h0 _ _), store_of_ge (h1 _ _), store_of_ge (h2 _)]

/-- `strncpy` pads a name with zeros. -/
theorem unitAt_strncpyUnits (hname : ∀ c ∈ name, c < m.unitLimit) : m.unitAt (m.strncpyUnits f p name n) q =
    if p ≤ q ∧ q < p + n then name.getD (q - p) 0 else m.unitAt f q := by
  induction n generalizing p name with
  | zero =>
    rw [if_neg (by omega)]
    cases name <;> rfl
  | succ n ih =>
    cases name with
    | nil =>
      rw [strncpyUnits, unitAt_setUnit unitLimit_pos, ih (by simp)]
      split_ifs <;> first | rfl | omega
    | cons c cs =>
      rw [strncpyUnits, unitAt_setUnit (hname c List.mem_cons_self), ih fun c hc => hname c (List.mem_cons_of_mem _ hc)]
      rcases Nat.lt_trichotomy q p with hlt | rfl | hgt
      · rw [if_neg (by omega), if_neg (by omega), if_neg (by omega)]
      · rw [if_pos rfl, if_pos ⟨le_rfl, by omega⟩]
        simp
      · rw [if_neg (by omega)]
        obtain ⟨k, rfl⟩ := Nat.exists_eq_add_of_lt hgt
        rw [show p + k + 1 - p = k + 1 by omega, show p + k + 1 - (p + 1) = k by omega, List.getD_cons_succ]
        exact if_congr (by omega) rfl rfl

theorem readUnits_eq (hxs : ∀ i < n, m.unitAt f (p + i) = xs.getD i 0) (hpos : ∀ x ∈ xs, 0 < x) :
    m.readUnits f p n = xs.take n := by
  induction n generalizing p xs with
  | zero => simp [readUnits]
  | succ n ih =>
    have h0 := hxs 0 (Nat.succ_pos n)
    rw [Nat.add_zero] at h0
    cases xs with
    | nil => simp [readUnits, h0]
    | cons x xs =>
      have hx : x ≠ 0 := (hpos x List.mem_cons_self).ne'
      rw [List.getD_cons_zero] at h0
      rw [readUnits, h0, if_neg hx, List.take_succ_cons, ih (fun i hi => ?_) fun y hy => hpos y (List.mem_cons_of_mem _ hy)]
      have := hxs (i + 1) (by omega)
      rwa [List.getD_cons_succ, show p + (i + 1) = p + 1 + i by omega] at this

theorem readAscii_eq (hxs : ∀ i < n, (f (p + i)).toNat = xs.getD i 0) (hpos : ∀ x ∈ xs, 0 < x) :
    m.readAscii f p n = (xs.take n).map m.ofChar := by
  induction n generalizing p xs with
  | zero => simp [readAscii]
  | succ n ih =>
    have h0 := hxs 0 (Nat.succ_pos n)
    rw [Nat.add_zero] at h0
    cases xs with
    | nil =>
      have hf : f p = 0 := UInt8.toNat_inj.mp h0
      simp [readAscii, hf]
    | cons x xs =>
      have hx : x ≠ 0 := (hpos x List.mem_cons_self).ne'
      rw [List.getD_cons_zero] at h0
      have hf : f p ≠ 0 := fun hf => hx (by rw [← h0, hf]; rfl)
      rw [readAscii, if_neg hf, h0, List.take_succ_cons, List.map_cons, ih (fun i hi => ?_)
        fun y hy => hpos y (List.mem_cons_of_mem _ hy)]
      have := hxs (i + 1) (by omega)
      rwa [List.getD_cons_succ, show p + (i + 1) = p + 1 + i by omega] at this

/-! ## What comes back -/

/-- What a header gives back of a name. -/
def storedName (m : NameMode) (name : YName) : YName :=
  if m.autoUnicode then
    if m.isAscii name then (name.take (m.maxNameLength - 1)).map m.ofChar else name.take (m.maxNameLength - 2)
  else name.take (m.maxNameLength - 1)

theorem maxNameLength_bounds : 127 ≤ m.maxNameLength ∧ m.maxNameLength ≤ 255 := by
  unfold maxNameLength
  split_ifs <;> decide

theorem getD_take_lt {i k : ℕ} : (name.take k).getD i 0 = if i < k then name.getD i 0 else 0 := by
  simp only [List.getD_eq_getElem?_getD, List.getElem?_take]
  split_ifs <;> rfl

/-- A name copied to the units from `p` on of a field that is zero behind it reads back cut. -/
theorem readUnits_strncpyUnits (hname : ∀ w ∈ name, m.IsUnit w) {k : ℕ}
    (hzero : ∀ i, p + k ≤ i → i < p + n → m.unitAt f i = 0) (hk : k ≤ n) :
    m.readUnits (m.strncpyUnits f p name k) p n = name.take k := by
  rw [readUnits_eq (fun i hi => ?_) fun x hx => (hname x (List.mem_of_mem_take hx)).1]
  · exact List.take_of_length_le ((List.length_take_le _ _).trans hk)
  · rw [unitAt_strncpyUnits fun c hc => (hname c hc).2, getD_take_lt, Nat.add_sub_cancel_left]
    by_cases hik : i < k
    · rw [if_pos ⟨by omega, by omega⟩, if_pos hik]
    · rw [if_neg (by omega), if_neg hik, hzero (p + i) (by omega) (by omega)]

theorem unitAt_zero (i : ℕ) : m.unitAt (fun _ => 0) i = 0 := by
  simp [unitAt]

/-- Characters stored as bytes. -/
theorem store_bytes (hxs : ∀ x ∈ xs, x < 0x100) (i : ℕ) :
    (store (fun _ => 0) 0 (xs.map UInt8.ofNat) i).toNat = xs.getD i 0 := by
  simp only [store, Nat.zero_le, if_true, Nat.sub_zero, List.getElem?_map, List.getD_eq_getElem?_getD]
  cases hx : xs[i]? with
  | none => rfl
  | some x => simpa using hxs x (List.mem_of_getElem? hx)

/-- A field is taken for ASCII by its first `YCHAR`. -/
theorem unitAt_ne_zero (h : f 0 ≠ 0) : m.unitAt f 0 ≠ 0 := by
  have hf : (f 0).toNat ≠ 0 := fun h0 => h (UInt8.toNat_inj.mp h0)
  unfold unitAt
  rw [Nat.mul_zero]
  split_ifs <;> omega

theorem isAsciiUnit_lt {w : ℕ} (hw : m.IsUnit w) (h : m.isAsciiUnit w = true) : w < 0x100 := by
  unfold isAsciiUnit at h
  unfold IsUnit unitLimit at hw
  split_ifs at h hw
  · exact of_decide_eq_true h
  · exact hw.2

/-- A name that has been in a header is cut, and may have other characters. -/
theorem reloadName_eq (hne : name ≠ []) (hname : ∀ w ∈ name, m.IsUnit w) : m.reloadName name = m.storedName name := by
  have hmax := m.maxNameLength_bounds
  unfold reloadName loadNameFromOh hdrField loadOhFromName storedName
  rw [Nat.add_sub_cancel]
  by_cases hauto : m.autoUnicode = true
  · rw [if_pos hauto, if_pos hauto, if_pos hauto]
    by_cases hascii : m.isAscii name = true
    · rw [if_pos hascii, if_pos hascii]
      have hbyte : ∀ x ∈ name.take (m.maxNameLength - 1), x < 0x100 := fun x hx =>
        isAsciiUnit_lt (hname x (List.mem_of_mem_take hx)) (List.all_eq_true.mp hascii x (List.mem_of_mem_take hx))
      have hfirst : store (fun _ => 0) 0 ((name.take (m.maxNameLength - 1)).map UInt8.ofNat) 0 ≠ 0 := by
        obtain ⟨c, cs, rfl⟩ := List.exists_cons_of_ne_nil hne
        obtain ⟨k, hk⟩ : ∃ k, m.maxNameLength - 1 = k + 1 := ⟨m.maxNameLength - 2, by omega⟩
        intro h0
        have hc := store_bytes hbyte 0
        rw [h0, hk, List.take_succ_cons, List.getD_cons_zero] at hc
        exact (hname c List.mem_cons_self).1.ne hc
      rw [if_pos (unitAt_ne_zero hfirst), readAscii_eq
        (fun i _ => by rw [Nat.zero_add]; exact store_bytes hbyte i)
        fun x hx => (hname x (List.mem_of_mem_take hx)).1]
      rw [List.take_of_length_le ((List.length_take_le _ _).trans (Nat.sub_le _ _))]
    · rw [if_neg hascii, if_neg hascii]
      have hfirst : m.unitAt (m.strncpyUnits (m.setUnit (fun _ => 0) 0 0) 1 name (m.maxNameLength - 2)) 0 = 0 := by
        rw [unitAt_strncpyUnits fun c hc => (hname c hc).2, if_neg (by omega), unitAt_setUnit unitLimit_pos, if_pos rfl]
      rw [if_neg (not_not.mpr hfirst)]
      refine readUnits_strncpyUnits hname (fun i hi _ => ?_) (by omega)
      rw [unitAt_setUnit unitLimit_pos, unitAt_zero, ite_self]
  · rw [if_neg hauto, if_neg hauto, if_neg hauto]
    exact readUnits_strncpyUnits hname (fun i _ _ => unitAt_zero i) (by omega)

/-- The name fits its field : it is cut one character short of `YAFFS_MAX_NAME_LENGTH`, or two when it
is stored as unicode, and a signed `char` gives characters from `0x80` on back as others. -/
def Fits (m : NameMode) (name : YName) : Prop :=
  name.length ≤ (if m.autoUnicode ∧ m.isAscii name = false then m.maxNameLength - 2 else m.maxNameLength - 1) ∧
    (m.autoUnicode ∧ m.isAscii name = true ∧ m.unicode ∧ m.charSigned → ∀ w ∈ name, w < 0x80)

instance : Decidable (m.Fits name) :=
  inferInstanceAs (Decidable (_ ∧ _))

theorem ofChar_eq_self {w : ℕ} : m.ofChar w = w ↔ (m.unicode = true ∧ m.charSigned = true → w < 0x80) := by
  unfold ofChar
  split_ifs with h
  · refine iff_of_false (by omega) fun hlt => ?_
    have := hlt ⟨h.1, h.2.1⟩
    omega
  · refine iff_of_true rfl fun hs => ?_
    by_contra hge
    exact h ⟨hs.1, hs.2, by omega⟩

theorem map_take_eq_self {k : ℕ} {g : ℕ → ℕ} : (name.take k).map g = name ↔ name.length ≤ k ∧ ∀ w ∈ name, g w = w := by
  have hmap : name.map g = name ↔ ∀ w ∈ name, g w = w := by
    have := List.map_inj_left (l := name) (f := g) (g := id)
    rwa [List.map_id] at this
  constructor
  · intro h
    have hlen := congrArg List.length h
    rw [List.length_map, List.length_take] at hlen
    have hk : name.length ≤ k := by omega
    rw [List.take_of_length_le hk] at h
    exact ⟨hk, hmap.mp h⟩
  · rintro ⟨hk, h⟩
    rw [List.take_of_length_le hk]
    exact hmap.mpr h

theorem storedName_eq_self : m.storedName name = name ↔ m.Fits name := by
  unfold storedName Fits
  by_cases hauto : m.autoUnicode = true
  · rw [if_pos hauto]
    by_cases hascii : m.isAscii name = true
    · rw [if_pos hascii, if_neg (by simp [hascii]), map_take_eq_self]
      refine and_congr_right fun _ => ⟨fun h hs w hw => ofChar_eq_self.mp (h w hw) hs.2.2, fun h w hw => ?_⟩
      exact ofChar_eq_self.mpr fun hs => h ⟨hauto, hascii, hs⟩ w hw
    · have hfalse : m.isAscii name = false := by simpa using hascii
      rw [if_neg hascii, if_pos ⟨hauto, hfalse⟩, List.take_eq_self_iff]
      exact (and_iff_left fun h => absurd h.2.1 hascii).symm
  · rw [if_neg hauto, if_neg fun h => hauto h.1, List.take_eq_self_iff]
    exact (and_iff_left fun h => absurd h.1 hauto).symm

/-! ## Names in a directory -/

/-- An object in a directory, whose header has been written with the name it was given. -/
structure DirEntry where
  id : ℕ
  name : YName

/-- What the object keeps of its name, depending on whether it was loaded from its header at a mount, or
made or renamed since. -/
def keptName (m : NameMode) (loaded : ℕ → Bool) (x : DirEntry) : Kept :=
  m.setObjName x.id (if loaded x.id then m.reloadName x.name else x.name)

/-- `yaffs_get_obj_name` of an entry. -/
def entryName (m : NameMode) (loaded : ℕ → Bool) (x : DirEntry) : YName :=
  m.getObjName x.id (m.keptName loaded x) (m.hdrField x.name)

/-- The test of `yaffs_find_by_name` on one child, which has a header. -/
def hasName (m : NameMode) (loaded : ℕ → Bool) (name : YName) (x : DirEntry) : Bool :=
  if x.id = objectIdLostNFound then name = lostNFoundName.map Char.toNat
  else (m.keptName loaded x).sum = m.calcNameSum name &&
    name.take m.maxNameLength = (m.entryName loaded x).take m.maxNameLength

/-- `yaffs_find_by_name`, over the children of a directory. -/
def findByName (m : NameMode) (loaded : ℕ → Bool) (es : List DirEntry) (name : YName) : Option DirEntry :=
  es.find? (m.hasName loaded name)

/-- The API accepts the name for an object. -/
structure Accepted (m : NameMode) (name : YName) : Prop where
  nonempty : name ≠ []
  length : name.length ≤ m.maxNameLength
  path : m.checkPath name = true
  unit : ∀ w ∈ name, m.IsUnit w
  part : '/'.toNat ∉ name

/-- A directory : the names in it differ. -/
structure DirOk (m : NameMode) (es : List DirEntry) : Prop where
  names : es.Pairwise fun x y => x.name ≠ y.name
  accepted : ∀ x ∈ es, m.Accepted x.name
  lost : ∀ x ∈ es, x.id = objectIdLostNFound → x.name = lostNFoundName.map Char.toNat

/-- What is promised of the name of `x` in the directory `es`. -/
structure Survives (m : NameMode) (es : List DirEntry) (x : DirEntry) : Prop where
  roundTrip : m.reloadName x.name = x.name
  found : ∀ loaded, m.findByName loaded es x.name = some x
  named : ∀ loaded, m.entryName loaded x = x.name

/-- A part of a path is accepted up to `YAFFS_MAX_NAME_LENGTH` characters. -/
theorem checkPath_iff (hpart : '/'.toNat ∉ name) : m.checkPath name = true ↔ name.length ≤ m.maxNameLength := by
  have hloop : ∀ (cs : YName) (n : ℕ), '/'.toNat ∉ cs → n ≤ m.maxNameLength →
      (m.checkPathLoop cs n 0 = true ↔ n + cs.length ≤ m.maxNameLength) := by
    intro cs
    induction cs with
    | nil => exact fun n _ hn => iff_of_true rfl hn
    | cons c cs ih =>
      intro n hc hn
      obtain ⟨hne, hcs⟩ := List.ne_and_not_mem_of_not_mem_cons hc
      unfold checkPathLoop
      rw [List.length_cons]
      by_cases hlt : n < m.maxNameLength
      · rw [if_pos ⟨hlt, by decide⟩, if_neg (Ne.symm hne), ih (n + 1) hcs hlt]
        omega
      · rw [if_neg fun h => hlt h.1]
        exact iff_of_false Bool.false_ne_true (by omega)
  rw [checkPath, hloop name 0 hpart (Nat.zero_le _), Nat.zero_add]

theorem storedName_ne_nil (hne : name ≠ []) : m.storedName name ≠ [] := by
  have hmax := m.maxNameLength_bounds
  have htake : ∀ k, 0 < k → name.take k ≠ [] := fun k hk h => by
    rcases List.take_eq_nil_iff.mp h with h | h
    · omega
    · exact hne h
  unfold storedName
  split_ifs
  · rw [Ne, List.map_eq_nil_iff]
    exact htake _ (by omega)
  · exact htake _ (by omega)
  · exact htake _ (by omega)

theorem storedName_length_le : (m.storedName name).length ≤ m.maxNameLength := by
  unfold storedName
  split_ifs
  · rw [List.length_map]
    exact (List.length_take_le _ _).trans (Nat.sub_le _ _)
  · exact (List.length_take_le _ _).trans (Nat.sub_le _ _)
  · exact (List.length_take_le _ _).trans (Nat.sub_le _ _)

section Entry

variable {loaded : ℕ → Bool} {x y : DirEntry} {es pre post : List DirEntry}

/-- The name an object is made to keep. -/
theorem keptName_eq (hx : m.Accepted x.name) : m.keptName loaded x =
    let kept := if loaded x.id then m.storedName x.name else x.name
    ⟨if kept.length ≤ shortNameLength then kept else [], m.calcNameSum kept⟩ := by
  have hkept : (if loaded x.id then m.storedName x.name else x.name) ≠ [] := by
    split_ifs
    · exact storedName_ne_nil hx.nonempty
    · exact hx.nonempty
  unfold keptName setObjName
  rw [reloadName_eq hx.nonempty hx.unit, if_neg (by simpa using hkept)]

/-- A short name is only asked of the header when the object was loaded from it. -/
theorem entryName_eq (hx : m.Accepted x.name) (hid : x.id ≠ objectIdLostNFound) : m.entryName loaded x =
    if loaded x.id = false ∧ x.name.length ≤ shortNameLength then x.name else m.storedName x.name := by
  have hstored := storedName_ne_nil (m := m) hx.nonempty
  have hhdr : m.loadNameFromOh (m.hdrField x.name) (m.maxNameLength + 1) = m.storedName x.name :=
    reloadName_eq hx.nonempty hx.unit
  unfold entryName getObjName
  rw [keptName_eq hx, if_neg hid, hhdr]
  have hname := hx.nonempty
  cases hl : loaded x.id
  · by_cases hlen : x.name.length ≤ shortNameLength
    · simp [hlen, hname, fixNullName]
    · simp [hlen, hstored, fixNullName]
  · by_cases hlen : (m.storedName x.name).length ≤ shortNameLength
    · simp [hlen, hstored, fixNullName]
    · simp [hlen, hstored, fixNullName]

theorem entryName_length_le (hx : m.Accepted x.name) (hid : x.id ≠ objectIdLostNFound) :
    (m.entryName loaded x).length ≤ m.maxNameLength := by
  rw [entryName_eq hx hid]
  split_ifs
  · exact hx.length
  · exact storedName_length_le

/-- Comparing as many characters as a name can have compares the names. -/
theorem hasName_iff (hx : m.Accepted x.name) (hid : x.id ≠ objectIdLostNFound) (hname : name.length ≤ m.maxNameLength) :
    m.hasName loaded name x = true ↔
      (m.keptName loaded x).sum = m.calcNameSum name ∧ m.entryName loaded x = name := by
  unfold hasName
  rw [if_neg hid, Bool.and_eq_true, decide_eq_true_eq, decide_eq_true_eq, List.take_of_length_le hname,
    List.take_of_length_le (entryName_length_le hx hid), eq_comm (a := name)]

/-- A name survives exactly when it fits and no other object of the directory that is looked at before
has a name that was cut to it. -/
theorem survives_iff (hdir : m.DirOk (pre ++ x :: post)) (hid : x.id ≠ objectIdLostNFound) :
    m.Survives (pre ++ x :: post) x ↔
      m.Fits x.name ∧ ∀ y ∈ pre, y.id ≠ objectIdLostNFound → m.storedName y.name ≠ x.name := by
  have hx := hdir.accepted x (by simp)
  have hpre : ∀ y ∈ pre, m.Accepted y.name ∧ y.name ≠ x.name := fun y hy =>
    ⟨hdir.accepted y (by simp [hy]), (List.pairwise_append.mp hdir.names).2.2 y hy x List.mem_cons_self⟩
  have hfits : m.reloadName x.name = x.name ↔ m.Fits x.name := by
    rw [reloadName_eq hx.nonempty hx.unit, storedName_eq_self]
  constructor
  · intro h
    refine ⟨hfits.mp h.roundTrip, fun y hy hlost heq => ?_⟩
    have hmatch : m.hasName (fun _ => true) x.name y = true := by
      rw [hasName_iff (hpre y hy).1 hlost hx.length, entryName_eq (hpre y hy).1 hlost, keptName_eq (hpre y hy).1]
      simp [heq]
    have hsome : (pre.find? (m.hasName (fun _ => true) x.name)).isSome = true :=
      List.find?_isSome.mpr ⟨y, hy, hmatch⟩
    obtain ⟨z, hz⟩ := Option.isSome_iff_exists.mp hsome
    have hfound := h.found fun _ => true
    unfold findByName at hfound
    rw [List.find?_append, hz] at hfound
    obtain rfl : z = x := Option.some.inj hfound
    exact (hpre z (List.mem_of_find?_eq_some hz)).2 rfl
  · rintro ⟨hfit, hother⟩
    have hstored : m.storedName x.name = x.name := storedName_eq_self.mpr hfit
    have hnamed : ∀ loaded, m.entryName loaded x = x.name := fun loaded => by
      rw [entryName_eq hx hid, hstored, ite_self]
    refine ⟨hfits.mpr hfit, fun loaded => ?_, hnamed⟩
    have hnone : pre.find? (m.hasName loaded x.name) = none := by
      rw [List.find?_eq_none]
      intro y hy hmatch
      obtain ⟨hacc, hne⟩ := hpre y hy
      by_cases hlost : y.id = objectIdLostNFound
      · unfold hasName at hmatch
        rw [if_pos hlost, decide_eq_true_eq] at hmatch
        exact hne ((hdir.lost y (by simp [hy]) hlost).trans hmatch.symm)
      · have hyname := ((hasName_iff hacc hlost hx.length).mp hmatch).2
        rw [entryName_eq hacc hlost] at hyname
        split_ifs at hyname
        · exact hne hyname
        · exact hother y hy hlost hyname
    have hself : m.hasName loaded x.name x = true := by
      rw [hasName_iff hx hid hx.length, hnamed, keptName_eq hx]
      simp [hstored]
    unfold findByName
    rw [List.find?_append, hnone, List.find?_cons_of_pos hself]
    rfl

end Entry

/-! ## Samples -/

/-- `char` names without conversion. -/
def plainMode : NameMode where
  unicode := false
  autoUnicode := false
  charSigned := true
  bigEndian := false

/-- In this mode the header `yaffs_update_oh` writes holds the stored name. -/
theorem storedName_plain (d : Dev) (o : ℕ) (c : Char) (cs : Name) (isShrink : Bool) (shadows : ℕ) :
    plainMode.storedName ((c :: cs).map Char.toNat) =
      (objHdr d o (some (c :: cs)) isShrink shadows).name.map Char.toNat := by
  change ((c :: cs).map Char.toNat).take 254 = ((c :: cs).take 254).map Char.toNat
  exact List.map_take.symm

theorem calcNameSum_plain (name : Name) : plainMode.calcNameSum (name.map Char.toNat) = Yaffs.calcNameSum name := by
  have hloop : ∀ (cs : Name) (i sum : ℕ),
      plainMode.calcNameSumLoop (cs.map Char.toNat) i sum = Yaffs.calcNameSumLoop cs i sum := by
    intro cs
    induction cs with
    | nil => exact fun _ _ => rfl
    | cons c cs ih =>
      intro i sum
      rw [List.map_cons, calcNameSumLoop, Yaffs.calcNameSumLoop, ih]
      rfl
  exact hloop name 1 0

/-- A name of `n` characters. -/
def longName (n : ℕ) : YName :=
  List.replicate n 'a'.toNat

theorem longName_accepted {n : ℕ} (hpos : 0 < n) (hn : n ≤ 255) : plainMode.Accepted (longName n) := by
  have hlen : (longName n).length ≤ plainMode.maxNameLength := (List.length_replicate ..).trans_le hn
  have hpart : '/'.toNat ∉ longName n := fun h => absurd (List.eq_of_mem_replicate h) (by decide)
  refine ⟨?_, hlen, (checkPath_iff hpart).mpr hlen, fun w hw => ?_, hpart⟩
  · simp [longName, hpos.ne']
  · rw [List.eq_of_mem_replicate hw]
    exact ⟨by decide, by decide⟩

/-- Two files with names of `n` and of 3 characters. -/
def twoFiles (n : ℕ) : List DirEntry :=
  [⟨258, longName n⟩, ⟨257, longName 3⟩]

theorem twoFiles_ok {n : ℕ} (hpos : 3 < n) (hn : n ≤ 255) : plainMode.DirOk (twoFiles n) := by
  refine ⟨?_, fun x hx => ?_, fun x hx hlost => ?_⟩
  · rw [twoFiles, List.pairwise_pair]
    intro heq
    have := congrArg List.length heq
    simp only [longName, List.length_replicate] at this
    omega
  · simp only [twoFiles, List.mem_cons, List.not_mem_nil, or_false] at hx
    rcases hx with rfl | rfl
    · exact longName_accepted (by omega) hn
    · exact longName_accepted (by decide) (by decide)
  · simp only [twoFiles, List.mem_cons, List.not_mem_nil, or_false] at hx
    rcases hx with rfl | rfl
    · exact absurd (show 258 = objectIdLostNFound from hlost) (by decide)
    · exact absurd (show 257 = objectIdLostNFound from hlost) (by decide)

/-- The longest name that is accepted loses a character. -/
theorem longName_lost : ¬∀ (m : NameMode) (es : List DirEntry) (x : DirEntry), x ∈ es → m.DirOk es →
    x.id ≠ objectIdLostNFound → m.Survives es x := by
  intro h
  have hround := (h plainMode (twoFiles 255) ⟨258, longName 255⟩ List.mem_cons_self
    (twoFiles_ok (by decide) (by decide)) (by decide)).roundTrip
  have hacc := longName_accepted (n := 255) (by decide) (by decide)
  rw [reloadName_eq hacc.nonempty hacc.unit, storedName_eq_self] at hround
  exact absurd hround (by decide +kernel)

/-- A name is found behind one of a character less, which fits. -/
theorem longName_survives : plainMode.Survives (twoFiles 254) ⟨257, longName 3⟩ := by
  have hdir : plainMode.DirOk ([⟨258, longName 254⟩] ++ ⟨257, longName 3⟩ :: []) :=
    twoFiles_ok (by decide) (by decide)
  exact (survives_iff hdir (by decide)).mpr ⟨by decide, by decide +kernel⟩

end NameMode

end Yaffs
