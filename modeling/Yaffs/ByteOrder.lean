import Mathlib.Data.List.Forall2
import Mathlib.Tactic.IntervalCases

/-!
# Byte order

A word lies in memory in the byte order of its host. Swapping the bytes of a word before it is
stored gives the bytes of the other order. A record is a row of words, of words of 64 bits, and
of bytes that have no order.
-/

namespace ByteOrder

/-- The byte order of a host. -/
inductive Order where
  | little
  | big
  deriving DecidableEq, Repr

/-- The other order. -/
def Order.other : Order → Order
  | .little => .big
  | .big => .little

/-- Exchange the bytes of a word. -/
def swap32 (x : UInt32) : UInt32 :=
  ((x >>> 24) &&& (0x000000ff : UInt32)) ||| ((x >>> 8) &&& (0x0000ff00 : UInt32)) |||
    ((x <<< 8) &&& (0x00ff0000 : UInt32)) ||| ((x <<< 24) &&& (0xff000000 : UInt32))

/-- Byte `k` of a word. -/
def byteOf (x : UInt32) (k : ℕ) : UInt8 :=
  (x >>> UInt32.ofNat (8 * k)).toUInt8

/-- The bytes of a word, the least one first. -/
def wordBytes (x : UInt32) : List UInt8 :=
  [byteOf x 0, byteOf x 1, byteOf x 2, byteOf x 3]

/-- The word of four bytes, the least one first. -/
def ofWordBytes (bs : List UInt8) : UInt32 :=
  (bs.getD 0 0).toUInt32 ||| ((bs.getD 1 0).toUInt32 <<< 8) ||| ((bs.getD 2 0).toUInt32 <<< 16) |||
    ((bs.getD 3 0).toUInt32 <<< 24)

/-- A word in memory. -/
def Order.bytes32 : Order → UInt32 → List UInt8
  | .little, x => wordBytes x
  | .big, x => (wordBytes x).reverse

/-- The word at the start of some memory. -/
def Order.read32 : Order → List UInt8 → UInt32
  | .little, bs => ofWordBytes (bs.take 4)
  | .big, bs => ofWordBytes (bs.take 4).reverse

/-! ## Words -/

/-- A swapped word has the bits of the word, byte for byte. -/
theorem getLsbD_swap32 (x : UInt32) {i : ℕ} (hi : i < 32) :
    (swap32 x).toBitVec.getLsbD i = x.toBitVec.getLsbD ((3 - i / 8) * 8 + i % 8) := by
  unfold swap32
  interval_cases i <;> simp

theorem swap32_swap32 (x : UInt32) : swap32 (swap32 x) = x := by
  rw [← UInt32.toBitVec_inj]
  refine BitVec.eq_of_getLsbD_eq fun i hi => ?_
  rw [getLsbD_swap32 _ hi, getLsbD_swap32 _ (by omega)]
  congr 1
  omega

/-- Byte `k` of a word, by its bits. -/
theorem getLsbD_byteOf (x : UInt32) {k i : ℕ} (hk : k < 4) (hi : i < 8) :
    (byteOf x k).toBitVec.getLsbD i = x.toBitVec.getLsbD (8 * k + i) := by
  unfold byteOf
  interval_cases k <;> simp [hi]

theorem byteOf_swap32 (x : UInt32) {k : ℕ} (hk : k < 4) : byteOf (swap32 x) k = byteOf x (3 - k) := by
  rw [← UInt8.toBitVec_inj]
  refine BitVec.eq_of_getLsbD_eq fun i hi => ?_
  rw [getLsbD_byteOf _ hk hi, getLsbD_byteOf _ (by omega) hi, getLsbD_swap32 _ (by omega)]
  congr 1
  omega

theorem wordBytes_swap32 (x : UInt32) : wordBytes (swap32 x) = (wordBytes x).reverse := by
  unfold wordBytes
  rw [byteOf_swap32 _ (by decide), byteOf_swap32 _ (by decide), byteOf_swap32 _ (by decide),
    byteOf_swap32 _ (by decide)]
  rfl

/-- A word is told by its bytes. -/
theorem ofWordBytes_wordBytes (x : UInt32) : ofWordBytes (wordBytes x) = x := by
  rw [← UInt32.toBitVec_inj]
  refine BitVec.eq_of_getLsbD_eq fun i hi => ?_
  have hbit : ∀ k, k < 4 → ∀ j (hj : j < 8), (byteOf x k).toBitVec[j] = x.toBitVec.getLsbD (8 * k + j) := by
    intro k hk j hj
    rw [← BitVec.getLsbD_eq_getElem hj]
    exact getLsbD_byteOf x hk hj
  have h0 := hbit 0 (by decide)
  have h1 := hbit 1 (by decide)
  have h2 := hbit 2 (by decide)
  have h3 := hbit 3 (by decide)
  unfold ofWordBytes wordBytes
  generalize byteOf x 0 = b0 at *
  generalize byteOf x 1 = b1 at *
  generalize byteOf x 2 = b2 at *
  generalize byteOf x 3 = b3 at *
  interval_cases i <;> simp [h0, h1, h2, h3]

/-! ## Words in memory -/

/-- A word whose bytes are exchanged lies in memory as the word does on the other host. -/
theorem bytes32_swap32 (o : Order) (x : UInt32) : o.bytes32 (swap32 x) = o.other.bytes32 x := by
  cases o with
  | little => exact wordBytes_swap32 x
  | big =>
    change (wordBytes (swap32 x)).reverse = wordBytes x
    rw [wordBytes_swap32, List.reverse_reverse]

theorem bytes32_length (o : Order) (x : UInt32) : (o.bytes32 x).length = 4 := by
  cases o <;> rfl

theorem read32_bytes32 (o : Order) (x : UInt32) (bs : List UInt8) : o.read32 (o.bytes32 x ++ bs) = x := by
  have htake : (o.bytes32 x ++ bs).take 4 = o.bytes32 x := List.take_left' (bytes32_length o x)
  cases o with
  | little =>
    change ofWordBytes ((Order.little.bytes32 x ++ bs).take 4) = x
    rw [htake]
    exact ofWordBytes_wordBytes x
  | big =>
    change ofWordBytes ((Order.big.bytes32 x ++ bs).take 4).reverse = x
    rw [htake]
    change ofWordBytes (wordBytes x).reverse.reverse = x
    rw [List.reverse_reverse, ofWordBytes_wordBytes]

/-! ## Records -/

/-- A field of a record. A word of 64 bits is given by its low and its high word. -/
inductive Item where
  | word (x : UInt32)
  | long (low high : UInt32)
  | bytes (bs : List UInt8)
  deriving DecidableEq, Repr

namespace Item

/-- Exchange the bytes of a field. -/
def swap : Item → Item
  | word x => word (swap32 x)
  | long low high => long (swap32 high) (swap32 low)
  | bytes bs => bytes bs

/-- A field in memory. -/
def inMemory (o : Order) : Item → List UInt8
  | word x => o.bytes32 x
  | long low high => if o = .little then o.bytes32 low ++ o.bytes32 high else o.bytes32 high ++ o.bytes32 low
  | bytes bs => bs

/-- The size of a field in memory. -/
def size : Item → ℕ
  | word _ => 4
  | long _ _ => 8
  | bytes bs => bs.length

/-- The field of the kind and size of `i` at the start of some memory. -/
def readAs (o : Order) (i : Item) (bs : List UInt8) : Item :=
  match i with
  | word _ => word (o.read32 bs)
  | long _ _ =>
    if o = .little then long (o.read32 bs) (o.read32 (bs.drop 4)) else long (o.read32 (bs.drop 4)) (o.read32 bs)
  | bytes b => bytes (bs.take b.length)

@[simp] theorem swap_swap (i : Item) : i.swap.swap = i := by
  cases i <;> simp [swap, swap32_swap32]

@[simp] theorem size_swap (i : Item) : i.swap.size = i.size := by
  cases i <;> rfl

theorem inMemory_length (o : Order) (i : Item) : (i.inMemory o).length = i.size := by
  cases i with
  | word x => exact bytes32_length o x
  | long low high =>
    cases o
    · exact (List.length_append).trans (by rw [bytes32_length, bytes32_length]; rfl)
    · exact (List.length_append).trans (by rw [bytes32_length, bytes32_length]; rfl)
  | bytes bs => rfl

/-- A field whose bytes are exchanged lies in memory as the field does on the other host. -/
theorem inMemory_swap (o : Order) (i : Item) : i.swap.inMemory o = i.inMemory o.other := by
  cases i with
  | word x => exact bytes32_swap32 o x
  | long low high =>
    cases o <;> simp [swap, inMemory, bytes32_swap32, Order.other]
  | bytes bs => rfl

/-- Two fields are of the same kind and size. -/
inductive SameKind : Item → Item → Prop
  | word (x y : UInt32) : SameKind (word x) (word y)
  | long (l h l' h' : UInt32) : SameKind (long l h) (long l' h')
  | bytes {b b' : List UInt8} : b.length = b'.length → SameKind (bytes b) (bytes b')

theorem SameKind.size {i j : Item} (h : SameKind i j) : i.size = j.size := by
  cases h with
  | word => rfl
  | long => rfl
  | bytes h => exact h

theorem SameKind.swap {i j : Item} (h : SameKind i j) : SameKind i j.swap := by
  cases h with
  | word => exact .word _ _
  | long => exact .long _ _ _ _
  | bytes h => exact .bytes h

theorem SameKind.refl (i : Item) : SameKind i i := by
  cases i with
  | word => exact .word _ _
  | long => exact .long _ _ _ _
  | bytes => exact .bytes (Eq.refl _)

/-- A field is read as it was put. -/
theorem readAs_inMemory {i j : Item} (o : Order) (bs : List UInt8) (h : SameKind j i) :
    j.readAs o (i.inMemory o ++ bs) = i := by
  cases h with
  | word _ x => exact congrArg Item.word (read32_bytes32 o x bs)
  | long _ _ low high =>
    have hdrop : ∀ x y : UInt32, (o.bytes32 x ++ o.bytes32 y ++ bs).drop 4 = o.bytes32 y ++ bs := by
      intro x y
      rw [List.append_assoc, List.drop_left' (bytes32_length o x)]
    cases o
    · change Item.long (Order.little.read32 (Order.little.bytes32 low ++ Order.little.bytes32 high ++ bs))
        (Order.little.read32 ((Order.little.bytes32 low ++ Order.little.bytes32 high ++ bs).drop 4)) = _
      rw [hdrop, read32_bytes32, List.append_assoc, read32_bytes32]
    · change Item.long (Order.big.read32 ((Order.big.bytes32 high ++ Order.big.bytes32 low ++ bs).drop 4))
        (Order.big.read32 (Order.big.bytes32 high ++ Order.big.bytes32 low ++ bs)) = _
      rw [hdrop, read32_bytes32, List.append_assoc, read32_bytes32]
  | bytes h => exact congrArg Item.bytes (List.take_left' h.symm)

end Item

/-- A record in memory, field after field. -/
def inMemory (o : Order) (is : List Item) : List UInt8 :=
  is.flatMap (Item.inMemory o)

/-- The record of the layout of `is` at the start of some memory. -/
def readAs (o : Order) : List Item → List UInt8 → List Item
  | [], _ => []
  | i :: is, bs => i.readAs o bs :: readAs o is (bs.drop i.size)

theorem inMemory_cons (o : Order) (i : Item) (is : List Item) : inMemory o (i :: is) = i.inMemory o ++ inMemory o is :=
  List.flatMap_cons

/-- A record whose fields are exchanged lies in memory as the record does on the other host. -/
theorem inMemory_map_swap (o : Order) (is : List Item) : inMemory o (is.map Item.swap) = inMemory o.other is := by
  induction is with
  | nil => rfl
  | cons i is ih => rw [List.map_cons, inMemory_cons, inMemory_cons, ih, Item.inMemory_swap]

/-- Where field `k` of a record begins. -/
def offset (is : List Item) (k : ℕ) : ℕ :=
  ((is.take k).map Item.size).sum

/-- The bytes of one field of a record. -/
theorem inMemory_field (o : Order) (is : List Item) {k : ℕ} (hk : k < is.length) :
    ((inMemory o is).drop (offset is k)).take is[k].size = is[k].inMemory o := by
  induction is generalizing k with
  | nil => simp at hk
  | cons i is ih =>
    have hlen := i.inMemory_length o
    cases k with
    | zero =>
      change ((inMemory o (i :: is)).drop 0).take i.size = i.inMemory o
      rw [List.drop_zero, inMemory_cons, List.take_left' hlen]
    | succ k =>
      have hoff : offset (i :: is) (k + 1) = (i.inMemory o).length + offset is k := by
        rw [hlen]
        simp [offset]
      rw [inMemory_cons, hoff, List.drop_length_add_append]
      exact ih (by simpa using hk)

/-- Two records have the same layout. -/
def SameLayout : List Item → List Item → Prop :=
  List.Forall₂ Item.SameKind

theorem SameLayout.offset_eq {is js : List Item} (h : SameLayout is js) (k : ℕ) : offset is k = offset js k := by
  unfold offset
  induction h generalizing k with
  | nil => rfl
  | cons hij _ ih =>
    cases k with
    | zero => rfl
    | succ k =>
      simp only [List.take_succ_cons, List.map_cons, List.sum_cons]
      rw [hij.size, ih k]

/-- A record is read as it was put. -/
theorem readAs_inMemory (o : Order) {is js : List Item} (h : SameLayout is js) (bs : List UInt8) :
    readAs o is (inMemory o js ++ bs) = js := by
  induction h with
  | nil => rfl
  | @cons i j is js hij _ ih =>
    have hlen : (j.inMemory o).length = i.size := by
      rw [Item.inMemory_length, hij.size]
    rw [inMemory_cons, List.append_assoc, readAs, Item.readAs_inMemory o _ hij, List.drop_left' hlen, ih]

/-! ## Records that are swapped in part -/

/-- Every field is swapped but those at the places `un`, counted from `k`. -/
def swapBut (un : List ℕ) : ℕ → List Item → List Item
  | _, [] => []
  | k, i :: is => (if k ∈ un then i else i.swap) :: swapBut un (k + 1) is

variable {un : List ℕ} {is : List Item} {k n : ℕ}

theorem swapBut_nil (k : ℕ) (is : List Item) : swapBut [] k is = is.map Item.swap := by
  induction is generalizing k with
  | nil => rfl
  | cons i is ih =>
    rw [swapBut, ih, List.map_cons]
    rfl

theorem getElem?_swapBut (hn : k + n ∉ un) : (swapBut un k is)[n]? = is[n]?.map Item.swap := by
  induction is generalizing k n with
  | nil => rfl
  | cons i is ih =>
    cases n with
    | zero =>
      rw [Nat.add_zero] at hn
      rw [swapBut, if_neg hn]
      rfl
    | succ n =>
      rw [swapBut, List.getElem?_cons_succ, List.getElem?_cons_succ]
      exact ih (by rwa [Nat.add_right_comm, Nat.add_assoc])

theorem sameLayout_swapBut (un : List ℕ) (k : ℕ) (is : List Item) : SameLayout is (swapBut un k is) := by
  induction is generalizing k with
  | nil => exact .nil
  | cons i is ih =>
    refine .cons ?_ (ih (k + 1))
    split
    · exact .refl i
    · exact (Item.SameKind.refl i).swap

theorem sameLayout_map_swap {is js : List Item} (h : SameLayout is js) : SameLayout is (js.map Item.swap) := by
  induction h with
  | nil => exact .nil
  | cons hij _ ih => exact .cons hij.swap ih

theorem sameLayout_refl (is : List Item) : SameLayout is is := by
  induction is with
  | nil => exact .nil
  | cons i is ih => exact .cons (.refl i) ih

end ByteOrder
