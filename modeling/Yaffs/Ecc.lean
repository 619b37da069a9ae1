import Yaffs.Words
import Mathlib.Data.List.FinRange
import Mathlib.Data.Fin.Basic

/-!
# The ECC of 256 bytes

`yaffs_ecc_calc` and `yaffs_ecc_correct`, and what the 22 bits of parity they work with can do :
correct one flipped bit and detect two. The parities are linear in the bits of the block, so what
the correction sees depends on the flipped bits alone.
-/

namespace Yaffs

open Words

/-! ## The source's functions -/

/-- `column_parity_table`. -/
def columnParityTable : List (BitVec 8) :=
  [0x00, 0x55, 0x59, 0x0c, 0x65, 0x30, 0x3c, 0x69, 0x69, 0x3c, 0x30, 0x65, 0x0c, 0x59, 0x55, 0x00,
    0x95, 0xc0, 0xcc, 0x99, 0xf0, 0xa5, 0xa9, 0xfc, 0xfc, 0xa9, 0xa5, 0xf0, 0x99, 0xcc, 0xc0, 0x95,
    0x99, 0xcc, 0xc0, 0x95, 0xfc, 0xa9, 0xa5, 0xf0, 0xf0, 0xa5, 0xa9, 0xfc, 0x95, 0xc0, 0xcc, 0x99,
    0x0c, 0x59, 0x55, 0x00, 0x69, 0x3c, 0x30, 0x65, 0x65, 0x30, 0x3c, 0x69, 0x00, 0x55, 0x59, 0x0c,
    0xa5, 0xf0, 0xfc, 0xa9, 0xc0, 0x95, 0x99, 0xcc, 0xcc, 0x99, 0x95, 0xc0, 0xa9, 0xfc, 0xf0, 0xa5,
    0x30, 0x65, 0x69, 0x3c, 0x55, 0x00, 0x0c, 0x59, 0x59, 0x0c, 0x00, 0x55, 0x3c, 0x69, 0x65, 0x30,
    0x3c, 0x69, 0x65, 0x30, 0x59, 0x0c, 0x00, 0x55, 0x55, 0x00, 0x0c, 0x59, 0x30, 0x65, 0x69, 0x3c,
    0xa9, 0xfc, 0xf0, 0xa5, 0xcc, 0x99, 0x95, 0xc0, 0xc0, 0x95, 0x99, 0xcc, 0xa5, 0xf0, 0xfc, 0xa9,
    0xa9, 0xfc, 0xf0, 0xa5, 0xcc, 0x99, 0x95, 0xc0, 0xc0, 0x95, 0x99, 0xcc, 0xa5, 0xf0, 0xfc, 0xa9,
    0x3c, 0x69, 0x65, 0x30, 0x59, 0x0c, 0x00, 0x55, 0x55, 0x00, 0x0c, 0x59, 0x30, 0x65, 0x69, 0x3c,
    0x30, 0x65, 0x69, 0x3c, 0x55, 0x00, 0x0c, 0x59, 0x59, 0x0c, 0x00, 0x55, 0x3c, 0x69, 0x65, 0x30,
    0xa5, 0xf0, 0xfc, 0xa9, 0xc0, 0x95, 0x99, 0xcc, 0xcc, 0x99, 0x95, 0xc0, 0xa9, 0xfc, 0xf0, 0xa5,
    0x0c, 0x59, 0x55, 0x00, 0x69, 0x3c, 0x30, 0x65, 0x65, 0x30, 0x3c, 0x69, 0x00, 0x55, 0x59, 0x0c,
    0x99, 0xcc, 0xc0, 0x95, 0xfc, 0xa9, 0xa5, 0xf0, 0xf0, 0xa5, 0xa9, 0xfc, 0x95, 0xc0, 0xcc, 0x99,
    0x95, 0xc0, 0xcc, 0x99, 0xf0, 0xa5, 0xa9, 0xfc, 0xfc, 0xa9, 0xa5, 0xf0, 0x99, 0xcc, 0xc0, 0x95,
    0x00, 0x55, 0x59, 0x0c, 0x65, 0x30, 0x3c, 0x69, 0x69, 0x3c, 0x30, 0x65, 0x0c, 0x59, 0x55, 0x00]

/-- The table's entry for a byte. -/
def columnParity (x : BitVec 8) : BitVec 8 :=
  columnParityTable.getD x.toNat 0#8

/-- A block of 256 bytes, and the three bytes of an ECC. -/
abbrev EccBlock : Type :=
  Fin 256 → BitVec 8

abbrev Ecc : Type :=
  Fin 3 → BitVec 8

/-- The parities `yaffs_ecc_calc` collects. -/
structure EccParity where
  colParity : BitVec 8
  lineParity : BitVec 8
  lineParityPrime : BitVec 8

/-- The body of the loop of `yaffs_ecc_calc`. -/
def eccStep (data : EccBlock) (a : EccParity) (i : Fin 256) : EccParity :=
  let b := columnParity (data i)
  let a := { a with colParity := a.colParity ^^^ b }
  if b &&& 0x01#8 ≠ 0#8 then
    { a with
      lineParity := a.lineParity ^^^ BitVec.ofNat 8 i
      lineParityPrime := a.lineParityPrime ^^^ ~~~(BitVec.ofNat 8 i) }
  else a

/-- The parities of a block. -/
def eccParity (data : EccBlock) : EccParity :=
  (List.finRange 256).foldl (eccStep data) ⟨0#8, 0#8, 0#8⟩

/-- `bit`, if the bit `mask` of `x` is set. -/
def bitIf (x mask bit : BitVec 8) : BitVec 8 :=
  if x &&& mask ≠ 0#8 then bit else 0#8

/-- Four bits of the line parities, each beside its complement's. -/
def mixLines (l l' m₃ m₂ m₁ m₀ : BitVec 8) : BitVec 8 :=
  bitIf l m₃ 0x80#8 ||| bitIf l' m₃ 0x40#8 ||| bitIf l m₂ 0x20#8 ||| bitIf l' m₂ 0x10#8 |||
    bitIf l m₁ 0x08#8 ||| bitIf l' m₁ 0x04#8 ||| bitIf l m₀ 0x02#8 ||| bitIf l' m₀ 0x01#8

/-- `ecc[1]` and `ecc[0]`, before they are inverted. -/
def mixHigh (l l' : BitVec 8) : BitVec 8 :=
  mixLines l l' 0x80#8 0x40#8 0x20#8 0x10#8

def mixLow (l l' : BitVec 8) : BitVec 8 :=
  mixLines l l' 0x08#8 0x04#8 0x02#8 0x01#8

/-- The bytes of the ECC, from the parities. -/
def EccParity.bytes (a : EccParity) : Ecc
  | 0 => ~~~(mixLow a.lineParity a.lineParityPrime)
  | 1 => ~~~(mixHigh a.lineParity a.lineParityPrime)
  | 2 => ~~~a.colParity ||| 0x03#8

/-- `yaffs_ecc_calc`. -/
def eccCalc (data : EccBlock) : Ecc :=
  (eccParity data).bytes

/-- `hweight8`. -/
def hweight8 (x : BitVec 8) : ℕ :=
  (List.range 8).countP fun k => x.getLsbD k

/-- The byte and the bit that deltas of a single flipped bit point to. -/
def eccByte (d₀ d₁ : BitVec 8) : BitVec 8 :=
  bitIf d₁ 0x80#8 0x80#8 ||| bitIf d₁ 0x20#8 0x40#8 ||| bitIf d₁ 0x08#8 0x20#8 |||
    bitIf d₁ 0x02#8 0x10#8 ||| bitIf d₀ 0x80#8 0x08#8 ||| bitIf d₀ 0x20#8 0x04#8 |||
    bitIf d₀ 0x08#8 0x02#8 ||| bitIf d₀ 0x02#8 0x01#8

def eccBit (d₂ : BitVec 8) : BitVec 8 :=
  bitIf d₂ 0x80#8 0x04#8 ||| bitIf d₂ 0x20#8 0x02#8 ||| bitIf d₂ 0x08#8 0x01#8

/-- Of every pair of bits under the mask one is set. -/
def pairsDiffer (d mask : BitVec 8) : Bool :=
  (d ^^^ (d >>> 1)) &&& mask = mask

/-- The deltas are those of a single flipped bit of data. -/
def isDataError (d : Ecc) : Bool :=
  pairsDiffer (d 0) 0x55#8 && pairsDiffer (d 1) 0x55#8 && pairsDiffer (d 2) 0x54#8

/-- What `yaffs_ecc_correct` returns, with the data and the ECC as it leaves them. -/
structure EccResult256 where
  data : EccBlock
  readEcc : Ecc
  result : ℤ

/-- `yaffs_ecc_correct`. -/
def eccCorrect (data : EccBlock) (readEcc testEcc : Ecc) : EccResult256 :=
  let d : Ecc := fun j => readEcc j ^^^ testEcc j
  if d 0 ||| d 1 ||| d 2 = 0#8 then ⟨data, readEcc, 0⟩
  else if isDataError d then
    let byte := (eccByte (d 0) (d 1)).toFin
    ⟨Function.update data byte (data byte ^^^ (1#8 <<< (eccBit (d 2)).toNat)), readEcc, 1⟩
  else if hweight8 (d 0) + hweight8 (d 1) + hweight8 (d 2) = 1 then ⟨data, testEcc, 1⟩
  else ⟨data, readEcc, -1⟩

/-! ## Flipped bits -/

/-- A bit of the data or one of the 22 bits of the ECC. -/
abbrev EccPos : Type :=
  Fin 256 × Fin 8 ⊕ Fin 22

/-- The byte and the bit of the ECC that are its bit `n`; the low bits of the last byte are not used. -/
def eccPlace (n : Fin 22) : Fin 3 × ℕ :=
  if n < 8 then (0, n) else if n < 16 then (1, n - 8) else (2, n - 14)

/-- Flip one bit. -/
def flipBit (r : EccBlock × Ecc) : EccPos → EccBlock × Ecc
  | .inl (i, k) => (Function.update r.1 i (r.1 i ^^^ (1#8 <<< (k : ℕ))), r.2)
  | .inr n =>
    (r.1, Function.update r.2 (eccPlace n).1 (r.2 (eccPlace n).1 ^^^ (1#8 <<< (eccPlace n).2)))

/-! ## The parities are linear -/

theorem and_xor_distrib (x y z : BitVec 8) : (x ^^^ y) &&& z = (x &&& z) ^^^ (y &&& z) := by
  refine BitVec.eq_of_getLsbD_eq fun j _ => ?_
  simp only [BitVec.getLsbD_xor, BitVec.getLsbD_and]
  cases x.getLsbD j <;> cases y.getLsbD j <;> cases z.getLsbD j <;> rfl

/-- What a byte adds to a line parity. -/
def lineTerm (x v : BitVec 8) : BitVec 8 :=
  if columnParity x &&& 0x01#8 ≠ 0#8 then v else 0#8

theorem foldl_eccStep (data : EccBlock) (is : List (Fin 256)) : ∀ a,
    is.foldl (eccStep data) a =
      { colParity := a.colParity ^^^ xorSum (fun i => columnParity (data i)) is
        lineParity := a.lineParity ^^^ xorSum (fun i => lineTerm (data i) (BitVec.ofNat 8 i)) is
        lineParityPrime :=
          a.lineParityPrime ^^^ xorSum (fun i => lineTerm (data i) (~~~(BitVec.ofNat 8 i))) is } := by
  induction is with
  | nil => intro a; simp [xorSum]
  | cons i is ih =>
    intro a
    rw [List.foldl_cons, ih]
    simp only [eccStep, xorSum, lineTerm]
    split <;> simp [BitVec.xor_assoc]

theorem eccParity_eq (data : EccBlock) : eccParity data =
    { colParity := xorSum (fun i => columnParity (data i)) (List.finRange 256)
      lineParity := xorSum (fun i => lineTerm (data i) (BitVec.ofNat 8 i)) (List.finRange 256)
      lineParityPrime :=
        xorSum (fun i => lineTerm (data i) (~~~(BitVec.ofNat 8 i))) (List.finRange 256) } := by
  rw [eccParity, foldl_eccStep]
  simp

/-- The table is linear : an entry is made of those of the bits set. -/
theorem columnParity_eq : ∀ x : BitVec 8, columnParity x =
    xorSum (fun k : Fin 8 => bif x.getLsbD k then columnParity (1#8 <<< (k : ℕ)) else 0#8)
      (List.finRange 8) := by
  decide +kernel

theorem getLsbD_flip (x : BitVec 8) (j k : Fin 8) :
    (x ^^^ (1#8 <<< (k : ℕ))).getLsbD j = (x.getLsbD j ^^ decide (j = k)) := by
  rw [BitVec.getLsbD_xor, ← BitVec.twoPow_eq, BitVec.getLsbD_twoPow]
  simp [Fin.ext_iff, eq_comm]

theorem columnParity_flip (x : BitVec 8) (k : Fin 8) :
    columnParity (x ^^^ (1#8 <<< (k : ℕ))) = columnParity x ^^^ columnParity (1#8 <<< (k : ℕ)) := by
  rw [columnParity_eq (x ^^^ _), columnParity_eq x]
  refine xorSum_change (List.nodup_finRange 8) (List.mem_finRange k) ?_ fun j hj => ?_
  · rw [getLsbD_flip]
    cases x.getLsbD k <;> simp
  · rw [getLsbD_flip, decide_eq_false hj, Bool.xor_false]

theorem odd_flip (x : BitVec 8) (k : Fin 8) :
    columnParity (x ^^^ (1#8 <<< (k : ℕ))) &&& 0x01#8 = 0#8 ↔ columnParity x &&& 0x01#8 ≠ 0#8 := by
  have hodd : ∀ k : Fin 8, columnParity (1#8 <<< (k : ℕ)) &&& 0x01#8 = 0x01#8 := by decide
  have hlow : ∀ y : BitVec 8, (y &&& 0x01#8) ^^^ 0x01#8 = 0#8 ↔ y &&& 0x01#8 ≠ 0#8 := by
    decide
  rw [columnParity_flip, and_xor_distrib, hodd]
  exact hlow _

theorem lineTerm_flip (x v : BitVec 8) (k : Fin 8) :
    lineTerm (x ^^^ (1#8 <<< (k : ℕ))) v = lineTerm x v ^^^ v := by
  unfold lineTerm
  have := odd_flip x k
  split_ifs <;> simp_all

/-- A flipped bit changes the parities by its own. -/
theorem eccParity_flip (data : EccBlock) (i : Fin 256) (k : Fin 8) :
    eccParity (Function.update data i (data i ^^^ (1#8 <<< (k : ℕ)))) =
      { colParity := (eccParity data).colParity ^^^ columnParity (1#8 <<< (k : ℕ))
        lineParity := (eccParity data).lineParity ^^^ BitVec.ofNat 8 i
        lineParityPrime := (eccParity data).lineParityPrime ^^^ ~~~(BitVec.ofNat 8 i) } := by
  have hother : ∀ j, j ≠ i →
      Function.update data i (data i ^^^ (1#8 <<< (k : ℕ))) j = data j :=
    fun j hj => Function.update_of_ne hj _ _
  have hnodup := List.nodup_finRange 256
  have hi := List.mem_finRange i
  rw [eccParity_eq, eccParity_eq]
  congr 1
  · exact xorSum_change hnodup hi (by rw [Function.update_self, columnParity_flip])
      fun j hj => by rw [hother j hj]
  · exact xorSum_change hnodup hi (by rw [Function.update_self, lineTerm_flip])
      fun j hj => by rw [hother j hj]
  · exact xorSum_change hnodup hi (by rw [Function.update_self, lineTerm_flip])
      fun j hj => by rw [hother j hj]

theorem bitIf_bit : ∀ (x : BitVec 8) (k : Fin 8) (b : BitVec 8),
    bitIf x (1#8 <<< (k : ℕ)) b = bif x.getLsbD k then b else 0#8 := by
  intro x k b
  have hmask : x &&& (1#8 <<< (k : ℕ)) ≠ 0#8 ↔ x.getLsbD k = true := by
    have hone : ∀ j : Fin 8, (1#8 <<< (j : ℕ)) ≠ 0#8 := by decide
    rw [← BitVec.twoPow_eq, BitVec.and_twoPow]
    cases x.getLsbD k
    · simp
    · simpa [BitVec.twoPow_eq] using hone k
  unfold bitIf
  rw [Bool.cond_eq_ite]
  exact if_congr hmask rfl rfl

theorem bitIf_xor (x y b : BitVec 8) (k : Fin 8) :
    bitIf (x ^^^ y) (1#8 <<< (k : ℕ)) b =
      bitIf x (1#8 <<< (k : ℕ)) b ^^^ bitIf y (1#8 <<< (k : ℕ)) b := by
  simp only [bitIf_bit, BitVec.getLsbD_xor]
  cases x.getLsbD k <;> cases y.getLsbD k <;> simp

/-- The bits that are mixed do not overlap. -/
theorem mixLines_eq_xor (l l' : BitVec 8) (i j k n : Fin 8) :
    mixLines l l' (1#8 <<< (i : ℕ)) (1#8 <<< (j : ℕ)) (1#8 <<< (k : ℕ)) (1#8 <<< (n : ℕ)) =
      bitIf l (1#8 <<< (i : ℕ)) 0x80#8 ^^^ bitIf l' (1#8 <<< (i : ℕ)) 0x40#8 ^^^
      bitIf l (1#8 <<< (j : ℕ)) 0x20#8 ^^^ bitIf l' (1#8 <<< (j : ℕ)) 0x10#8 ^^^
      bitIf l (1#8 <<< (k : ℕ)) 0x08#8 ^^^ bitIf l' (1#8 <<< (k : ℕ)) 0x04#8 ^^^
      bitIf l (1#8 <<< (n : ℕ)) 0x02#8 ^^^ bitIf l' (1#8 <<< (n : ℕ)) 0x01#8 := by
  unfold mixLines
  simp only [bitIf_bit]
  generalize l.getLsbD i = p₀, l'.getLsbD i = p₁, l.getLsbD j = p₂, l'.getLsbD j = p₃,
    l.getLsbD k = p₄, l'.getLsbD k = p₅, l.getLsbD n = p₆, l'.getLsbD n = p₇
  revert p₀ p₁ p₂ p₃ p₄ p₅ p₆ p₇
  decide +kernel

theorem mixLines_xor (l l' x x' : BitVec 8) (i j k n : Fin 8) :
    mixLines (l ^^^ x) (l' ^^^ x')
        (1#8 <<< (i : ℕ)) (1#8 <<< (j : ℕ)) (1#8 <<< (k : ℕ)) (1#8 <<< (n : ℕ)) =
      mixLines l l' (1#8 <<< (i : ℕ)) (1#8 <<< (j : ℕ)) (1#8 <<< (k : ℕ)) (1#8 <<< (n : ℕ)) ^^^
      mixLines x x' (1#8 <<< (i : ℕ)) (1#8 <<< (j : ℕ)) (1#8 <<< (k : ℕ)) (1#8 <<< (n : ℕ)) := by
  simp only [mixLines_eq_xor, bitIf_xor]
  ac_rfl

theorem mixHigh_xor (l l' x x' : BitVec 8) :
    mixHigh (l ^^^ x) (l' ^^^ x') = mixHigh l l' ^^^ mixHigh x x' :=
  mixLines_xor l l' x x' 7 6 5 4

theorem mixLow_xor (l l' x x' : BitVec 8) :
    mixLow (l ^^^ x) (l' ^^^ x') = mixLow l l' ^^^ mixLow x x' :=
  mixLines_xor l l' x x' 3 2 1 0

/-! ## What the correction sees -/

/-- The deltas of two ECCs whose parities differ by `x`, `y` and `y'`. -/
def eccDelta (x y y' : BitVec 8) : Ecc
  | 0 => mixLow y y'
  | 1 => mixHigh y y'
  | 2 => x &&& 0xfc#8

theorem colByte_xor (c x : BitVec 8) :
    ~~~(c ^^^ x) ||| 0x03#8 = (~~~c ||| 0x03#8) ^^^ (x &&& 0xfc#8) := by
  have hmask : ∀ k < 8, (0xfc#8).getLsbD k = !(0x03#8).getLsbD k := by decide
  refine BitVec.eq_of_getLsbD_eq fun k hk => ?_
  simp only [BitVec.getLsbD_or, BitVec.getLsbD_not, BitVec.getLsbD_xor, BitVec.getLsbD_and, hk,
    hmask k hk]
  cases c.getLsbD k <;> cases x.getLsbD k <;> cases (0x03#8).getLsbD k <;> rfl

theorem bytes_xor (a : EccParity) (x y y' : BitVec 8) (j : Fin 3) :
    EccParity.bytes ⟨a.colParity ^^^ x, a.lineParity ^^^ y, a.lineParityPrime ^^^ y'⟩ j =
      a.bytes j ^^^ eccDelta x y y' j := by
  match j with
  | 0 => simp [EccParity.bytes, eccDelta, mixLow_xor, BitVec.not_xor_left]
  | 1 => simp [EccParity.bytes, eccDelta, mixHigh_xor, BitVec.not_xor_left]
  | 2 => exact colByte_xor _ _

/-- The deltas `yaffs_ecc_correct` finds between an ECC as it is read and the one of the data. -/
def eccSees (r : EccBlock × Ecc) : Ecc :=
  fun j => r.2 j ^^^ eccCalc r.1 j

/-- What a flipped bit does to the deltas. -/
def syndrome : EccPos → Ecc
  | .inl (i, k) => eccDelta (columnParity (1#8 <<< (k : ℕ))) (BitVec.ofNat 8 i) (~~~(BitVec.ofNat 8 i))
  | .inr n => fun j => if j = (eccPlace n).1 then 1#8 <<< (eccPlace n).2 else 0#8

theorem eccSees_flipBit (r : EccBlock × Ecc) (p : EccPos) (j : Fin 3) :
    eccSees (flipBit r p) j = eccSees r j ^^^ syndrome p j := by
  match p with
  | .inl (i, k) =>
    simp only [eccSees, flipBit, syndrome, eccCalc, eccParity_flip, bytes_xor, BitVec.xor_assoc]
  | .inr n =>
    simp only [eccSees, flipBit, syndrome]
    rcases eq_or_ne j (eccPlace n).1 with rfl | hj
    · rw [Function.update_self, if_pos rfl]
      ac_rfl
    · rw [Function.update_of_ne hj, if_neg hj, BitVec.xor_zero]

/-- The deltas after one and after two flipped bits. -/
theorem eccSees_one (data : EccBlock) (p : EccPos) :
    eccSees (flipBit (data, eccCalc data) p) = syndrome p := by
  funext j
  rw [eccSees_flipBit]
  simp [eccSees]

theorem eccSees_two (data : EccBlock) (p p' : EccPos) :
    eccSees (flipBit (flipBit (data, eccCalc data) p) p') = fun j => syndrome p j ^^^ syndrome p' j := by
  funext j
  rw [eccSees_flipBit, eccSees_one]

/-! ## What the deltas tell -/

/-- Number of bits set in the deltas. -/
def eccWeight (d : Ecc) : ℕ :=
  hweight8 (d 0) + hweight8 (d 1) + hweight8 (d 2)

theorem eccWeight_eq_zero {d : Ecc} (h : d 0 ||| d 1 ||| d 2 = 0#8) : eccWeight d = 0 := by
  obtain ⟨h01, h2⟩ := BitVec.or_eq_zero_iff.mp h
  obtain ⟨h0, h1⟩ := BitVec.or_eq_zero_iff.mp h01
  rw [eccWeight, h0, h1, h2]
  rfl

/-- Deltas of a flipped bit of data tell the byte and the bit. -/
theorem pairsDiffer_column : ∀ k : Fin 8,
    pairsDiffer (columnParity (1#8 <<< (k : ℕ)) &&& 0xfc#8) 0x54#8 = true ∧
      eccBit (columnParity (1#8 <<< (k : ℕ)) &&& 0xfc#8) = BitVec.ofNat 8 k ∧
      hweight8 (columnParity (1#8 <<< (k : ℕ)) &&& 0xfc#8) = 3 := by
  decide

theorem pairsDiffer_lines : ∀ i : BitVec 8,
    pairsDiffer (mixLow i (~~~i)) 0x55#8 = true ∧ pairsDiffer (mixHigh i (~~~i)) 0x55#8 = true ∧
      eccByte (mixLow i (~~~i)) (mixHigh i (~~~i)) = i ∧
      hweight8 (mixLow i (~~~i)) = 4 ∧ hweight8 (mixHigh i (~~~i)) = 4 := by
  decide +kernel

/-- Two lines differ in pairs of bits. -/
theorem pairsAgree_lines : ∀ i : BitVec 8, pairsDiffer (mixLow i i) 0x55#8 = false ∧
    (i ≠ 0#8 → 2 ≤ hweight8 (mixLow i i) + hweight8 (mixHigh i i)) := by
  decide +kernel

theorem columns_differ : ∀ k k' : Fin 8, k ≠ k' →
    2 ≤ hweight8 ((columnParity (1#8 <<< (k : ℕ)) ^^^ columnParity (1#8 <<< (k' : ℕ))) &&& 0xfc#8) := by
  decide

/-- One more flipped bit breaks a pair. -/
theorem pairsDiffer_flip : ∀ (d : BitVec 8) (m : Fin 8), pairsDiffer d 0x55#8 = true →
    pairsDiffer (d ^^^ (1#8 <<< (m : ℕ))) 0x55#8 = false := by
  decide +kernel

theorem pairsDiffer_flip_column : ∀ (d : BitVec 8) (m : Fin 6), pairsDiffer d 0x54#8 = true →
    pairsDiffer (d ^^^ (1#8 <<< (m + 2 : ℕ))) 0x54#8 = false := by
  decide +kernel

theorem syndrome_ecc : ∀ n : Fin 22,
    isDataError (syndrome (.inr n)) = false ∧ eccWeight (syndrome (.inr n)) = 1 := by
  decide

theorem syndrome_ecc_ecc : ∀ n n' : Fin 22, n ≠ n' →
    isDataError (fun j => syndrome (.inr n) j ^^^ syndrome (.inr n') j) = false ∧
      2 ≤ eccWeight (fun j => syndrome (.inr n) j ^^^ syndrome (.inr n') j) := by
  decide

/-- The place of a bit of the ECC. -/
theorem eccPlace_cases : ∀ n : Fin 22, (∃ m : Fin 8, eccPlace n = (0, (m : ℕ))) ∨
    (∃ m : Fin 8, eccPlace n = (1, (m : ℕ))) ∨ ∃ m : Fin 6, eccPlace n = (2, (m + 2 : ℕ)) := by
  decide

section

variable (i i' : Fin 256) (k k' : Fin 8) (n : Fin 22)

theorem syndrome_data : isDataError (syndrome (.inl (i, k))) = true := by
  obtain ⟨h0, h1, -⟩ := pairsDiffer_lines (BitVec.ofNat 8 i)
  obtain ⟨h2, -⟩ := pairsDiffer_column k
  simp only [isDataError, syndrome, eccDelta, h0, h1, h2, Bool.and_self]

/-- Two flipped bits of data. -/
theorem syndrome_data_data (hne : (i, k) ≠ (i', k')) :
    isDataError (fun j => syndrome (.inl (i, k)) j ^^^ syndrome (.inl (i', k')) j) = false ∧
      2 ≤ eccWeight (fun j => syndrome (.inl (i, k)) j ^^^ syndrome (.inl (i', k')) j) := by
  have hnot : ∀ x y : BitVec 8, ~~~x ^^^ ~~~y = x ^^^ y := by
    intro x y
    rw [← BitVec.not_xor_left, ← BitVec.not_xor_right, BitVec.not_not]
  simp only [isDataError, eccWeight, syndrome, eccDelta, ← mixLow_xor, ← mixHigh_xor, hnot,
    ← and_xor_distrib]
  obtain ⟨hpairs, hweight⟩ := pairsAgree_lines (BitVec.ofNat 8 i ^^^ BitVec.ofNat 8 i')
  refine ⟨by rw [hpairs]; rfl, ?_⟩
  rcases eq_or_ne i i' with rfl | hi
  · have hk : k ≠ k' := fun hk => hne (by rw [hk])
    have := columns_differ k k' hk
    omega
  · have hxor : BitVec.ofNat 8 i ^^^ BitVec.ofNat 8 i' ≠ 0#8 := by
      intro h0
      have heq := congrArg BitVec.toNat (BitVec.xor_eq_zero_iff.mp h0)
      rw [BitVec.toNat_ofNat, BitVec.toNat_ofNat, Nat.mod_eq_of_lt i.isLt,
        Nat.mod_eq_of_lt i'.isLt] at heq
      exact hi (Fin.ext heq)
    have := hweight hxor
    omega

/-- A flipped bit of data and one of the ECC. -/
theorem syndrome_data_ecc :
    isDataError (fun j => syndrome (.inl (i, k)) j ^^^ syndrome (.inr n) j) = false ∧
      2 ≤ eccWeight (fun j => syndrome (.inl (i, k)) j ^^^ syndrome (.inr n) j) := by
  obtain ⟨h0, h1, -, hw0, hw1⟩ := pairsDiffer_lines (BitVec.ofNat 8 i)
  obtain ⟨h2, -, hw2⟩ := pairsDiffer_column k
  simp only [syndrome, eccDelta]
  generalize BitVec.ofNat 8 (i : ℕ) = x at h0 h1 hw0 hw1 ⊢
  rcases eccPlace_cases n with ⟨m, hm⟩ | ⟨m, hm⟩ | ⟨m, hm⟩
  · have hflip := pairsDiffer_flip _ m h0
    rw [hm]
    constructor
    · simp [isDataError, hflip]
    · simp [eccWeight, hw2]
  · have hflip := pairsDiffer_flip _ m h1
    rw [hm]
    constructor
    · simp [isDataError, hflip]
    · simp [eccWeight, hw2]
  · have hflip := pairsDiffer_flip_column _ m h2
    rw [hm]
    constructor
    · simp [isDataError, hflip]
    · simp [eccWeight, hw0]
      omega

end

/-- The deltas of two flipped bits are those of no single one. -/
theorem syndrome_two {p p' : EccPos} (hne : p ≠ p') :
    isDataError (fun j => syndrome p j ^^^ syndrome p' j) = false ∧
      2 ≤ eccWeight (fun j => syndrome p j ^^^ syndrome p' j) := by
  match p, p' with
  | .inl (i, k), .inl (i', k') => exact syndrome_data_data i i' k k' fun h => hne (by rw [h])
  | .inl (i, k), .inr n => exact syndrome_data_ecc i k n
  | .inr n, .inl (i, k) =>
    simp only [BitVec.xor_comm (syndrome (.inr n) _)]
    exact syndrome_data_ecc i k n
  | .inr n, .inr n' => exact syndrome_ecc_ecc n n' fun h => hne (by rw [h])

/-! ## The correction -/

/-- `yaffs_ecc_correct` on what is read, with the ECC computed from the data read. -/
def eccCheck (r : EccBlock × Ecc) : EccResult256 :=
  eccCorrect r.1 r.2 (eccCalc r.1)

theorem eccCheck_eq (r : EccBlock × Ecc) : eccCheck r =
    if eccSees r 0 ||| eccSees r 1 ||| eccSees r 2 = 0#8 then ⟨r.1, r.2, 0⟩
    else if isDataError (eccSees r) then
      let byte := (eccByte (eccSees r 0) (eccSees r 1)).toFin
      ⟨Function.update r.1 byte (r.1 byte ^^^ (1#8 <<< (eccBit (eccSees r 2)).toNat)), r.2, 1⟩
    else if eccWeight (eccSees r) = 1 then ⟨r.1, eccCalc r.1, 1⟩
    else ⟨r.1, r.2, -1⟩ :=
  rfl

/-- A flipped bit of data is flipped back. -/
theorem eccCheck_flip_data (data : EccBlock) (i : Fin 256) (k : Fin 8) :
    (eccCheck (flipBit (data, eccCalc data) (.inl (i, k)))).result = 1 ∧
      (eccCheck (flipBit (data, eccCalc data) (.inl (i, k)))).data = data := by
  obtain ⟨-, -, hbyte, hw0, -⟩ := pairsDiffer_lines (BitVec.ofNat 8 i)
  obtain ⟨-, hbit, -⟩ := pairsDiffer_column k
  have hsome : ¬(syndrome (.inl (i, k)) 0 ||| syndrome (.inl (i, k)) 1 |||
      syndrome (.inl (i, k)) 2 = 0#8) := by
    intro h0
    have hw := eccWeight_eq_zero h0
    simp only [eccWeight, syndrome, eccDelta, hw0] at hw
    omega
  have hbyte' : (eccByte (syndrome (.inl (i, k)) 0) (syndrome (.inl (i, k)) 1)).toFin = i := by
    simp only [syndrome, eccDelta]
    rw [hbyte]
    exact Fin.ext (Nat.mod_eq_of_lt i.isLt)
  have hbit' : (eccBit (syndrome (.inl (i, k)) 2)).toNat = k := by
    simp only [syndrome, eccDelta]
    rw [hbit, BitVec.toNat_ofNat]
    omega
  rw [eccCheck_eq, eccSees_one, if_neg hsome, if_pos (syndrome_data i k), hbyte', hbit']
  refine ⟨rfl, ?_⟩
  simp [flipBit, BitVec.xor_assoc]

theorem eccCheck_flip_ecc (data : EccBlock) (n : Fin 22) :
    (eccCheck (flipBit (data, eccCalc data) (.inr n))).result = 1 ∧
      (eccCheck (flipBit (data, eccCalc data) (.inr n))).data = data := by
  obtain ⟨hnot, hweight⟩ := syndrome_ecc n
  have hsome : ¬(syndrome (.inr n) 0 ||| syndrome (.inr n) 1 ||| syndrome (.inr n) 2 = 0#8) := by
    intro h0
    have := eccWeight_eq_zero h0
    omega
  rw [eccCheck_eq, eccSees_one, if_neg hsome, hnot, if_neg (by decide), if_pos hweight]
  exact ⟨rfl, rfl⟩

/-- Without a flipped bit there is nothing to correct, one flipped bit is corrected, and two are
reported with the data as it was read. -/
theorem eccCheck_spec (data : EccBlock) :
    eccCheck (data, eccCalc data) = ⟨data, eccCalc data, 0⟩ ∧
    (∀ p, (eccCheck (flipBit (data, eccCalc data) p)).result = 1 ∧
      (eccCheck (flipBit (data, eccCalc data) p)).data = data) ∧
    ∀ p p', p ≠ p' →
      (eccCheck (flipBit (flipBit (data, eccCalc data) p) p')).result = -1 ∧
      (eccCheck (flipBit (flipBit (data, eccCalc data) p) p')).data =
        (flipBit (flipBit (data, eccCalc data) p) p').1 := by
  refine ⟨?_, ?_, ?_⟩
  · rw [eccCheck_eq, if_pos]
    simp [eccSees]
  · rintro (⟨i, k⟩ | n)
    · exact eccCheck_flip_data data i k
    · exact eccCheck_flip_ecc data n
  · intro p p' hne
    obtain ⟨hnot, hweight⟩ := syndrome_two hne
    have hsome : ¬((fun j => syndrome p j ^^^ syndrome p' j) 0 |||
        (fun j => syndrome p j ^^^ syndrome p' j) 1 |||
        (fun j => syndrome p j ^^^ syndrome p' j) 2 = 0#8) := by
      intro h0
      have hw := eccWeight_eq_zero (d := fun j => syndrome p j ^^^ syndrome p' j) h0
      omega
    rw [eccCheck_eq, eccSees_two, if_neg hsome, hnot, if_neg (by decide), if_neg (by omega)]
    exact ⟨rfl, rfl⟩

/-- A bit of the data and one of the ECC, flipped in a block of zeros. -/
theorem zeroBlock_twoFlips :
    (eccCheck (flipBit (flipBit (fun _ => 0#8, eccCalc fun _ => 0#8) (.inl (200, 3))) (.inr 17))).result
      = -1 :=
  ((eccCheck_spec fun _ => 0#8).2.2 (.inl (200, 3)) (.inr 17) (by decide)).1

end Yaffs
