import Yaffs.Ecc

/-!
# The ECC of any number of bytes

`yaffs_ecc_calc_other` and `yaffs_ecc_correct_other`, which the packed tags are protected with. The
parities of the lines have 32 bits and their complements are collected beside them, so the number of a
flipped byte and its complement tell one flipped bit from two.
-/

namespace Yaffs

open Words

/-! ## The source's functions -/

/-- `struct yaffs_ecc_other`, without the bytes that pad it. -/
structure OtherEcc where
  colParity : BitVec 8
  lineParity : BitVec 32
  lineParityPrime : BitVec 32
  deriving DecidableEq

/-- The bytes at an address and behind it. -/
abbrev EccData : Type :=
  ℕ → BitVec 8

/-- The body of the loop of `yaffs_ecc_calc_other`. -/
def eccOtherStep (data : EccData) (a : OtherEcc) (i : ℕ) : OtherEcc :=
  let b := columnParity (data i)
  let a := { a with colParity := a.colParity ^^^ b }
  if b &&& 0x01#8 ≠ 0#8 then
    { a with
      lineParity := a.lineParity ^^^ BitVec.ofNat 32 i
      lineParityPrime := a.lineParityPrime ^^^ ~~~(BitVec.ofNat 32 i) }
  else a

/-- The parities of `n` bytes. -/
def eccOtherParity (data : EccData) (n : BitVec 32) : OtherEcc :=
  (List.range n.toNat).foldl (eccOtherStep data) ⟨0#8, 0#32, 0#32⟩

/-- The six bits of the column parity that are stored. -/
def colBits (x : BitVec 8) : BitVec 8 :=
  (x >>> 2) &&& 0x3f#8

/-- `yaffs_ecc_calc_other`. -/
def eccCalcOther (data : EccData) (n : BitVec 32) : OtherEcc :=
  let a := eccOtherParity data n
  { a with colParity := colBits a.colParity }

/-- `hweight32`. -/
def hweight32 (x : BitVec 32) : ℕ :=
  hweight8 (x.extractLsb' 0 8) + hweight8 (x.extractLsb' 8 8) + hweight8 (x.extractLsb' 16 8) +
    hweight8 (x.extractLsb' 24 8)

/-- The bit that the delta of the columns points to. -/
def eccOtherBit (d : BitVec 8) : BitVec 8 :=
  bitIf d 0x20#8 0x04#8 ||| bitIf d 0x08#8 0x02#8 ||| bitIf d 0x02#8 0x01#8

/-- What `yaffs_ecc_correct_other` returns, with the data and the ECC as it leaves them. -/
structure OtherResult where
  data : EccData
  readEcc : OtherEcc
  result : ℤ

/-- Flip bit `k` of byte `i`. -/
def EccData.flip (data : EccData) (i k : ℕ) : EccData :=
  Function.update data i (data i ^^^ (1#8 <<< k))

/-- `yaffs_ecc_correct_other`, from the deltas of the two ECCs on. -/
def eccCorrectDelta (data : EccData) (n : BitVec 32) (readEcc testEcc d : OtherEcc) : OtherResult :=
  if d.colParity.setWidth 32 ||| d.lineParity ||| d.lineParityPrime = 0#32 then ⟨data, readEcc, 0⟩
  else if d.lineParity = ~~~d.lineParityPrime ∧ pairsDiffer d.colParity 0x15#8 then
    if n ≤ d.lineParity then ⟨data, readEcc, -1⟩
    else ⟨data.flip d.lineParity.toNat (eccOtherBit d.colParity).toNat, readEcc, 1⟩
  else if hweight32 d.lineParity + hweight32 d.lineParityPrime + hweight8 d.colParity = 1 then
    ⟨data, testEcc, 1⟩
  else ⟨data, readEcc, -1⟩

/-- The exclusive or of two ECCs, field by field. -/
def OtherEcc.xor (a b : OtherEcc) : OtherEcc where
  colParity := a.colParity ^^^ b.colParity
  lineParity := a.lineParity ^^^ b.lineParity
  lineParityPrime := a.lineParityPrime ^^^ b.lineParityPrime

/-- `yaffs_ecc_correct_other`. -/
def eccCorrectOther (data : EccData) (n : BitVec 32) (readEcc testEcc : OtherEcc) : OtherResult :=
  eccCorrectDelta data n readEcc testEcc (readEcc.xor testEcc)

/-! ## Flipped bits of the ECC -/

/-- A bit of the ECC. -/
inductive OtherBit where
  | col (k : Fin 8)
  | line (k : Fin 32)
  | linePrime (k : Fin 32)
  deriving DecidableEq

/-- The bit alone. -/
def OtherBit.mask : OtherBit → OtherEcc
  | col k => ⟨1#8 <<< (k : ℕ), 0#32, 0#32⟩
  | line k => ⟨0#8, 1#32 <<< (k : ℕ), 0#32⟩
  | linePrime k => ⟨0#8, 0#32, 1#32 <<< (k : ℕ)⟩

/-- Flip one bit of the ECC. -/
def OtherEcc.flip (a : OtherEcc) (p : OtherBit) : OtherEcc :=
  a.xor p.mask

/-! ## The parities are linear -/

section

variable {data : EccData} {n : BitVec 32} {i i' : ℕ} {k k' : Fin 8} {a b c : OtherEcc}

theorem OtherEcc.xor_assoc (a b c : OtherEcc) : (a.xor b).xor c = a.xor (b.xor c) := by
  simp only [OtherEcc.xor, BitVec.xor_assoc]

theorem OtherEcc.xor_comm (a b : OtherEcc) : a.xor b = b.xor a := by
  simp only [OtherEcc.xor, BitVec.xor_comm]

/-- What was added twice is gone. -/
theorem OtherEcc.xor_cancel (a b : OtherEcc) : a.xor (a.xor b) = b := by
  simp only [OtherEcc.xor, ← BitVec.xor_assoc, BitVec.xor_self, BitVec.zero_xor]

/-- What a byte adds to a line parity. -/
def otherTerm (x : BitVec 8) (v : BitVec 32) : BitVec 32 :=
  if columnParity x &&& 0x01#8 ≠ 0#8 then v else 0#32

theorem otherTerm_flip (x : BitVec 8) (v : BitVec 32) (k : Fin 8) :
    otherTerm (x ^^^ (1#8 <<< (k : ℕ))) v = otherTerm x v ^^^ v := by
  have hodd := odd_flip x k
  unfold otherTerm
  rcases eq_or_ne (columnParity x &&& 0x01#8) 0#8 with heven | hone
  · have hflip := fun h => hodd.mp h heven
    rw [if_pos hflip, if_neg (not_not.mpr heven), BitVec.zero_xor]
  · rw [if_neg (not_not.mpr (hodd.mpr hone)), if_pos hone, BitVec.xor_self]

theorem foldl_eccOtherStep (data : EccData) (is : List ℕ) : ∀ a,
    is.foldl (eccOtherStep data) a =
      { colParity := a.colParity ^^^ xorSum (fun i => columnParity (data i)) is
        lineParity := a.lineParity ^^^ xorSum (fun i => otherTerm (data i) (BitVec.ofNat 32 i)) is
        lineParityPrime :=
          a.lineParityPrime ^^^ xorSum (fun i => otherTerm (data i) (~~~(BitVec.ofNat 32 i))) is } := by
  induction is with
  | nil => intro a; simp [xorSum]
  | cons i is ih =>
    intro a
    rw [List.foldl_cons, ih]
    simp only [eccOtherStep, xorSum, otherTerm]
    split <;> simp [BitVec.xor_assoc]

theorem eccOtherParity_eq (data : EccData) (n : BitVec 32) : eccOtherParity data n =
    { colParity := xorSum (fun i => columnParity (data i)) (List.range n.toNat)
      lineParity := xorSum (fun i => otherTerm (data i) (BitVec.ofNat 32 i)) (List.range n.toNat)
      lineParityPrime :=
        xorSum (fun i => otherTerm (data i) (~~~(BitVec.ofNat 32 i))) (List.range n.toNat) } := by
  rw [eccOtherParity, foldl_eccOtherStep]
  simp only [BitVec.zero_xor]

/-- What a flipped bit does to the ECC of the data. -/
def dataSyndrome (i : ℕ) (k : Fin 8) : OtherEcc where
  colParity := colBits (columnParity (1#8 <<< (k : ℕ)))
  lineParity := BitVec.ofNat 32 i
  lineParityPrime := ~~~(BitVec.ofNat 32 i)

theorem colBits_xor (x y : BitVec 8) : colBits (x ^^^ y) = colBits x ^^^ colBits y := by
  rw [colBits, BitVec.ushiftRight_xor_distrib, and_xor_distrib]
  rfl

theorem flip_self (data : EccData) (i k : ℕ) : data.flip i k i = data i ^^^ (1#8 <<< k) :=
  Function.update_self ..

theorem flip_of_ne {j : ℕ} (hj : j ≠ i) (data : EccData) (k : ℕ) : data.flip i k j = data j :=
  Function.update_of_ne hj ..

/-- A bit that is flipped twice is as it was. -/
theorem EccData.flip_flip (data : EccData) (i k : ℕ) : (data.flip i k).flip i k = data := by
  ext j : 1
  rcases eq_or_ne j i with rfl | hj
  · rw [flip_self, flip_self, BitVec.xor_assoc, BitVec.xor_self, BitVec.xor_zero]
  · rw [flip_of_ne hj, flip_of_ne hj]

theorem eccCalcOther_flip (hi : i < n.toNat) (data : EccData) (k : Fin 8) :
    eccCalcOther (data.flip i k) n = (eccCalcOther data n).xor (dataSyndrome i k) := by
  have hnodup := List.nodup_range (n := n.toNat)
  have hmem := List.mem_range.mpr hi
  have hother : ∀ j, j ≠ i → data.flip i k j = data j := fun j hj => flip_of_ne hj data k
  simp only [eccCalcOther, eccOtherParity_eq, OtherEcc.xor, dataSyndrome, OtherEcc.mk.injEq]
  refine ⟨?_, ?_, ?_⟩
  · rw [← colBits_xor]
    congr 1
    exact xorSum_change hnodup hmem (by rw [flip_self, columnParity_flip]) fun j hj => by rw [hother j hj]
  · exact xorSum_change hnodup hmem (by rw [flip_self, otherTerm_flip]) fun j hj => by rw [hother j hj]
  · exact xorSum_change hnodup hmem (by rw [flip_self, otherTerm_flip]) fun j hj => by rw [hother j hj]

/-! ## Numbers of bits -/

theorem hweight8_eq_zero : ∀ x : BitVec 8, hweight8 x = 0 → x = 0#8 := by
  decide +kernel

theorem hweight32_ne_zero {x : BitVec 32} (hx : x ≠ 0#32) : 0 < hweight32 x := by
  by_contra hzero
  unfold hweight32 at hzero
  have h0 := hweight8_eq_zero (x.extractLsb' 0 8) (by omega)
  have h1 := hweight8_eq_zero (x.extractLsb' 8 8) (by omega)
  have h2 := hweight8_eq_zero (x.extractLsb' 16 8) (by omega)
  have h3 := hweight8_eq_zero (x.extractLsb' 24 8) (by omega)
  refine hx (BitVec.eq_of_getLsbD_eq fun j hj => ?_)
  have hbyte : ∀ start, x.extractLsb' start 8 = 0#8 → start ≤ j → j < start + 8 → x.getLsbD j = false := by
    intro start heq hle hlt
    have hbit := congrArg (fun y : BitVec 8 => y.getLsbD (j - start)) heq
    simp only [BitVec.getLsbD_extractLsb', show start + (j - start) = j by omega,
      show j - start < 8 by omega, decide_true, Bool.true_and] at hbit
    simpa using hbit
  rw [BitVec.getLsbD_zero]
  rcases lt_or_ge j 8 with hj0 | hj0
  · exact hbyte 0 h0 (Nat.zero_le _) hj0
  rcases lt_or_ge j 16 with hj1 | hj1
  · exact hbyte 8 h1 hj0 hj1
  rcases lt_or_ge j 24 with hj2 | hj2
  · exact hbyte 16 h2 hj1 hj2
  · exact hbyte 24 h3 hj2 hj

/-- A single bit of the ECC is one bit, and not a number beside its complement. -/
theorem mask_weight (p : OtherBit) :
    hweight32 p.mask.lineParity + hweight32 p.mask.lineParityPrime + hweight8 p.mask.colParity = 1 ∧
      p.mask.lineParity ≠ ~~~p.mask.lineParityPrime ∧
      p.mask.colParity.setWidth 32 ||| p.mask.lineParity ||| p.mask.lineParityPrime ≠ 0#32 := by
  have hcol : ∀ k : Fin 8, hweight8 (1#8 <<< (k : ℕ)) = 1 ∧ (1#8 <<< (k : ℕ)).setWidth 32 ≠ 0#32 := by decide
  have hline : ∀ k : Fin 32, hweight32 (1#32 <<< (k : ℕ)) = 1 ∧ 1#32 <<< (k : ℕ) ≠ ~~~0#32 ∧
      0#32 ≠ ~~~(1#32 <<< (k : ℕ)) ∧ 1#32 <<< (k : ℕ) ≠ 0#32 := by
    decide +kernel
  have hzero : hweight32 0#32 = 0 ∧ hweight8 0#8 = 0 := by decide
  cases p with
  | col k =>
    obtain ⟨h1, h2⟩ := hcol k
    have hones : 0#32 ≠ ~~~0#32 := by decide
    exact ⟨by simp only [OtherBit.mask, h1, hzero.1], hones, by simpa [OtherBit.mask] using h2⟩
  | line k =>
    obtain ⟨h1, h2, -, h3⟩ := hline k
    exact ⟨by simp only [OtherBit.mask, h1, hzero.1, hzero.2], h2, by simpa [OtherBit.mask] using h3⟩
  | linePrime k =>
    obtain ⟨h1, -, h2, h3⟩ := hline k
    exact ⟨by simp only [OtherBit.mask, h1, hzero.1, hzero.2], h2, by simpa [OtherBit.mask] using h3⟩

theorem colBits_column : ∀ k : Fin 8,
    pairsDiffer (colBits (columnParity (1#8 <<< (k : ℕ)))) 0x15#8 = true ∧
      (eccOtherBit (colBits (columnParity (1#8 <<< (k : ℕ))))).toNat = k ∧
      (colBits (columnParity (1#8 <<< (k : ℕ)))).setWidth 32 ≠ 0#32 := by
  decide

theorem colBits_differ : ∀ k k' : Fin 8, k ≠ k' →
    2 ≤ hweight8 (colBits (columnParity (1#8 <<< (k : ℕ))) ^^^ colBits (columnParity (1#8 <<< (k' : ℕ)))) := by
  decide

/-! ## The correction -/

/-- `yaffs_ecc_correct_other` on what is read, with the ECC computed from the data read. -/
def eccCheckOther (data : EccData) (n : BitVec 32) (readEcc : OtherEcc) : OtherResult :=
  eccCorrectOther data n readEcc (eccCalcOther data n)

theorem eccCheckOther_calc (data : EccData) (n : BitVec 32) :
    eccCheckOther data n (eccCalcOther data n) = ⟨data, eccCalcOther data n, 0⟩ := by
  unfold eccCheckOther eccCorrectOther eccCorrectDelta OtherEcc.xor
  rw [if_pos]
  simp only [BitVec.xor_self]
  decide

/-- A flipped bit of the data is flipped back. -/
theorem eccCheckOther_flip (hi : i < n.toNat) (data : EccData) (k : Fin 8) :
    eccCheckOther (data.flip i k) n (eccCalcOther data n) = ⟨data, eccCalcOther data n, 1⟩ := by
  obtain ⟨hpairs, hbit, hcol⟩ := colBits_column k
  have hline : (BitVec.ofNat 32 i).toNat = i :=
    Nat.mod_eq_of_lt (by have := n.isLt; omega)
  have hsome : ¬((dataSyndrome i k).colParity.setWidth 32 ||| (dataSyndrome i k).lineParity |||
      (dataSyndrome i k).lineParityPrime = 0#32) :=
    fun h => hcol (BitVec.or_eq_zero_iff.mp (BitVec.or_eq_zero_iff.mp h).1).1
  have hin : ¬n ≤ (dataSyndrome i k).lineParity := by
    rw [BitVec.le_def]
    change ¬n.toNat ≤ (BitVec.ofNat 32 i).toNat
    omega
  rw [eccCheckOther, eccCorrectOther, eccCalcOther_flip hi, OtherEcc.xor_cancel, eccCorrectDelta,
    if_neg hsome, if_pos ⟨(BitVec.not_not).symm, hpairs⟩, if_neg hin]
  change OtherResult.mk ((data.flip i k).flip (BitVec.ofNat 32 i).toNat
    (eccOtherBit (colBits (columnParity (1#8 <<< (k : ℕ))))).toNat) _ _ = _
  rw [hline, hbit, EccData.flip_flip]

/-- A flipped bit of the ECC is told from one of the data. -/
theorem eccCheckOther_flip_ecc (data : EccData) (n : BitVec 32) (p : OtherBit) :
    eccCheckOther data n ((eccCalcOther data n).flip p) = ⟨data, eccCalcOther data n, 1⟩ := by
  obtain ⟨hweight, hline, hsome⟩ := mask_weight p
  have hdelta : ((eccCalcOther data n).flip p).xor (eccCalcOther data n) = p.mask := by
    rw [OtherEcc.flip, OtherEcc.xor_comm, OtherEcc.xor_cancel]
  rw [eccCheckOther, eccCorrectOther, hdelta, eccCorrectDelta, if_neg hsome,
    if_neg (fun h : _ ∧ _ => hline h.1), if_pos hweight]

/-- Two flipped bits are those of no single one. -/
theorem dataSyndrome_two (hi : i < n.toNat) (hi' : i' < n.toNat) (hne : i ≠ i' ∨ k ≠ k') :
    let d := (dataSyndrome i k).xor (dataSyndrome i' k')
    d.lineParity ≠ ~~~d.lineParityPrime ∧
      2 ≤ hweight32 d.lineParity + hweight32 d.lineParityPrime + hweight8 d.colParity := by
  have hprime : ~~~(BitVec.ofNat 32 i) ^^^ ~~~(BitVec.ofNat 32 i') = BitVec.ofNat 32 i ^^^ BitVec.ofNat 32 i' := by
    rw [← BitVec.not_xor_left, ← BitVec.not_xor_right, BitVec.not_not]
  have hnot : ∀ x : BitVec 32, x ≠ ~~~x := by
    intro x h
    have hbit := congrArg (fun y : BitVec 32 => y.getLsbD 0) h
    simp at hbit
  dsimp only [OtherEcc.xor, dataSyndrome]
  rw [hprime]
  refine ⟨hnot _, ?_⟩
  rcases eq_or_ne i i' with rfl | hii
  · have hk := colBits_differ k k' (hne.resolve_left fun h => h rfl)
    omega
  · have hxor : BitVec.ofNat 32 i ^^^ BitVec.ofNat 32 i' ≠ 0#32 := by
      intro h0
      have heq := congrArg BitVec.toNat (BitVec.xor_eq_zero_iff.mp h0)
      have := n.isLt
      rw [BitVec.toNat_ofNat, BitVec.toNat_ofNat, Nat.mod_eq_of_lt (by omega), Nat.mod_eq_of_lt (by omega)] at heq
      exact hii heq
    have := hweight32_ne_zero hxor
    omega

theorem eccCheckOther_flip_two (hi : i < n.toNat) (hi' : i' < n.toNat) (hne : i ≠ i' ∨ k ≠ k')
    (data : EccData) :
    eccCheckOther ((data.flip i k).flip i' k') n (eccCalcOther data n) =
      ⟨(data.flip i k).flip i' k', eccCalcOther data n, -1⟩ := by
  obtain ⟨hline, hweight⟩ := dataSyndrome_two hi hi' hne
  have hzero : hweight32 0#32 = 0 ∧ hweight8 0#8 = 0 := by decide
  rw [eccCheckOther, eccCorrectOther, eccCalcOther_flip hi', eccCalcOther_flip hi, OtherEcc.xor_assoc,
    OtherEcc.xor_cancel, eccCorrectDelta, if_neg, if_neg (fun h : _ ∧ _ => hline h.1), if_neg (by omega)]
  intro hnone
  obtain ⟨h01, h2⟩ := BitVec.or_eq_zero_iff.mp hnone
  obtain ⟨h0, h1⟩ := BitVec.or_eq_zero_iff.mp h01
  have hcol : ((dataSyndrome i k).xor (dataSyndrome i' k')).colParity = 0#8 := by
    have := congrArg (BitVec.setWidth 8) h0
    simpa using this
  rw [h1, h2, hcol] at hweight
  omega

/-- The bytes behind the data are left alone. -/
theorem eccCorrectOther_behind (data : EccData) (n : BitVec 32) (readEcc testEcc : OtherEcc) {j : ℕ}
    (hj : n.toNat ≤ j) : (eccCorrectOther data n readEcc testEcc).data j = data j := by
  unfold eccCorrectOther eccCorrectDelta
  split_ifs with h1 h2 h3 h4
  · rfl
  · rfl
  · have hlt : ¬n.toNat ≤ ((readEcc.xor testEcc).lineParity).toNat := fun h => h3 (BitVec.le_def.mpr h)
    exact flip_of_ne (by omega) data _
  · rfl
  · rfl

end

end Yaffs
