import Mathlib.Algebra.BigOperators.Ring.List
import Mathlib.Data.Nat.Digits.Defs

/-!
# Numbers in bytes

Numbers laid down in bytes, the least significant one first, and fields of bits in a number. What is
laid down side by side is read off again, one place at a time.
-/

namespace LittleEndian

/-! ## Bytes -/

/-- The number a string of bytes stands for. -/
def number (bs : List UInt8) : ℕ :=
  Nat.ofDigits (2 ^ 8) (bs.map UInt8.toNat)

/-- The first `n` bytes of a number. -/
def bytes (n k : ℕ) : List UInt8 :=
  (List.range n).map fun i => UInt8.ofNat (k / 2 ^ (8 * i))

variable {n k : ℕ}

@[simp] theorem length_bytes (n k : ℕ) : (bytes n k).length = n := by
  simp [bytes]

theorem bytes_succ (n k : ℕ) : bytes (n + 1) k = UInt8.ofNat k :: bytes n (k / 2 ^ 8) := by
  unfold bytes
  rw [List.range_succ_eq_map, List.map_cons, List.map_map]
  simp only [Nat.mul_zero, Nat.pow_zero, Nat.div_one, List.cons.injEq, true_and]
  refine List.map_congr_left fun i _ => ?_
  simp only [Function.comp_apply, Nat.succ_eq_add_one]
  rw [Nat.div_div_eq_div_mul, ← Nat.pow_add, Nat.mul_add, Nat.mul_one, Nat.add_comm]

/-- The bytes of a number stand for what fits them. -/
theorem number_bytes (n k : ℕ) : number (bytes n k) = k % 2 ^ (8 * n) := by
  induction n generalizing k with
  | zero => simp [bytes, number, Nat.mod_one]
  | succ n ih =>
    have hbyte : (UInt8.ofNat k).toNat = k % 2 ^ 8 := by simp
    have hrest : Nat.ofDigits (2 ^ 8) ((bytes n (k / 2 ^ 8)).map UInt8.toNat) = k / 2 ^ 8 % 2 ^ (8 * n) := ih _
    rw [number, bytes_succ, List.map_cons, Nat.ofDigits_cons, hrest, hbyte, Nat.mul_add, Nat.mul_one,
      Nat.add_comm (8 * n) 8, Nat.pow_add, Nat.mod_mul]

theorem ofNat_congr {a b : ℕ} (h : a % 2 ^ 8 = b % 2 ^ 8) : UInt8.ofNat a = UInt8.ofNat b := by
  apply UInt8.toNat_inj.mp
  simpa using h

theorem number_bytes_of_lt (h : k < 2 ^ (8 * n)) : number (bytes n k) = k := by
  rw [number_bytes, Nat.mod_eq_of_lt h]

theorem number_append (bs bs' : List UInt8) :
    number (bs ++ bs') = number bs + 2 ^ (8 * bs.length) * number bs' := by
  unfold number
  rw [List.map_append, Nat.ofDigits_append, List.length_map, ← Nat.pow_mul]

/-! ## Fields of bits -/

/-- The field of `width` bits from the bit `off` on. -/
def field (off width k : ℕ) : ℕ :=
  k / 2 ^ off % 2 ^ width

variable {w : ℕ} {vs : List ℕ}

/-- Of fields of one width side by side every one is read off. -/
theorem field_ofDigits (h : ∀ v ∈ vs, v < 2 ^ w) {i : ℕ} (hi : i < vs.length) :
    field (w * i) w (Nat.ofDigits (2 ^ w) vs) = vs[i] := by
  rw [field, Nat.pow_mul, Nat.ofDigits_div_pow_eq_ofDigits_drop i (Nat.two_pow_pos w) vs h,
    List.drop_eq_getElem_cons hi, Nat.ofDigits_cons, Nat.add_mul_mod_self_left,
    Nat.mod_eq_of_lt (h _ (List.getElem_mem hi))]

/-- Fields of one width put side by side with shifts. -/
theorem sum_shifts {m : ℕ} (w : ℕ) (v : Fin m → ℕ) :
    ((List.finRange m).map fun i => v i * 2 ^ (w * i.val)).sum = Nat.ofDigits (2 ^ w) (List.ofFn v) := by
  induction m with
  | zero => simp
  | succ m ih =>
    rw [List.finRange_succ, List.map_cons, List.sum_cons, List.map_map, List.ofFn_succ, Nat.ofDigits_cons,
      ← ih (fun i => v i.succ), ← List.sum_map_mul_left]
    simp only [Fin.val_zero, Nat.mul_zero, Nat.pow_zero, Nat.mul_one, Nat.add_left_cancel_iff]
    refine congrArg List.sum (List.map_congr_left fun i _ => ?_)
    simp only [Function.comp_apply, Fin.val_succ]
    rw [Nat.mul_add, Nat.mul_one, Nat.pow_add, Nat.mul_comm (2 ^ (w * i.val)), ← Nat.mul_assoc,
      Nat.mul_comm (v i.succ), Nat.mul_assoc]

/-! ## Bits -/

section

variable (P : ℕ → Prop) [DecidablePred P]

/-- The number with the bits `P` below the bit `n`. -/
def bitsBelow (n : ℕ) : ℕ :=
  ((List.range n).map fun j => if P j then 2 ^ j else 0).sum

theorem bitsBelow_succ (n : ℕ) : bitsBelow P (n + 1) = bitsBelow P n + if P n then 2 ^ n else 0 := by
  unfold bitsBelow
  rw [List.range_succ, List.map_append, List.sum_append, List.map_singleton, List.sum_singleton]

theorem bitsBelow_lt (n : ℕ) : bitsBelow P n < 2 ^ n := by
  induction n with
  | zero => simp [bitsBelow]
  | succ n ih =>
    rw [bitsBelow_succ, Nat.pow_succ]
    split_ifs <;> omega

/-- Every bit is read off. -/
theorem field_bitsBelow {n j : ℕ} (hj : j < n) : field j 1 (bitsBelow P n) = if P j then 1 else 0 := by
  induction n with
  | zero => omega
  | succ n ih =>
    rw [bitsBelow_succ]
    rcases Nat.lt_succ_iff_lt_or_eq.mp hj with hlt | rfl
    · obtain ⟨m, rfl⟩ : ∃ m, n = j + 1 + m := ⟨n - (j + 1), by omega⟩
      have hhigh : (if P (j + 1 + m) then 2 ^ (j + 1 + m) else 0) =
          2 ^ j * (2 * if P (j + 1 + m) then 2 ^ m else 0) := by
        split_ifs
        · rw [Nat.pow_add, Nat.pow_succ, Nat.mul_assoc]
        · rfl
      rw [← ih hlt, hhigh, field, field, Nat.add_mul_div_left _ _ (Nat.two_pow_pos j), Nat.pow_one,
        Nat.add_mul_mod_self_left]
    · have hlt := bitsBelow_lt P j
      split_ifs
      · rw [field, Nat.add_div_right _ (Nat.two_pow_pos j), Nat.div_eq_of_lt hlt]
        rfl
      · rw [Nat.add_zero, field, Nat.div_eq_of_lt hlt, Nat.zero_mod]

end

end LittleEndian
