import Mathlib.Data.List.Basic
import Mathlib.Data.List.GetD

/-!
# Bytes in memory

A memory is a function from addresses to bytes. `At m p bs` says that the bytes `bs` stand from
address `p` on; storing, moving down and clearing keep what they do not touch. A C string is
given without its terminating zero.
-/

namespace Memory

/-- Bytes by address. -/
abbrev Mem : Type :=
  ℕ → UInt8

/-- The bytes `bs` are copied to `p`. -/
def store (m : Mem) (p : ℕ) (bs : List UInt8) : Mem :=
  fun i => if p ≤ i then (bs[i - p]?).getD (m i) else m i

/-- `n` bytes are copied down by `k` to `p`, the first one first. -/
def moveDown (m : Mem) (p k n : ℕ) : Mem :=
  fun i => if p ≤ i ∧ i < p + n then m (i + k) else m i

/-- `n` bytes from `p` on are set to zero. -/
def clear (m : Mem) (p n : ℕ) : Mem :=
  fun i => if p ≤ i ∧ i < p + n then 0 else m i

/-- The bytes `bs` stand from `p` on. -/
def At (m : Mem) (p : ℕ) (bs : List UInt8) : Prop :=
  ∀ i (h : i < bs.length), m (p + i) = bs[i]

/-- `strncmp` finds no difference in the first `n` characters between the string at `p` and `name`. -/
def strncmpEq (m : Mem) : ℕ → ℕ → List UInt8 → Bool
  | _, 0, _ => true
  | p, _ + 1, [] => m p = 0
  | p, n + 1, c :: cs => m p = c && strncmpEq m (p + 1) n cs

/-- Number of the characters at `p` that `strncmp` reads. -/
def strncmpLen (m : Mem) : ℕ → ℕ → List UInt8 → ℕ
  | _, 0, _ => 0
  | _, _ + 1, [] => 1
  | p, n + 1, c :: cs => if m p = c then strncmpLen m (p + 1) n cs + 1 else 1

/-- `strnlen` of the string at `p`, up to `n`. -/
def strnlen (m : Mem) : ℕ → ℕ → ℕ
  | _, 0 => 0
  | p, n + 1 => if m p = 0 then 0 else strnlen m (p + 1) n + 1

/-- The `n` bytes from `p` on. -/
def load (m : Mem) (p n : ℕ) : List UInt8 :=
  (List.range n).map fun i => m (p + i)

variable {m m' : Mem} {p q k n : ℕ} {xs ys bs name : List UInt8}

/-! ## Standing bytes -/

@[simp] theorem at_nil : At m p [] := by
  intro i hi
  simp at hi

theorem at_append : At m p (xs ++ ys) ↔ At m p xs ∧ At m (p + xs.length) ys := by
  constructor
  · intro h
    refine ⟨fun i hi => ?_, fun i hi => ?_⟩
    · rw [h i (by rw [List.length_append]; omega), List.getElem_append_left hi]
    · rw [Nat.add_assoc, h (xs.length + i) (by rw [List.length_append]; omega),
        List.getElem_append_right (by omega)]
      simp
  · rintro ⟨hx, hy⟩ i hi
    rw [List.length_append] at hi
    rcases Nat.lt_or_ge i xs.length with hlt | hge
    · rw [hx i hlt, List.getElem_append_left hlt]
    · have := hy (i - xs.length) (by omega)
      rw [Nat.add_assoc, Nat.add_sub_of_le hge] at this
      rw [this, List.getElem_append_right hge]

theorem at_cons {x : UInt8} : At m p (x :: xs) ↔ m p = x ∧ At m (p + 1) xs := by
  rw [← List.singleton_append, at_append]
  refine and_congr ⟨fun h => h 0 (by simp), fun h i hi => ?_⟩ Iff.rfl
  obtain rfl : i = 0 := by simpa using hi
  exact h

/-- Bytes stand where nothing has been changed. -/
theorem At.congr (h : At m p xs) (heq : ∀ i, p ≤ i → i < p + xs.length → m' i = m i) :
    At m' p xs := by
  intro i hi
  rw [heq (p + i) (by omega) (by omega), h i hi]

theorem at_store : At (store m p bs) p bs := by
  intro i hi
  simp [store, hi]

theorem store_of_lt (h : q < p) : store m p bs q = m q := by
  simp [store, Nat.not_le.mpr h]

theorem store_of_ge (h : p + bs.length ≤ q) : store m p bs q = m q := by
  have hnone : bs[q - p]? = none := List.getElem?_eq_none (by omega)
  simp [store, hnone]

theorem store_replicate_zero (h : p ≤ q) (hq : q < p + n) :
    store m p (List.replicate n 0) q = 0 := by
  have : q - p < n := by omega
  simp [store, h, this]

/-- Bytes that are moved down stand below. -/
theorem At.moveDown (h : At m (p + k) xs) (hn : xs.length ≤ n) :
    At (Memory.moveDown m p k n) p xs := by
  intro i hi
  have := h i hi
  simp only [Memory.moveDown]
  rw [if_pos ⟨by omega, by omega⟩, ← this]
  congr 1
  omega

theorem load_eq (h : At m p bs) : load m p bs.length = bs := by
  refine List.ext_getElem (by simp [load]) fun i hi hi' => ?_
  simp [load, h i hi']

/-! ## Strings -/

/-- Two strings within `n` characters are compared by `strncmp`. -/
theorem strncmpEq_eq (h : At m p (xs ++ [0])) (hxs : 0 ∉ xs) (hname : 0 ∉ name) (hn : xs.length < n) :
    strncmpEq m p n name = decide (xs = name) := by
  induction xs generalizing p n name with
  | nil =>
    obtain ⟨n, rfl⟩ := Nat.exists_eq_succ_of_ne_zero (Nat.ne_of_gt hn)
    obtain ⟨hp, -⟩ := at_cons.mp h
    cases name with
    | nil => simp [strncmpEq, hp]
    | cons c cs =>
      have hc : (0 : UInt8) ≠ c := fun hc => hname (hc ▸ List.mem_cons_self)
      simp [strncmpEq, hp, hc]
  | cons x xs ih =>
    obtain ⟨n, rfl⟩ := Nat.exists_eq_succ_of_ne_zero (Nat.ne_of_gt (Nat.lt_of_le_of_lt (Nat.zero_le _) hn))
    obtain ⟨hp, hrest⟩ := at_cons.mp h
    have hx : x ≠ 0 := fun hx => hxs (hx ▸ List.mem_cons_self)
    cases name with
    | nil => simp [strncmpEq, hp, hx]
    | cons c cs =>
      rw [strncmpEq, hp, ih hrest (fun h0 => hxs (List.mem_cons_of_mem _ h0))
        (fun h0 => hname (List.mem_cons_of_mem _ h0)) (by simpa using hn)]
      simp

theorem strnlen_eq (h : At m p (xs ++ [0])) (hxs : 0 ∉ xs) (hn : xs.length < n) :
    strnlen m p n = xs.length := by
  induction xs generalizing p n with
  | nil =>
    obtain ⟨n, rfl⟩ := Nat.exists_eq_succ_of_ne_zero (Nat.ne_of_gt hn)
    obtain ⟨hp, -⟩ := at_cons.mp h
    simp [strnlen, hp]
  | cons x xs ih =>
    obtain ⟨n, rfl⟩ := Nat.exists_eq_succ_of_ne_zero (Nat.ne_of_gt (Nat.lt_of_le_of_lt (Nat.zero_le _) hn))
    obtain ⟨hp, hrest⟩ := at_cons.mp h
    have hx : x ≠ 0 := fun hx => hxs (hx ▸ List.mem_cons_self)
    rw [strnlen, hp, if_neg hx, ih hrest (fun h0 => hxs (List.mem_cons_of_mem _ h0)) (by simpa using hn)]
    rfl

/-- `strncmp` reads up to `N`, unless it goes on with equal characters. -/
theorem strncmpLen_le_iff {N : ℕ} :
    p + strncmpLen m p n name ≤ N ↔ p + n ≤ N ∨ ∃ i < n, p + i < N ∧ name[i]? ≠ some (m (p + i)) := by
  induction n generalizing p name with
  | zero => simp [strncmpLen]
  | succ n ih =>
    cases name with
    | nil =>
      simp only [strncmpLen]
      constructor
      · exact fun h => .inr ⟨0, by omega, by omega, by simp⟩
      · rintro (h | ⟨i, -, h, -⟩) <;> omega
    | cons c cs =>
      unfold strncmpLen
      split_ifs with hc
      · rw [show p + (strncmpLen m (p + 1) n cs + 1) = p + 1 + strncmpLen m (p + 1) n cs by omega, ih]
        refine or_congr (by omega) ⟨?_, ?_⟩
        · rintro ⟨i, hi, hp, hne⟩
          refine ⟨i + 1, by omega, by omega, ?_⟩
          rw [List.getElem?_cons_succ]
          rwa [show p + (i + 1) = p + 1 + i by omega]
        · rintro ⟨i, hi, hp, hne⟩
          cases i with
          | zero => exact absurd (congrArg some hc.symm) hne
          | succ i =>
            refine ⟨i, by omega, by omega, ?_⟩
            rw [List.getElem?_cons_succ] at hne
            rwa [show p + 1 + i = p + (i + 1) by omega]
      · constructor
        · refine fun h => .inr ⟨0, by omega, by omega, fun heq => hc ?_⟩
          exact (Option.some.inj heq).symm
        · rintro (h | ⟨i, -, h, -⟩) <;> omega

theorem strnlen_le (m : Mem) (n : ℕ) : ∀ p, strnlen m p n ≤ n := by
  induction n with
  | zero => exact fun _ => Nat.le_refl _
  | succ n ih =>
    intro p
    unfold strnlen
    split_ifs
    · exact Nat.zero_le _
    · exact Nat.succ_le_succ (ih _)

end Memory
