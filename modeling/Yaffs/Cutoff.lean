import Mathlib.Algebra.Ring.Nat
import Mathlib.Logic.Function.Basic

/-!
# Programs that may be cut off

A program takes a state to the next, or is cut off on its way, and leaves what it has done by then. `Ends` says
what holds when it comes to its end and what holds when it is cut off. Words in memory are cleared bit by bit, so
that a word that is being written is somewhere between what it was and what it is to be.
-/

namespace Cutoff

universe u v

variable {σ τ : Type u} {ε : Type v} {Q Q' : σ → Prop} {R : τ → Prop} {C C' : ε → Prop}

/-- The program ends with `Q`, or is cut off with `C`. -/
def Ends (Q : σ → Prop) (C : ε → Prop) (r : Except ε σ) : Prop :=
  (∃ s, r = .ok s ∧ Q s) ∨ ∃ x, r = .error x ∧ C x

theorem Ends.ok {s : σ} (h : Q s) : Ends Q C (.ok s) :=
  Or.inl ⟨s, rfl, h⟩

theorem Ends.mono {r : Except ε σ} (h : Ends Q C r) (hQ : ∀ s, Q s → Q' s) (hC : ∀ x, C x → C' x) : Ends Q' C' r := by
  rcases h with ⟨s, hr, hs⟩ | ⟨x, hr, hx⟩
  · exact Or.inl ⟨s, hr, hQ s hs⟩
  · exact Or.inr ⟨x, hr, hC x hx⟩

/-- One program after the other is cut off in the one or in the other. -/
theorem Ends.bind {r : Except ε σ} {f : σ → Except ε τ} (h : Ends Q C r) (hf : ∀ s, Q s → Ends R C (f s)) :
    Ends R C (r >>= f) := by
  rcases h with ⟨s, rfl, hs⟩ | ⟨x, rfl, hx⟩
  · exact hf s hs
  · exact Or.inr ⟨x, rfl, hx⟩

/-! ## Bits that are cleared -/

variable {n : ℕ} {x y z : BitVec n}

/-- All bits of `x` are bits of `y`. -/
def Under (x y : BitVec n) : Prop :=
  ∀ i, x.getLsbD i = true → y.getLsbD i = true

theorem Under.refl (x : BitVec n) : Under x x :=
  fun _ h => h

theorem Under.trans (h : Under x y) (h' : Under y z) : Under x z :=
  fun i hi => h' i (h i hi)

theorem Under.and_eq (h : Under x y) : y &&& x = x := by
  ext i hi
  rw [BitVec.getElem_and, ← BitVec.getLsbD_eq_getElem, ← BitVec.getLsbD_eq_getElem]
  cases hx : x.getLsbD i with
  | false => rw [Bool.and_false]
  | true => rw [h i hx, Bool.and_true]

theorem Under.and_left (x y : BitVec n) : Under (x &&& y) x := fun i hi => by
  rw [BitVec.getLsbD_and, Bool.and_eq_true] at hi
  exact hi.1

/-- Bits that `x` does not have can be cleared above it. -/
theorem Under.clear {m : BitVec n} (h : Under x y) (hm : m &&& x = 0) : Under x (y &&& ~~~m) := fun i hi => by
  have hlt : i < n := BitVec.lt_of_getLsbD hi
  have hbit : (m &&& x).getLsbD i = false := by
    rw [hm]
    exact BitVec.getLsbD_zero
  rw [BitVec.getLsbD_and, hi, Bool.and_true] at hbit
  rw [BitVec.getLsbD_and, BitVec.getLsbD_not, h i hi, hbit]
  simp [hlt]

theorem Under.and_not (h : Under x y) : x &&& ~~~y = 0 := by
  ext i hi
  rw [BitVec.getElem_and, BitVec.getElem_not, ← BitVec.getLsbD_eq_getElem, ← BitVec.getLsbD_eq_getElem]
  cases hx : x.getLsbD i with
  | false => simp
  | true => simp [h i hx]

theorem under_allOnes (x : BitVec n) : Under x (BitVec.allOnes n) := fun i hi => by
  rw [BitVec.getLsbD_allOnes, decide_eq_true_eq]
  exact BitVec.lt_of_getLsbD hi

theorem Under.setWidth {m : ℕ} (h : Under x y) : Under (x.setWidth m) (y.setWidth m) := fun i hi => by
  rw [BitVec.getLsbD_setWidth, Bool.and_eq_true] at hi ⊢
  exact ⟨hi.1, h i hi.2⟩

theorem Under.antisymm (h : Under x y) (h' : Under y x) : x = y := by
  ext i hi
  rw [← BitVec.getLsbD_eq_getElem, ← BitVec.getLsbD_eq_getElem, Bool.eq_iff_iff]
  exact ⟨h i, h' i⟩

/-! ## Words that are being written -/

variable {w w' w'' : ℕ → BitVec n} {addr a : ℕ} {buf : List (BitVec n)}

/-- The memory with `buf` in it from `addr` on. -/
def putWords (w : ℕ → BitVec n) (addr : ℕ) (buf : List (BitVec n)) (a : ℕ) : BitVec n :=
  if addr ≤ a ∧ a < addr + buf.length then buf.getD (a - addr) 0 else w a

/-- Of the words from `addr` on each is somewhere between what it was in `w` and what it is to be. -/
structure Worn (w : ℕ → BitVec n) (addr : ℕ) (buf : List (BitVec n)) (w' : ℕ → BitVec n) : Prop where
  other : ∀ a, a < addr ∨ addr + buf.length ≤ a → w' a = w a
  above : ∀ i < buf.length, Under (buf.getD i 0) (w' (addr + i))
  below : ∀ i < buf.length, Under (w' (addr + i)) (w (addr + i))

/-- The words from `addr` on can be made those of `buf` by clearing bits. -/
def Fits (w : ℕ → BitVec n) (addr : ℕ) (buf : List (BitVec n)) : Prop :=
  ∀ i < buf.length, Under (buf.getD i 0) (w (addr + i))

theorem putWords_nil (w : ℕ → BitVec n) (addr : ℕ) : putWords w addr [] = w := by
  funext a
  unfold putWords
  rw [if_neg (by simp)]

/-- The first word, and then the others. -/
theorem putWords_cons (w : ℕ → BitVec n) (addr : ℕ) (v : BitVec n) (buf : List (BitVec n)) :
    putWords (Function.update w addr v) (addr + 1) buf = putWords w addr (v :: buf) := by
  funext a
  unfold putWords
  rw [List.length_cons]
  rcases Nat.lt_trichotomy a addr with h | rfl | h
  · rw [if_neg (by omega), if_neg (by omega), Function.update_of_ne (by omega)]
  · rw [if_neg (by omega), if_pos (by omega), Function.update_self, Nat.sub_self]
    rfl
  · obtain ⟨i, rfl⟩ : ∃ i, a = addr + 1 + i := ⟨a - (addr + 1), by omega⟩
    rw [show addr + 1 + i - (addr + 1) = i by omega, show addr + 1 + i - addr = i + 1 by omega,
      Function.update_of_ne (by omega), List.getD_cons_succ]
    simp only [show (addr + 1 ≤ addr + 1 + i ∧ addr + 1 + i < addr + 1 + buf.length) ↔
      (addr ≤ addr + 1 + i ∧ addr + 1 + i < addr + (buf.length + 1)) by omega]

theorem putWords_at {i : ℕ} (hi : i < buf.length) : putWords w addr buf (addr + i) = buf.getD i 0 := by
  unfold putWords
  rw [if_pos (by omega), Nat.add_sub_cancel_left]

theorem putWords_other (h : a < addr ∨ addr + buf.length ≤ a) : putWords w addr buf a = w a := by
  unfold putWords
  rw [if_neg (by omega)]

theorem Fits.put (h : Fits w addr buf) : Worn w addr buf (putWords w addr buf) where
  other := fun _ ha => putWords_other ha
  above := fun i hi => by
    rw [putWords_at hi]
    exact Under.refl _
  below := fun i hi => by
    rw [putWords_at hi]
    exact h i hi

/-- The first word is being written. -/
theorem Fits.first {v t : BitVec n} (h : Fits w addr (v :: buf)) (hv : Under v t) (ht : Under t (w addr)) :
    Worn w addr (v :: buf) (Function.update w addr t) where
  other := fun a ha => Function.update_of_ne (by rw [List.length_cons] at ha; omega) _ _
  above := fun i hi => by
    cases i with
    | zero => rwa [Nat.add_zero, Function.update_self]
    | succ i =>
      rw [Function.update_of_ne (by omega)]
      exact h (i + 1) hi
  below := fun i hi => by
    cases i with
    | zero => rwa [Nat.add_zero, Function.update_self]
    | succ i =>
      rw [Function.update_of_ne (by omega)]
      exact Under.refl _

theorem Fits.tail {v : BitVec n} (h : Fits w addr (v :: buf)) : Fits (Function.update w addr v) (addr + 1) buf := by
  intro i hi
  rw [Function.update_of_ne (by omega), Nat.add_assoc, Nat.add_comm 1]
  exact h (i + 1) (Nat.succ_lt_succ hi)

/-- The first word has been written. -/
theorem Worn.cons {v : BitVec n} (h : Fits w addr (v :: buf))
    (hw : Worn (Function.update w addr v) (addr + 1) buf w') :
    Worn w addr (v :: buf) w' := by
  have h0 : w' addr = v := by rw [hw.other addr (by omega), Function.update_self]
  refine ⟨fun a ha => ?_, fun i hi => ?_, fun i hi => ?_⟩
  · rw [List.length_cons] at ha
    rw [hw.other a (by omega), Function.update_of_ne (by omega)]
  · cases i with
    | zero =>
      rw [Nat.add_zero, h0]
      exact Under.refl _
    | succ i =>
      have := hw.above i (Nat.lt_of_succ_lt_succ hi)
      rwa [Nat.add_assoc, Nat.add_comm 1] at this
  · cases i with
    | zero =>
      rw [Nat.add_zero, h0]
      exact h 0 (Nat.succ_pos _)
    | succ i =>
      have := hw.below i (Nat.lt_of_succ_lt_succ hi)
      rwa [Nat.add_assoc, Nat.add_comm 1, Function.update_of_ne (by omega)] at this

end Cutoff
