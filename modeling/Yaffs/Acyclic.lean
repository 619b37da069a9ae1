import Mathlib.Logic.Relation
import Mathlib.Data.List.Nodup
import Mathlib.Data.List.Perm.Subperm

/-!
# Induction along a relation without cycles

A relation whose runs from `a` stay in a list and never come back to a point is
explored in as many rounds as the list is long. `acyclic_induction` is the induction
rule, for a predicate that counts the rounds down; `no_cycle` is its converse, for a
predicate whose count of rounds goes down along the relation.
-/

namespace Acyclic

open Relation

variable {α : Type*} {R : α → α → Prop} {a b : α}

/-- From `a` no cycle can be reached. -/
def CycleFree (R : α → α → Prop) (a : α) : Prop :=
  ∀ b, ReflTransGen R a b → ¬TransGen R b b

theorem CycleFree.step (h : CycleFree R a) (hab : R a b) : CycleFree R b :=
  fun c hc => h c (hc.head hab)

/-- A list without repetitions and inside another is no longer. -/
theorem length_le_of_nodup_subset {l m : List α} (hl : l.Nodup) (h : ∀ x ∈ l, x ∈ m) :
    l.length ≤ m.length :=
  (hl.subperm h).length_le

/-- The induction, with the points `seen` on the way to `a`. -/
theorem acyclic_induction_aux {P : ℕ → α → Prop} {l : List α}
    (hstep : ∀ n a, (∀ b, R a b → P n b) → P (n + 1) a) (n : ℕ) :
    ∀ (a : α) (seen : List α), CycleFree R a → (∀ b, ReflTransGen R a b → b ∈ l) →
      seen.Nodup → (∀ x ∈ seen, x ∈ l ∧ TransGen R x a) → l.length ≤ n + seen.length →
      P n a := by
  induction n with
  | zero =>
    intro a seen hac hmem hnodup hseen hlen
    exfalso
    have ha : a ∉ seen := fun ha => hac a .refl (hseen a ha).2
    have hle := length_le_of_nodup_subset (List.nodup_cons.mpr ⟨ha, hnodup⟩) (m := l)
      (by
        intro x hx
        rcases List.mem_cons.mp hx with rfl | hx
        · exact hmem x .refl
        · exact (hseen x hx).1)
    simp only [List.length_cons] at hle
    omega
  | succ n ih =>
    intro a seen hac hmem hnodup hseen hlen
    have ha : a ∉ seen := fun ha => hac a .refl (hseen a ha).2
    refine hstep n a fun b hab => ih b (a :: seen) (hac.step hab) ?_ ?_ ?_ ?_
    · exact fun c hc => hmem c (hc.head hab)
    · exact List.nodup_cons.mpr ⟨ha, hnodup⟩
    · intro x hx
      rcases List.mem_cons.mp hx with rfl | hx
      · exact ⟨hmem x .refl, .single hab⟩
      · exact ⟨(hseen x hx).1, (hseen x hx).2.tail hab⟩
    · simp only [List.length_cons]
      omega

/-- What holds of a point with one round more than of the points behind it holds of `a`
with as many rounds as there are points. -/
theorem acyclic_induction {P : ℕ → α → Prop} {l : List α}
    (hstep : ∀ n a, (∀ b, R a b → P n b) → P (n + 1) a) (hac : CycleFree R a)
    (hmem : ∀ b, ReflTransGen R a b → b ∈ l) : P l.length a :=
  acyclic_induction_aux hstep l.length a [] hac hmem List.nodup_nil (by simp) (by simp)

/-- Where every step along the relation uses up a round, the points with rounds left reach
no cycle. -/
theorem no_cycle {Q : ℕ → α → Prop} (h0 : ∀ a, ¬Q 0 a)
    (hstep : ∀ n a b, R a b → Q (n + 1) a → Q n b) (n : ℕ) (ha : Q n a) : CycleFree R a := by
  have hlt : ∀ {a b}, TransGen R a b → ∀ n, Q n a → ∃ m, m < n ∧ Q m b := by
    intro a b hab
    induction hab with
    | single hab =>
      intro n hn
      cases n with
      | zero => exact absurd hn (h0 _)
      | succ n => exact ⟨n, Nat.lt_succ_self n, hstep n _ _ hab hn⟩
    | tail _ hbc ih =>
      intro n hn
      obtain ⟨m, hm, hb⟩ := ih n hn
      cases m with
      | zero => exact absurd hb (h0 _)
      | succ m => exact ⟨m, by omega, hstep m _ _ hbc hb⟩
  intro b hab hbb
  have hb : ∃ m, Q m b := by
    rcases reflTransGen_iff_eq_or_transGen.mp hab with rfl | hab
    · exact ⟨n, ha⟩
    · obtain ⟨m, -, hm⟩ := hlt hab n ha
      exact ⟨m, hm⟩
  obtain ⟨m, hm⟩ := hb
  induction m using Nat.strongRecOn with
  | ind m ih =>
    obtain ⟨k, hk, hb⟩ := hlt hbb m hm
    exact ih k hk hb

end Acyclic
