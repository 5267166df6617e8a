/-
# Statechart.Proofs.Active.Complete -- what it takes to have completed

A compound state has completed when a final child is active, a parallel state when all of its
regions have, and no other state ever does (`isComplete_compound`, `isComplete_parallel`). How many
levels are looked down plays no part, as there are never more than states. So whether a state has
completed depends on what is active below it only (`isComplete_congr`), and activating more states
undoes nothing (`isComplete_mono`).
-/

import Statechart.Active.Basic
import Statechart.Proofs.Tree.Lineage

namespace Statechart.Active

variable {t : Tree} {a b : Active} {n q : Nat}

/-! ## Levels -/

/-- Looking further down than there are states behind one makes no difference. -/
theorem isCompleteWithin_succ (ht : t.InOrder) {levels : Nat} (h : t.size ≤ levels + n) :
    a.isCompleteWithin t (levels + 1) n = a.isCompleteWithin t levels n := by
  induction levels generalizing n with
  | zero =>
    have hk : t.kind n = .atomic := by rw [Tree.kind, Tree.place_of_size_le (by omega)]
    simp only [isCompleteWithin, hk]
  | succ levels ih =>
    rw [isCompleteWithin, isCompleteWithin]
    cases t.kind n with
    | parallel =>
      rw [Bool.eq_iff_iff, List.all_eq_true, List.all_eq_true]
      refine forall₂_congr fun q hq => ?_
      have hlt := ht.lt_child (Tree.region_child hq)
      rw [ih (by omega)]
    | atomic | compound | final | history => rfl

/-- Whether a state has completed, in terms of its children. -/
theorem isComplete_eq (ht : t.InOrder) (n : Nat) : a.isComplete t n =
    match t.kind n with
    | .compound => (t.regions n).any (fun q => decide (q ∈ a) && t.kind q = .final)
    | .parallel => (t.regions n).all (fun q => a.isComplete t q)
    | .atomic | .final | .history _ => false := by
  obtain ⟨levels, hsize⟩ := Nat.exists_eq_add_of_le' ht.size_pos
  simp only [isComplete, hsize]
  rw [isCompleteWithin]
  cases t.kind n with
  | parallel =>
    rw [Bool.eq_iff_iff, List.all_eq_true, List.all_eq_true]
    refine forall₂_congr fun q hq => ?_
    have hlt := ht.lt_child (Tree.region_child hq)
    rw [isCompleteWithin_succ ht (by omega)]
  | atomic | compound | final | history => rfl

section

variable (ht : t.InOrder)
include ht

theorem isComplete_compound (hk : t.kind n = .compound) :
    a.isComplete t n = true ↔ ∃ q ∈ t.children n, q ∈ a ∧ t.kind q = .final := by
  rw [isComplete_eq ht, hk]
  simp only [List.any_eq_true, Bool.and_eq_true, decide_eq_true_eq]
  refine exists_congr fun q => and_congr_left fun hq => ?_
  rw [Tree.mem_regions, hq.2]
  simp [Kind.isHistory]

theorem isComplete_parallel (hk : t.kind n = .parallel) :
    a.isComplete t n = true ↔ ∀ q ∈ t.regions n, a.isComplete t q = true := by
  rw [isComplete_eq ht, hk]
  simp only [List.all_eq_true]

theorem kind_of_isComplete (h : a.isComplete t n = true) :
    t.kind n = .compound ∨ t.kind n = .parallel := by
  rw [isComplete_eq ht] at h
  cases hk : t.kind n with
  | compound => exact Or.inl rfl
  | parallel => exact Or.inr rfl
  | atomic | final | history => simp [hk] at h

/-- A parallel state with a final state among its regions never completes, as that does not. -/
theorem kind_ne_final_of_isComplete (h : a.isComplete t n = true) (hk : t.kind n = .parallel)
    (hq : q ∈ t.children n) : t.kind q ≠ .final := by
  intro hfinal
  have hregion : q ∈ t.regions n := Tree.mem_regions.mpr ⟨hq, by rw [hfinal]; rfl⟩
  have hcomplete := (isComplete_parallel ht hk).mp h q hregion
  rcases kind_of_isComplete ht hcomplete with hk' | hk' <;> rw [hfinal] at hk' <;> cases hk'

end

/-! ## What it depends on -/

/-- With more states active no less has completed. -/
theorem isComplete_mono (hsub : ∀ n ∈ a, n ∈ b) (h : a.isComplete t n = true) :
    b.isComplete t n = true := by
  have key : ∀ levels n, a.isCompleteWithin t levels n = true →
      b.isCompleteWithin t levels n = true := by
    intro levels
    induction levels with
    | zero => exact fun _ h => h
    | succ levels ih =>
      intro n h
      rw [isCompleteWithin] at h ⊢
      cases hk : t.kind n with
      | compound =>
        simp only [hk, List.any_eq_true, Bool.and_eq_true, decide_eq_true_eq] at h ⊢
        obtain ⟨q, hq, hqa, hfinal⟩ := h
        exact ⟨q, hq, hsub q hqa, hfinal⟩
      | parallel =>
        simp only [hk, List.all_eq_true] at h ⊢
        exact fun q hq => ih q (h q hq)
      | atomic | final | history => simp [hk] at h
  exact key t.size n h

/-- Whether a state has completed depends on what is active below it only. -/
theorem isComplete_congr (ht : t.InOrder) (hsame : ∀ q, t.Below q n → (q ∈ a ↔ q ∈ b)) :
    a.isComplete t n = b.isComplete t n := by
  have key : ∀ levels n, (∀ q, t.Below q n → (q ∈ a ↔ q ∈ b)) →
      a.isCompleteWithin t levels n = b.isCompleteWithin t levels n := by
    intro levels
    induction levels with
    | zero => exact fun _ _ => rfl
    | succ levels ih =>
      intro n hsame
      rw [isCompleteWithin, isCompleteWithin]
      cases t.kind n with
      | compound =>
        rw [Bool.eq_iff_iff, List.any_eq_true, List.any_eq_true]
        refine exists_congr fun q => and_congr_right fun hq => ?_
        rw [decide_eq_decide.mpr (hsame q (ht.below_child (Tree.region_child hq)))]
      | parallel =>
        rw [Bool.eq_iff_iff, List.all_eq_true, List.all_eq_true]
        refine forall₂_congr fun q hq => ?_
        have hqn := ht.below_child (Tree.region_child hq)
        rw [ih q fun x hx => hsame x (ht.below_trans hx hqn)]
      | atomic | final | history => rfl
  exact key t.size n hsame

end Statechart.Active
