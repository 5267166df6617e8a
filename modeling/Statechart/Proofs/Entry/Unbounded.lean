/-
# Statechart.Proofs.Entry.Unbounded -- when entering is ever done

Entering without bounds adds what the bounded definitions add, or never comes to an end. It has no
end exactly if a target leads in a circle of history states (`Chart.addTarget?_eq`,
`Chart.not_circular_of_addTarget?`): what is no history state leads further down the tree only, and
a history state that leads in no circle is followed to its ends. So a microstep is the same without
bounds, unless what it fires enters a circle (`Chart.microstep?_eq`, `Chart.microstep?_eq_none`).
-/

import Statechart.Step.Unbounded
import Statechart.Proofs.Entry.Exhausted
import Statechart.Proofs.Lists

namespace Statechart.Chart

variable {c : Chart} {a : Active} {s t : Entering} {r : Transition} {transitions : List Transition}
  {k n x : Nat}

section

variable (hc : c.WellFormed)
include hc

/-- What is no history state leads only further down the tree. -/
theorem addTarget?_state (hk : (c.kind n).isHistory = false) (s : Entering) :
    c.addTarget? a s n = some (c.addDefault n s) := by
  -- by induction on how many states come after
  generalize hj : c.size - n = j
  induction j using Nat.strongRecOn generalizing n s with
  | ind j ih =>
    have hregion : ∀ q ∈ c.regions n, ∀ s, c.addTarget? a s q = some (c.addDefault q s) := by
      intro q hq s
      obtain ⟨hchild, hqk⟩ := Tree.mem_regions.mp hq
      have hlt := hc.inOrder.lt_child hchild
      have hsize := hc.inOrder.child_lt_size hchild
      exact ih (c.size - q) (by omega) hqk s rfl
    rw [addTarget?.eq_def]
    cases hkind : c.kind n with
    | atomic | final => rw [addDefault_leaf hc (by rw [hkind]; rfl)]
    | compound =>
      obtain ⟨i, hreg, hi⟩ := hc.exists_initial hkind
      simp only [hi]
      rw [hregion i hreg, addDefault_compound hc hkind hi]
    | parallel =>
      simp only
      rw [addUncovered?.eq_def, addDefault_parallel hc hkind, addUncovered]
      refine foldlM_eq_some fun q hq s => ?_
      rw [hregion q hq]
      split <;> rfl
    | history depth => simp [hkind, Kind.isHistory] at hk

theorem addUncovered?_eq (s : Entering) (n : Nat) :
    c.addUncovered? a s n = some (c.addUncovered n s) := by
  rw [addUncovered?.eq_def, addUncovered]
  refine foldlM_eq_some fun q hq s => ?_
  rw [addTarget?_state hc (Tree.mem_regions.mp hq).2]
  split <;> rfl

theorem addAncestors?_eq (above : Nat) (s : Entering) (n : Nat) :
    c.addAncestors? a above s n = some (c.addAncestors above s n) := by
  rw [addAncestors?.eq_def, addAncestors]
  refine foldlM_eq_some fun m _ s => ?_
  rw [addUncovered?_eq hc, addPassed]
  split <;> rfl

/-- A target that can be followed to its ends is entered in the end. -/
theorem addTarget?_grounded (hg : c.Grounded a k x) (s : Entering) :
    c.addTarget? a s x = some (c.addTargetWithin a (k + 1) s x) := by
  induction hg generalizing s with
  | state hk => rw [addTarget?_state hc hk, addTargetWithin_state hk]
  | @history k h hk _ ih =>
    obtain ⟨p, hp⟩ := hc.exists_parent_of_history hk
    obtain ⟨depth, hdepth⟩ := Kind.exists_depth hk
    rw [addTarget?.eq_def, hc.addTargetWithin_history hk hp]
    simp only [hdepth, hc.inOrder.parent?_child hp]
    rw [foldlM_eq_some fun y hy s => ih y hy s]
    exact foldlM_eq_some fun y _ s => addAncestors?_eq hc p s y

theorem addTarget?_eq (hx : ¬ c.Circular a x) (s : Entering) :
    c.addTarget? a s x = some (c.addTarget a s x) :=
  addTarget?_grounded hc (hc.grounded_of_not_circular hx) s

/-- What is entered in the end leads in no circle. -/
theorem not_circular_of_addTarget? (h : c.addTarget? a s x = some t) : ¬ c.Circular a x := by
  refine addTarget?.partial_correctness c a (fun _ x _ => ¬ c.Circular a x) (fun _ _ _ => True)
    (fun _ _ _ _ => True) ?_ (fun _ _ _ _ _ _ => trivial) (fun _ _ _ _ _ _ _ => trivial) s x t h
  intro addTarget? _ _ hrec _ _ s x t hx hcircular
  obtain ⟨y, ⟨hk, hy⟩, hback⟩ := hcircular.exists_follows
  obtain ⟨p, hp⟩ := hc.exists_parent_of_history hk
  obtain ⟨depth, hdepth⟩ := Kind.exists_depth hk
  simp only [hdepth, hc.inOrder.parent?_child hp] at hx
  -- what it stands for has been entered before
  obtain ⟨s', hs', -⟩ := Option.bind_eq_some_iff.mp hx
  obtain ⟨s₁, s₂, hentered⟩ := exists_of_foldlM_eq_some hs' y hy
  exact hrec s₁ y s₂ hentered hback

/-! ## Microsteps -/

theorem addTransition?_eq (h : ∀ d, r.domain? c.toTree = some d → ∀ x ∈ r.targets, ¬ c.Circular a x)
    (s : Entering) : c.addTransition? a s r = some (c.addTransition a s r) := by
  unfold addTransition? addTransition
  cases hd : r.domain? c.toTree with
  | none => rfl
  | some d =>
    simp only
    rw [foldlM_eq_some fun x hx s => addTarget?_eq hc (h d hd x hx) s]
    exact foldlM_eq_some fun x _ s => addAncestors?_eq hc d s x

end

/-- Some transitions that are fired together enter a target that leads in a circle. -/
def EntersCircle (c : Chart) (a : Active) (transitions : List Transition) : Prop :=
  ∃ r ∈ transitions, (r.domain? c.toTree).isSome = true ∧
    ∃ x ∈ r.targets, c.Circular (c.left a transitions) x

section

variable (hc : c.WellFormed)
include hc

theorem microstep?_eq (h : ¬ c.EntersCircle a transitions) :
    c.microstep? a transitions = some (c.microstep a transitions) := by
  have hentry : c.entrySet? (c.left a transitions) transitions =
      some (c.entrySet (c.left a transitions) transitions) := by
    refine foldlM_eq_some fun r hr s => addTransition?_eq hc (fun d hd x hx hcircular => ?_) s
    exact h ⟨r, hr, by rw [hd]; rfl, x, hx, hcircular⟩
  rw [left] at hentry
  rw [microstep?, hentry]
  rfl

theorem microstep?_eq_none (h : c.EntersCircle a transitions) :
    c.microstep? a transitions = none := by
  obtain ⟨r, hr, hdomain, x, hx, hcircular⟩ := h
  obtain ⟨d, hd⟩ := Option.isSome_iff_exists.mp hdomain
  refine Option.eq_none_iff_forall_ne_some.mpr fun stepped hstepped => ?_
  obtain ⟨s, hs, -⟩ := Option.bind_eq_some_iff.mp hstepped
  obtain ⟨s₁, s₂, htransition⟩ := exists_of_foldlM_eq_some hs r hr
  unfold addTransition? at htransition
  rw [hd] at htransition
  obtain ⟨s₃, htargets, -⟩ := Option.bind_eq_some_iff.mp htransition
  obtain ⟨s₄, s₅, htarget⟩ := exists_of_foldlM_eq_some htargets x hx
  exact not_circular_of_addTarget? hc htarget hcircular

/-- Where no history state is active, nothing fired enters a circle if there is none. -/
theorem Unwound.not_entersCircle (ha : c.Unwound a) (transitions : List Transition) :
    ¬ c.EntersCircle a transitions := by
  rintro ⟨r, -, -, x, -, hcircular⟩
  exact (acyclic_left hc ha.states ha.acyclic transitions).not_circular x hcircular

theorem initialStep?_eq : c.initialStep? = some c.initialStep := by
  rw [initialStep?, addTarget?_state hc hc.root_not_history]
  rfl

end

end Statechart.Chart
