/-
# Statechart.Proofs.Entry.Exhausted -- entering comes to an end by itself

How often history states may be followed is bounded, so that entering is defined for every chart.
While following them leads in no circle the bound plays no part: a target adds the same whenever it
may be followed often enough (`addTarget_eq`). Nor does a microstep make a circle where none was.
What it enters are never history states (`not_history_of_mem_entrySet`), so if none is active none
ever becomes active, and none is recorded (`Unwound.microstep`).
-/

import Statechart.Proofs.Step.Preservation

namespace Statechart.Chart

variable {c : Chart} {a : Active} {s : Entering} {r : Transition} {transitions : List Transition}
  {k m n p q x : Nat}

/-! ## What is entered is no history state -/

/-- No member of a set is a history state. -/
def StatesOnly (c : Chart) (s : Entering) : Prop := ∀ m ∈ s, (c.kind m).isHistory = false

theorem StatesOnly.insert (hs : c.StatesOnly s) (hn : (c.kind n).isHistory = false) :
    c.StatesOnly (s.insert n) := by
  intro m hm
  rcases SortedSet.mem_insert.mp hm with rfl | hm
  · exact hn
  · exact hs m hm

theorem StatesOnly.addDefaultWithin (levels : Nat) (hs : c.StatesOnly s) :
    c.StatesOnly (c.addDefaultWithin levels n s) := by
  induction levels generalizing n s with
  | zero => exact hs
  | succ levels ih =>
    rw [Chart.addDefaultWithin]
    cases hk : c.kind n with
    | atomic | final => exact hs.insert (by rw [hk]; rfl)
    | compound =>
      have hinsert : c.StatesOnly (s.insert n) := hs.insert (by rw [hk]; rfl)
      cases c.initial? n with
      | none => exact hinsert
      | some i => exact ih hinsert
    | parallel =>
      refine List.foldlRecOn (motive := c.StatesOnly) _ _ (hs.insert (by rw [hk]; rfl)) ?_
      intro s hs q _
      split
      · exact hs
      · exact ih hs
    | history depth => exact hs

theorem StatesOnly.addDefault (hs : c.StatesOnly s) : c.StatesOnly (c.addDefault n s) :=
  hs.addDefaultWithin c.size

theorem StatesOnly.addPassed (hs : c.StatesOnly s) (hn : (c.kind n).isHistory = false) :
    c.StatesOnly (c.addPassed s n) := by
  unfold Chart.addPassed
  split
  · refine List.foldlRecOn (motive := c.StatesOnly) _ _ (hs.insert hn) fun s hs q _ => ?_
    split
    · exact hs
    · exact hs.addDefault
  · exact hs.insert hn

section

variable (hc : c.WellFormed)
include hc

/-- The states above another have children, so they are no history states. -/
theorem StatesOnly.addAncestors (above : Nat) (hs : c.StatesOnly s) :
    c.StatesOnly (c.addAncestors above s x) := by
  refine List.foldlRecOn (motive := c.StatesOnly) _ _ hs fun s hs n hn => hs.addPassed ?_
  have hxn : c.Below x n := (List.takeWhile_subset _) hn
  obtain ⟨q, hq, -⟩ := hc.inOrder.exists_child_within hxn
  exact hc.not_history_of_child hq

theorem StatesOnly.addTargetWithin (follows : Nat) (hs : c.StatesOnly s) :
    c.StatesOnly (c.addTargetWithin a follows s x) := by
  induction follows generalizing s x with
  | zero => exact hs
  | succ follows ih =>
    cases hk : (c.kind x).isHistory with
    | false =>
      rw [addTargetWithin_state hk]
      exact hs.addDefault
    | true =>
      obtain ⟨p, hp⟩ := hc.exists_parent_of_history hk
      rw [hc.addTargetWithin_history hk hp]
      refine List.foldlRecOn (motive := c.StatesOnly) _ _ ?_ fun s hs y _ => hs.addAncestors hc p
      exact List.foldlRecOn (motive := c.StatesOnly) _ _ hs fun s hs y _ => ih hs

theorem StatesOnly.addTransition (hs : c.StatesOnly s) : c.StatesOnly (c.addTransition a s r) := by
  unfold Chart.addTransition
  split
  · exact hs
  · refine List.foldlRecOn (motive := c.StatesOnly) _ _ ?_ fun s hs y _ => hs.addAncestors hc _
    refine List.foldlRecOn (motive := c.StatesOnly) _ _ hs fun s hs y _ => ?_
    exact hs.addTargetWithin hc (c.size + 1)

theorem not_history_of_mem_entrySet (hm : m ∈ c.entrySet a transitions) :
    (c.kind m).isHistory = false := by
  have hempty : c.StatesOnly .empty := fun m hm => absurd hm (SortedSet.not_mem_empty m)
  exact List.foldlRecOn (motive := c.StatesOnly) _ _ hempty
    (fun s hs r _ => hs.addTransition hc) m hm

/-! ## The bound plays no part -/

/-- A target that can be followed to its end adds the same however much further it could be
followed. -/
theorem addTargetWithin_of_grounded (hg : c.Grounded a k x) {follows : Nat} (hk : k < follows)
    (s : Entering) : c.addTargetWithin a follows s x = c.addTargetWithin a (k + 1) s x := by
  induction hg generalizing follows s with
  | state hx =>
    obtain ⟨follows, rfl⟩ := Nat.exists_eq_add_one_of_ne_zero (Nat.ne_of_gt (Nat.zero_lt_of_lt hk))
    rw [addTargetWithin_state hx, addTargetWithin_state hx]
  | @history k h hh _ ih =>
    obtain ⟨follows, rfl⟩ := Nat.exists_eq_add_one_of_ne_zero (Nat.ne_of_gt (Nat.zero_lt_of_lt hk))
    obtain ⟨p, hp⟩ := hc.exists_parent_of_history hh
    rw [hc.addTargetWithin_history hh hp, hc.addTargetWithin_history hh hp]
    -- both agree on each state that the history state stands for
    congr 1
    exact List.foldl_ext _ _ _ fun s y hy => ih y hy (by omega) s

/-- Where following history states leads in no circle, how often it may be done plays no part. -/
theorem addTarget_eq (hacyclic : c.Acyclic a) {follows : Nat} (hfollows : c.size < follows)
    (s : Entering) (x : Nat) : c.addTargetWithin a follows s x = c.addTarget a s x :=
  addTargetWithin_of_grounded hc (hc.grounded_of_acyclic hacyclic x) hfollows s

omit hc in
theorem addTarget_state (hk : (c.kind x).isHistory = false) :
    c.addTarget a s x = c.addDefault x s :=
  addTargetWithin_state hk

/-- So what a history state adds is what the states add that it stands for, and what is passed on
the way to them. -/
theorem addTarget_history (hacyclic : c.Acyclic a) (hk : (c.kind x).isHistory = true)
    (hp : x ∈ c.children p) : c.addTarget a s x =
      (c.restored a x).foldl (c.addAncestors p) ((c.restored a x).foldl (c.addTarget a) s) := by
  rw [addTarget, hc.addTargetWithin_history hk hp]
  congr 1
  refine List.foldl_ext _ _ _ fun s y hy => ?_
  generalize hsize : c.size = j
  cases hsize ▸ hc.grounded_of_acyclic hacyclic x with
  | state hx => exact absurd (hx.symm.trans hk) Bool.false_ne_true
  | history _ hrestored =>
    rw [addTarget, hsize]
    exact (addTargetWithin_of_grounded hc (hrestored y hy) (by omega) s).symm

/-- Nor does the number of levels play a part that may be gone down, if they are enough for the
states after one. -/
theorem addDefaultWithin_eq {levels levels' : Nat} (hn : n < c.size) (hlevels : c.size ≤ n + levels)
    (hlevels' : c.size ≤ n + levels') (s : Entering) :
    c.addDefaultWithin levels n s = c.addDefaultWithin levels' n s := by
  induction levels generalizing levels' n s with
  | zero => omega
  | succ levels ih =>
    obtain ⟨levels', rfl⟩ := Nat.exists_eq_add_one_of_ne_zero (show levels' ≠ 0 by omega)
    have hregion : ∀ q ∈ c.regions n, ∀ s,
        c.addDefaultWithin levels q s = c.addDefaultWithin levels' q s := by
      intro q hq s
      have hlt := hc.inOrder.lt_child (Tree.region_child hq)
      exact ih (hc.inOrder.child_lt_size (Tree.region_child hq)) (by omega) (by omega) s
    rw [Chart.addDefaultWithin, Chart.addDefaultWithin]
    cases hk : c.kind n with
    | atomic | final | history depth => rfl
    | compound =>
      obtain ⟨i, hreg, hi⟩ := hc.exists_initial hk
      simp only [hi]
      exact hregion i hreg _
    | parallel =>
      refine List.foldl_ext _ _ _ fun s q hq => ?_
      simp only [hregion q hq]

theorem addDefault_eq {levels : Nat} (hn : n < c.size) (hlevels : c.size ≤ n + levels)
    (s : Entering) : c.addDefaultWithin levels n s = c.addDefault n s :=
  addDefaultWithin_eq hc hn hlevels (Nat.le_add_left c.size n) s

/-- A state with nothing below it that is entered is added alone. -/
theorem addDefault_leaf (hk : (c.kind n).isLeaf = true) : c.addDefault n s = s.insert n := by
  obtain ⟨levels, hlevels⟩ := Nat.exists_eq_add_one_of_ne_zero hc.inOrder.size_pos.ne'
  rw [Chart.addDefault, hlevels, Chart.addDefaultWithin]
  cases hkind : c.kind n with
  | atomic | final => rfl
  | compound | parallel | history depth => simp [hkind, Kind.isLeaf] at hk

/-- A compound state is added with what it begins with. -/
theorem addDefault_compound (hk : c.kind n = .compound) (hi : c.initial? n = some q) :
    c.addDefault n s = c.addDefault q (s.insert n) := by
  have hchild := Tree.region_child (hc.initial_region hk hi)
  have hlt := hc.inOrder.lt_child hchild
  obtain ⟨levels, hlevels⟩ := Nat.exists_eq_add_one_of_ne_zero hc.inOrder.size_pos.ne'
  rw [Chart.addDefault, hlevels, Chart.addDefaultWithin]
  simp only [hk, hi]
  exact addDefault_eq hc (hc.inOrder.child_lt_size hchild) (by omega) _

/-- A parallel state is added with its regions. -/
theorem addDefault_parallel (hk : c.kind n = .parallel) :
    c.addDefault n s = c.addUncovered n (s.insert n) := by
  obtain ⟨levels, hlevels⟩ := Nat.exists_eq_add_one_of_ne_zero hc.inOrder.size_pos.ne'
  rw [Chart.addDefault, hlevels, Chart.addDefaultWithin, addUncovered]
  simp only [hk]
  refine List.foldl_ext _ _ _ fun s r hr => ?_
  have hlt := hc.inOrder.lt_child (Tree.region_child hr)
  rw [addDefault_eq hc (hc.inOrder.child_lt_size (Tree.region_child hr)) (by omega)]

end

/-! ## No circle comes up -/

/-- No history state is active, and following them leads in no circle. -/
structure Unwound (c : Chart) (a : Active) : Prop where
  states : ∀ n ∈ a, (c.kind n).isHistory = false
  acyclic : c.Acyclic a

theorem Unwound.microstep (hc : c.WellFormed) (ha : c.Unwound a)
    (transitions : List Transition) : c.Unwound (c.microstep a transitions).active where
  states := by
    intro n hn
    rcases mem_microstep.mp hn with hn | hn
    · exact ha.states n (mem_left.mp hn).1
    · exact not_history_of_mem_entrySet hc hn
  acyclic := acyclic_microstep hc ha.states ha.acyclic transitions

theorem unwound_initialStep (hc : c.WellFormed) (hdef : c.DefaultsAcyclic) :
    c.Unwound c.initialStep.active where
  states := fun n hn => (initialStep_legal hc).not_history hn
  acyclic := by
    have hstates := (recordsFrom_initialStep c.Sound).states fun _ hb => hb
    exact hc.acyclic_of_defaults hstates hdef

end Statechart.Chart
