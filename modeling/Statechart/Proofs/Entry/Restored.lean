/-
# Statechart.Proofs.Entry.Restored -- what a record brings back

A transition to a history state with a record aims at what is recorded. If that has been taken of a
sound set, exactly this comes back below the parent: all that was active there, when the leaves were
recorded (`enters_deep_iff`), and the children that were active, each with what it begins with, when
only these were (`enters_shallow_iff`).
-/

import Statechart.Proofs.Active.Legal
import Statechart.Proofs.Entry.Transition

namespace Statechart.Chart

variable {c : Chart} {a b : Active} {r : Transition} {depth : HistoryDepth} {goal : Nat → Prop}
  {d g h n p : Nat}

/-- What is recorded of a set below a state: its leaves, or the active children of the state. -/
def Recorded (c : Chart) (b : Active) (p : Nat) : HistoryDepth → Nat → Prop
  | .deep, n => n ∈ b.leaves c.toTree ∧ c.Below n p
  | .shallow, n => n ∈ c.regions p ∧ n ∈ b

/-- What such a record brings back below the state: all that was active, or the children that were
with what they begin with. -/
def Restores (c : Chart) (b : Active) (p : Nat) : HistoryDepth → Nat → Prop
  | .deep, n => n ∈ b
  | .shallow, n => ∃ q ∈ c.regions p, q ∈ b ∧ c.Descends noGoal q n

theorem mem_snapshot : n ∈ c.snapshot b p depth ↔ c.Recorded b p depth n := by
  cases depth with
  | deep => exact mem_snapshot_deep
  | shallow => exact mem_snapshot_shallow

section

variable (hc : c.WellFormed) (hb : c.Sound b) (hk : c.kind h = .history depth)
  (htargets : r.targets = [h]) (hrec : a.recorded? h = some (c.snapshot b p depth))
include hb hk htargets hrec

/-- A transition to a history state aims at what is recorded. -/
theorem goal_iff_mem_snapshot : c.Goal a r g ↔ g ∈ c.snapshot b p depth := by
  have hhist : (c.kind h).isHistory = true := by rw [hk]; rfl
  have hstate : ∀ x ∈ c.snapshot b p depth, (c.kind x).isHistory = false :=
    fun x hx => hb.not_history (mem_of_mem_snapshot hx)
  have hrestored : c.restored a h = (c.snapshot b p depth).toList := by
    simp only [restored, hrec]
  constructor
  · rintro ⟨x, hx, hs⟩
    rw [htargets, List.mem_singleton] at hx
    subst hx
    obtain ⟨y, hy, hyg⟩ := (standsFor_history hhist).mp hs
    rw [hrestored, ← SortedSet.mem_iff] at hy
    rw [(standsFor_state (hstate y hy)).mp hyg]
    exact hy
  · intro hg
    have hmem : g ∈ c.restored a h := by rw [hrestored, ← SortedSet.mem_iff]; exact hg
    exact ⟨h, by rw [htargets]; exact List.mem_singleton_self h,
      .follow hhist hmem (.state (hstate g hg))⟩

include hc

/-- So its goals do not get in each other's way. -/
theorem separate_of_recorded (hstates : c.RecordsStates a) : c.Separate a r where
  states := hstates
  apart := by
    intro g g' hg hg' hw
    rw [goal_iff_mem_snapshot hb hk htargets hrec] at hg hg'
    exact hb.snapshot_eq_of_within hc hg hg' hw
  own := by
    rintro x q g hx - - ⟨y, hy, hs⟩ -
    rw [htargets, List.mem_singleton] at hx hy
    rw [hx, ← hy]
    exact hs

end

/-! ## Descents to what is recorded -/

section

variable (hc : c.WellFormed) (hb : c.Sound b) (hpb : p ∈ b) (hroot : p ≠ Tree.root)
  (hpd : c.Within p d)
include hc hb hpb hroot hpd

/-- The descent to the leaves below a state brings back all that was active there. -/
theorem enters_deep_iff (hgoal : ∀ g, goal g ↔ g ∈ c.snapshot b p .deep) (hn : c.Below n p) :
    c.Enters goal d n ↔ n ∈ b := by
  have haimed : ∀ {q}, q ∈ b → c.Below q p → c.Aimed goal q := by
    intro q hqb hqp
    obtain ⟨l, hl, hlq⟩ := hb.exists_leaf hc hqb
    have hlp := hc.inOrder.below_of_within_of_below hlq hqp
    exact ⟨l, (hgoal l).mpr (mem_snapshot_deep.mpr ⟨hl, hlp⟩), hlq⟩
  have hactive : ∀ {q}, c.Aimed goal q → q ∈ b := by
    rintro q ⟨g, hg, hgq⟩
    exact hb.mem_of_within hc (mem_of_mem_snapshot ((hgoal g).mp hg)) hgq
  constructor
  · -- downwards from the parent: each state that leads further was active
    induction n using Nat.strongRecOn with
    | ind n ih =>
      intro hent
      obtain ⟨q, hq, hqp⟩ := hc.inOrder.below_iff_parent.mp hn
      rcases hc.enters_cases hent hq with ⟨-, haim⟩ | ⟨hentq, hl⟩
      · exact hactive haim
      have hqb : q ∈ b := by
        rcases Tree.within_iff.mp hqp with rfl | hbelow
        · exact hpb
        · exact ih q (hc.inOrder.lt_child hq) hbelow hentq
      cases hl with
      | toward _ _ haim => exact hactive haim
      | initial hk hnone _ =>
        -- a child of a compound state was active, so something in it is aimed at
        obtain ⟨q', hq', hqb'⟩ := hb.exists_region hqb (Or.inl hk)
        have hqp' := hc.inOrder.below_of_below_of_within
          (hc.inOrder.below_child (Tree.region_child hq')) hqp
        exact absurd (haimed hqb' hqp') (hnone q' hq')
      | region hk hreg =>
        have hqroot : q ≠ Tree.root := by
          rintro rfl
          rcases Tree.within_iff.mp hqp with heq | hbelow
          · exact hroot heq.symm
          · exact hc.inOrder.not_below_root hbelow
        exact hb.region_mem hqb hqroot hk hreg
  · intro hnb
    have hnd := hc.inOrder.below_of_below_of_within hn hpd
    exact hc.enters_of_aimed (haimed hnb hn) hnd (hb.not_history hnb)

/-- The descent to the children of a state brings back those that were active, each with what it
begins with. -/
theorem enters_shallow_iff (hgoal : ∀ g, goal g ↔ g ∈ c.snapshot b p .shallow)
    (hn : c.Below n p) :
    c.Enters goal d n ↔ ∃ q ∈ c.regions p, q ∈ b ∧ c.Descends noGoal q n := by
  have hactive : ∀ {q}, q ∈ c.children p → c.Aimed goal q → q ∈ c.regions p ∧ q ∈ b := by
    rintro q hq ⟨g, hg, hgq⟩
    obtain ⟨hreg, hgb⟩ := mem_snapshot_shallow.mp ((hgoal g).mp hg)
    rw [← hc.inOrder.child_unique (Tree.region_child hreg) hq (Tree.within_self _ g) hgq]
    exact ⟨hreg, hgb⟩
  have haimed : ∀ {q}, q ∈ c.regions p → q ∈ b → c.Aimed goal q := fun hreg hqb =>
    ⟨_, (hgoal _).mpr (mem_snapshot_shallow.mpr ⟨hreg, hqb⟩), Tree.within_self _ _⟩
  have hbelow : ∀ {q}, q ∈ c.children p → ∀ g, goal g → ¬ c.Below g q := by
    intro q hq g hg hgq
    have hreg := (mem_snapshot_shallow.mp ((hgoal g).mp hg)).1
    have hpq := (hc.inOrder.below_child_iff (Tree.region_child hreg)).mp hgq
    exact hc.inOrder.not_below_self
      (hc.inOrder.below_of_below_of_within (hc.inOrder.below_child hq) hpq)
  constructor
  · intro hent
    obtain ⟨q, hq, hnq⟩ := hc.inOrder.exists_child_within hn
    have hqd := hc.inOrder.below_of_below_of_within (hc.inOrder.below_child hq) hpd
    obtain ⟨hentq, hpath⟩ := hc.enters_of_within hent hnq hqd
    have hqb : q ∈ c.regions p ∧ q ∈ b := by
      rcases hc.enters_cases hentq hq with ⟨-, haim⟩ | ⟨-, hl⟩
      · exact hactive hq haim
      · cases hl with
        | toward _ _ haim => exact hactive hq haim
        | initial hk hnone _ =>
          obtain ⟨q', hq', hqb'⟩ := hb.exists_region hpb (Or.inl hk)
          exact absurd (haimed hq' hqb') (hnone q' hq')
        | region hk hreg => exact ⟨hreg, hb.region_mem hpb hroot hk hreg⟩
    exact ⟨q, hqb.1, hqb.2, hc.default_of_descends (hbelow hq) hpath⟩
  · rintro ⟨q, hreg, hqb, hpath⟩
    have hq := Tree.region_child hreg
    have hqd := hc.inOrder.below_of_below_of_within (hc.inOrder.below_child hq) hpd
    have hent := hc.enters_of_aimed (haimed hreg hqb) hqd (hb.not_history hqb)
    exact hent.trans (hc.descends_of_default (hbelow hq) hpath)

/-- The descent to what is recorded enters what the record brings back. -/
theorem enters_iff_restores (hgoal : ∀ g, goal g ↔ g ∈ c.snapshot b p depth) (hn : c.Below n p) :
    c.Enters goal d n ↔ c.Restores b p depth n := by
  cases depth with
  | deep => exact enters_deep_iff hc hb hpb hroot hpd hgoal hn
  | shallow => exact enters_shallow_iff hc hb hpb hroot hpd hgoal hn

end

end Statechart.Chart
