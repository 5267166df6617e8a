/-
# Statechart.Proofs.Active.Legal -- sets that a machine can be in

`Chart.Legal` is what is meant by a set of states that can be active together: one child of each
compound state, all regions of each parallel one, and everything around. `Chart.Sound` is the part
of this that no transition can break: a parallel root may lack regions and a compound state may
have several active children. Of a sound set, what a history state records is not empty and stays
below its parent.

`Chart.Rooted` asks only that everything around an active state is active. Just such sets are known
by their leaves (`WellFormed.exists_leaf`, `Rooted.mem_of_within`).
-/

import Statechart.Proofs.Chart.WellFormed
import Statechart.Proofs.Sorted.Map
import Statechart.Step.Microstep

namespace Statechart

/-- What is active and what is recorded is all there is. -/
theorem Active.ext {a b : Active} (hstates : ∀ n, n ∈ a ↔ n ∈ b)
    (hrecords : ∀ h, a.recorded? h = b.recorded? h) : a = b := by
  have hs : a.states = b.states := SortedSet.ext hstates
  have hh : a.history = b.history := by
    refine SortedMap.ext_entries fun e => ?_
    rw [SortedMap.mem_toList, SortedMap.mem_toList]
    show a.recorded? e.1 = some e.2 ↔ b.recorded? e.1 = some e.2
    rw [hrecords]
  cases a
  cases b
  cases hs
  cases hh
  rfl

end Statechart

namespace Statechart.Chart

variable {c : Chart} {a b : Active} {g h l m n p q : Nat}

/-- The root is active, and with each state the one around it. -/
structure Rooted (c : Chart) (a : Active) : Prop where
  root_mem : Tree.root ∈ a
  lt_size : ∀ {n}, n ∈ a → n < c.size
  parent_mem : ∀ {n p}, n ∈ a → n ∈ c.children p → p ∈ a

/-- The root is active, with each state the one around it and something inside it, and with each
parallel state but the root all of its regions. -/
structure Sound (c : Chart) (a : Active) : Prop where
  root_mem : Tree.root ∈ a
  lt_size : ∀ {n}, n ∈ a → n < c.size
  parent_mem : ∀ {n p}, n ∈ a → n ∈ c.children p → p ∈ a
  not_history : ∀ {n}, n ∈ a → (c.kind n).isHistory = false
  exists_region : ∀ {n}, n ∈ a → c.kind n = .compound ∨ c.kind n = .parallel →
    ∃ q ∈ c.regions n, q ∈ a
  region_mem : ∀ {n q}, n ∈ a → n ≠ Tree.root → c.kind n = .parallel → q ∈ c.regions n → q ∈ a

/-- The root is active, with each state the one around it, with each compound state exactly one of
its children and with each parallel state all of its regions; no history state is. -/
structure Legal (c : Chart) (a : Active) : Prop where
  root_mem : Tree.root ∈ a
  lt_size : ∀ {n}, n ∈ a → n < c.size
  parent_mem : ∀ {n p}, n ∈ a → n ∈ c.children p → p ∈ a
  not_history : ∀ {n}, n ∈ a → (c.kind n).isHistory = false
  exists_unique : ∀ {n}, n ∈ a → c.kind n = .compound → ∃! q, q ∈ c.regions n ∧ q ∈ a
  region_mem : ∀ {n q}, n ∈ a → c.kind n = .parallel → q ∈ c.regions n → q ∈ a

theorem Legal.sound (hc : c.WellFormed) (ha : c.Legal a) : c.Sound a where
  root_mem := ha.root_mem
  lt_size := ha.lt_size
  parent_mem := ha.parent_mem
  not_history := ha.not_history
  exists_region := by
    rintro n hn (hk | hk)
    · obtain ⟨q, hq, -⟩ := ha.exists_unique hn hk
      exact ⟨q, hq⟩
    · obtain ⟨q, hq⟩ := List.exists_mem_of_ne_nil _ (hc.regions_ne_nil hk)
      exact ⟨q, hq, ha.region_mem hn hk hq⟩
  region_mem := fun hn _ => ha.region_mem hn

theorem Sound.rooted (ha : c.Sound a) : c.Rooted a :=
  ⟨ha.root_mem, ha.lt_size, ha.parent_mem⟩

/-- A sound set is legal if its compound states and its root have what they need. -/
theorem Sound.legal (ha : c.Sound a)
    (hunique : ∀ {n q q'}, c.kind n = .compound → q ∈ c.children n → q' ∈ c.children n → q ∈ a →
      q' ∈ a → q = q')
    (hroot : c.kind Tree.root = .parallel → ∀ q ∈ c.regions Tree.root, q ∈ a) : c.Legal a where
  root_mem := ha.root_mem
  lt_size := ha.lt_size
  parent_mem := ha.parent_mem
  not_history := ha.not_history
  exists_unique := by
    intro n hn hk
    obtain ⟨q, hq, hqa⟩ := ha.exists_region hn (Or.inl hk)
    exact ⟨q, ⟨hq, hqa⟩, fun q' hq' =>
      hunique hk (Tree.region_child hq'.1) (Tree.region_child hq) hq'.2 hqa⟩
  region_mem := by
    intro n q hn hk hq
    by_cases hr : n = Tree.root
    · subst hr
      exact hroot hk q hq
    · exact ha.region_mem hn hr hk hq

theorem Legal.unique (ha : c.Legal a) (hk : c.kind n = .compound) (hq : q ∈ c.children n)
    (hp : p ∈ c.children n) (hqa : q ∈ a) (hpa : p ∈ a) : q = p := by
  obtain ⟨i, -, huniq⟩ := ha.exists_unique (ha.parent_mem hqa hq) hk
  rw [huniq q ⟨Tree.mem_regions.mpr ⟨hq, ha.not_history hqa⟩, hqa⟩,
    huniq p ⟨Tree.mem_regions.mpr ⟨hp, ha.not_history hpa⟩, hpa⟩]

/-! ## Leaves -/

theorem mem_leaves : l ∈ a.leaves c.toTree ↔ l ∈ a ∧ ∀ q ∈ c.children l, q ∉ a := by
  simp [Active.leaves, Active.mem_iff, SortedSet.mem_iff]

/-- Where parents are active, so is all that is around. -/
theorem WellFormed.mem_of_within (hc : c.WellFormed)
    (hparent : ∀ {n p}, n ∈ a → n ∈ c.children p → p ∈ a) (hm : m ∈ a) (h : c.Within m n) :
    n ∈ a := by
  induction m using Nat.strongRecOn with
  | ind m ih =>
    rcases Tree.within_iff.mp h with rfl | hbelow
    · exact hm
    · obtain ⟨p, hp, hpn⟩ := hc.inOrder.below_iff_parent.mp hbelow
      exact ih p (hc.inOrder.lt_child hp) (hparent hm hp) hpn

theorem Rooted.mem_of_within (ha : c.Rooted a) (hc : c.WellFormed) (hm : m ∈ a)
    (h : c.Within m n) : n ∈ a := hc.mem_of_within ha.parent_mem hm h

theorem Sound.mem_of_within (ha : c.Sound a) (hc : c.WellFormed) (hm : m ∈ a)
    (h : c.Within m n) : n ∈ a := ha.rooted.mem_of_within hc hm h

/-- Within every active state there is a leaf. -/
theorem WellFormed.exists_leaf (hc : c.WellFormed) (ha : ∀ {n}, n ∈ a → n < c.size)
    (hn : n ∈ a) : ∃ l ∈ a.leaves c.toTree, c.Within l n := by
  -- downwards, so by induction on how many states come after
  generalize hk : c.size - n = k
  induction k using Nat.strongRecOn generalizing n with
  | ind k ih =>
    by_cases hleaf : ∀ q ∈ c.children n, q ∉ a
    · exact ⟨n, mem_leaves.mpr ⟨hn, hleaf⟩, Tree.within_self _ n⟩
    · push Not at hleaf
      obtain ⟨q, hq, hqa⟩ := hleaf
      have hlt := hc.inOrder.lt_child hq
      have hsize := ha hqa
      obtain ⟨l, hl, hlq⟩ := ih (c.size - q) (by omega) hqa rfl
      exact ⟨l, hl, (hc.inOrder.below_of_within_child hq hlq).within⟩

namespace Sound

variable (ha : c.Sound a)
include ha

theorem exists_leaf (hc : c.WellFormed) (hn : n ∈ a) : ∃ l ∈ a.leaves c.toTree, c.Within l n :=
  hc.exists_leaf ha.rooted.lt_size hn

theorem isLeaf_of_leaf (hl : l ∈ a.leaves c.toTree) : (c.kind l).isLeaf = true := by
  obtain ⟨hla, hnone⟩ := mem_leaves.mp hl
  have hregion : ¬ (c.kind l = .compound ∨ c.kind l = .parallel) := by
    intro hk
    obtain ⟨q, hq, hqa⟩ := ha.exists_region hla hk
    exact hnone q (Tree.region_child hq) hqa
  cases hk : c.kind l with
  | atomic | final => rfl
  | compound | parallel => simp [hk] at hregion
  | history depth =>
    have hnot := ha.not_history hla
    rw [hk] at hnot
    exact absurd hnot.symm Bool.false_ne_true

/-- No leaf lies around another. -/
theorem leaf_unique (hc : c.WellFormed) (hl : l ∈ a.leaves c.toTree) (hm : m ∈ a)
    (h : c.Within m l) : m = l := by
  -- a leaf has no active child, so nothing active lies below it
  by_contra hne
  obtain ⟨q, hq, hmq⟩ := hc.inOrder.exists_child_within (h.below_of_ne hne)
  exact (mem_leaves.mp hl).2 q hq (ha.mem_of_within hc hm hmq)

/-- An active state with children has a leaf below it. -/
theorem exists_leaf_below (hc : c.WellFormed) (hp : p ∈ a) (hh : h ∈ c.children p) :
    ∃ l ∈ a.leaves c.toTree, c.Below l p := by
  obtain ⟨q, hq, hqa⟩ := ha.exists_region hp (hc.kind_of_child hh)
  obtain ⟨l, hl, hlq⟩ := ha.exists_leaf hc hqa
  exact ⟨l, hl, hc.inOrder.below_of_within_child (Tree.region_child hq) hlq⟩

end Sound

/-! ## Records -/

@[simp] theorem mem_snapshot_deep :
    n ∈ c.snapshot a p .deep ↔ n ∈ a.leaves c.toTree ∧ c.Below n p := by
  simp [snapshot]

@[simp] theorem mem_snapshot_shallow :
    n ∈ c.snapshot a p .shallow ↔ n ∈ c.regions p ∧ n ∈ a := by
  simp [snapshot]

theorem mem_of_mem_snapshot {depth : HistoryDepth} (h : n ∈ c.snapshot a p depth) : n ∈ a := by
  cases depth with
  | deep => exact (mem_leaves.mp (mem_snapshot_deep.mp h).1).1
  | shallow => exact (mem_snapshot_shallow.mp h).2

/-- Of two recorded states neither lies below the other. -/
theorem Sound.snapshot_eq_of_within (hc : c.WellFormed) (ha : c.Sound a) {depth : HistoryDepth}
    (hm : m ∈ c.snapshot a p depth) (hn : n ∈ c.snapshot a p depth) (h : c.Within m n) :
    m = n := by
  cases depth with
  | deep => exact ha.leaf_unique hc (mem_snapshot_deep.mp hn).1 (mem_of_mem_snapshot hm) h
  | shallow =>
    have hmp := Tree.region_child (mem_snapshot_shallow.mp hm).1
    have hnp := Tree.region_child (mem_snapshot_shallow.mp hn).1
    exact hc.inOrder.child_unique hmp hnp (Tree.within_self _ m) h

theorem below_of_mem_snapshot (hc : c.WellFormed) {depth : HistoryDepth}
    (h : n ∈ c.snapshot a p depth) : c.Below n p := by
  cases depth with
  | deep => exact (mem_snapshot_deep.mp h).2
  | shallow => exact hc.inOrder.below_child (Tree.region_child (mem_snapshot_shallow.mp h).1)

/-- Of an active state with a history child something is recorded. -/
theorem Sound.exists_mem_snapshot (hc : c.WellFormed) (ha : c.Sound a) (hp : p ∈ a)
    (hh : h ∈ c.children p) (depth : HistoryDepth) : ∃ n, n ∈ c.snapshot a p depth := by
  cases depth with
  | deep =>
    obtain ⟨l, hl, hlp⟩ := ha.exists_leaf_below hc hp hh
    exact ⟨l, mem_snapshot_deep.mpr ⟨hl, hlp⟩⟩
  | shallow =>
    obtain ⟨q, hq, hqa⟩ := ha.exists_region hp (hc.kind_of_child hh)
    exact ⟨q, mem_snapshot_shallow.mpr ⟨hq, hqa⟩⟩

end Statechart.Chart
