/-
# Statechart.Proofs.Tree.Climbing -- what going from parent to parent finds

What lies around a state is asked of a tree in two ways: of the states above it, which are held
with it, or by climbing from parent to parent, with the depths to tell when to stop. In document
order each climb ends, and both ways give the same answers (`InOrder.upwards?_parent`,
`InOrder.isDescendant?_eq`, `InOrder.commonAncestor?_eq`).

Two states of one depth that are different have different parents or a parent in common, so that
climbing in step never passes the innermost state around both; and climbing until the depths agree
does not pass it either, since it is no deeper than any of the two.
-/

import Statechart.Proofs.Tree.Lineage

namespace Statechart.Tree

variable {t : Tree} {a b c k m n p : Nat}

namespace InOrder

variable (ht : t.InOrder)
include ht

/-! ## The states above -/

theorem upwards?_parent (n : Nat) : t.upwards? (t.parent? n) = some (t.ancestors n) := by
  by_cases hn : n < t.size
  · induction n, hn using ht.induction with
    | root => rw [ht.parent?_root, ht.ancestors_root, upwards?]
    | child p c hc ih =>
      rw [ht.parent?_child hc, ht.ancestors_child hc, upwards?, ih]
      rfl
  · have hn := Nat.le_of_not_lt hn
    rw [parent?_of_size_le hn, ancestors_of_size_le hn, upwards?]

/-- A state is as deep as there are states above it. -/
theorem depth_eq (n : Nat) : t.depth n = (t.ancestors n).length := by
  by_cases hn : n < t.size
  · induction n, hn using ht.induction with
    | root => rw [ht.depth_root, ht.ancestors_root, List.length_nil]
    | child p c hc ih => rw [ht.depth_child hc, ht.ancestors_child hc, List.length_cons, ih]
  · rw [depth, ancestors, place_of_size_le (Nat.le_of_not_lt hn), List.length_nil]

theorem depth_lt_of_below (h : t.Below n a) : t.depth a < t.depth n := by
  have hn := h.lt_size
  induction n, hn using ht.induction with
  | root => exact absurd h ht.not_below_root
  | child p c hc ih =>
    rw [ht.depth_child hc]
    rcases within_iff.mp ((ht.below_child_iff hc).mp h) with rfl | hp
    · exact Nat.lt_succ_self _
    · exact Nat.lt_succ_of_lt (ih hp)

theorem depth_le_of_within (h : t.Within n a) : t.depth a ≤ t.depth n := by
  rcases within_iff.mp h with rfl | h
  · exact Nat.le_refl _
  · exact Nat.le_of_lt (ht.depth_lt_of_below h)

/-- A state is the only one around it that is as deep. -/
theorem eq_of_depth_le (h : t.Within n a) (hdepth : t.depth n ≤ t.depth a) : n = a := by
  rcases within_iff.mp h with rfl | h
  · rfl
  · exact absurd (ht.depth_lt_of_below h) (Nat.not_lt_of_le hdepth)

/-- Of two states around a third, the deeper one lies within the other. -/
theorem within_of_depth_le (hm : t.Within n m) (ha : t.Within n a)
    (hdepth : t.depth a ≤ t.depth m) : t.Within m a := by
  rcases ht.within_or_within hm ha with hma | ham
  · exact hma
  · exact ht.eq_of_depth_le ham hdepth ▸ within_self t a

/-- The depths do not rule out a state that lies below. -/
theorem isDescendant?_eq (n above : Nat) :
    t.isDescendant? n above = some (t.isBelow n above) := by
  rw [isDescendant?, ht.upwards?_parent]
  split
  · rfl
  · rename_i hdepth
    have hnot : t.isBelow n above = false := by
      rw [Bool.eq_false_iff, Ne, isBelow_iff]
      exact fun hbelow => hdepth (ht.depth_lt_of_below hbelow)
    rw [hnot]

/-! ## Common ancestors -/

/-- Climbing to a depth ends at a state around the one that it began with, at that depth if it began
below it. -/
theorem exists_rise (hn : n < t.size) (k : Nat) :
    ∃ m, t.rise? k n = some m ∧ t.Within n m ∧ t.depth m = min k (t.depth n) := by
  induction n, hn using ht.induction with
  | root =>
    refine ⟨root, ?_, within_self t root, ?_⟩
    · rw [rise?, ht.depth_root, if_neg (Nat.not_lt_zero k)]
    · rw [ht.depth_root, Nat.min_zero]
  | child p c hc ih =>
    rw [rise?]
    split
    · rename_i hlt
      obtain ⟨m, hm, hpm, hdepth⟩ := ih
      rw [ht.depth_child hc] at hlt
      refine ⟨m, by rwa [ht.parent?_child hc], ?_, ?_⟩
      · exact ((ht.below_child_iff hc).mpr hpm).within
      · rw [hdepth, ht.depth_child hc]
        omega
    · rename_i hge
      exact ⟨c, rfl, within_self t c, (Nat.min_eq_right (Nat.le_of_not_lt hge)).symm⟩

/-- Two states that climb in step meet in the innermost state around both. -/
theorem exists_meet (ha : a < t.size) (hb : b < t.size) (hdepth : t.depth a = t.depth b) :
    ∃ c, t.meet? a b = some c ∧ t.Within a c ∧ t.Within b c ∧
      ∀ n, t.Within a n → t.Within b n → t.Within c n := by
  induction a, ha using ht.induction generalizing b with
  | root =>
    obtain rfl := ht.eq_of_depth_le (ht.within_root hb) (Nat.le_of_eq hdepth.symm)
    refine ⟨root, ?_, within_self t root, within_self t root, fun n hn _ => hn⟩
    rw [meet?, if_pos rfl]
  | child p a hp ih =>
    rw [meet?]
    by_cases hab : a = b
    · subst hab
      exact ⟨a, if_pos rfl, within_self t a, within_self t a, fun n hn _ => hn⟩
    · have hne : b ≠ root := by
        rintro rfl
        exact absurd (ht.depth_root.symm.trans hdepth.symm) (by simp [ht.depth_child hp])
      obtain ⟨q, hq⟩ := ht.exists_parent hne hb
      have hdepths : t.depth p = t.depth q := by
        rw [ht.depth_child hp, ht.depth_child hq] at hdepth
        exact Nat.succ.inj hdepth
      obtain ⟨c, hc, hpc, hqc, hall⟩ := ih (lt_size_of_child hq) hdepths
      rw [if_neg hab, ht.parent?_child hp, ht.parent?_child hq]
      refine ⟨c, hc, ((ht.below_child_iff hp).mpr hpc).within,
        ((ht.below_child_iff hq).mpr hqc).within, fun n han hbn => ?_⟩
      -- what lies around both is none of them, as they are equally deep
      have hna : a ≠ n := by
        rintro rfl
        exact hab (ht.eq_of_depth_le hbn (Nat.le_of_eq hdepth.symm)).symm
      have hnb : b ≠ n := by
        rintro rfl
        exact hab (ht.eq_of_depth_le han (Nat.le_of_eq hdepth))
      exact hall n (ht.parent_within hp han hna) (ht.parent_within hq hbn hnb)

/-- Climbing finds the common ancestor. -/
theorem commonAncestor?_eq (ha : a < t.size) (hb : b < t.size) :
    t.commonAncestor? a b = some (t.commonAncestor a b) := by
  obtain ⟨a', ha', haa, hdepth⟩ := ht.exists_rise ha (t.depth b)
  obtain ⟨b', hb', hbb, hdepth'⟩ := ht.exists_rise hb (t.depth a')
  obtain ⟨c, hc, hac, hbc, hall⟩ := ht.exists_meet (ht.lt_size_of_within haa ha)
    (ht.lt_size_of_within hbb hb) (by omega)
  obtain ⟨has, hbs, hspec⟩ := ht.commonAncestor_spec ha hb
  have hclimb : t.commonAncestor? a b = some c := by
    rw [commonAncestor?, ha', Option.bind_eq_bind, Option.bind_some, hb']
    exact hc
  have hdeep := ht.depth_le_of_within has
  have hdeep' := ht.depth_le_of_within hbs
  -- the common ancestor is no deeper than any of the two, so climbing does not pass it
  have hsc := hall _ (ht.within_of_depth_le haa has (by omega))
    (ht.within_of_depth_le hbb hbs (by omega))
  have hcs := hspec c (ht.within_trans haa hac) (ht.within_trans hbb hbc)
  rw [hclimb, ht.within_antisymm hsc hcs]

end InOrder

end Statechart.Tree
