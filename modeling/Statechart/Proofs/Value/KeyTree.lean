/-
# Statechart.Proofs.Value.KeyTree -- trees of keys as sets of paths

A tree of keys holds the paths that were put into it and whatever these begin with
(`KeyTree.has_ofPaths`). Where the children are listed by ascending key at every level, a tree is
determined by what it holds (`KeyTree.Ordered.ext`), so putting the same paths in, in whatever
order, makes the same tree.
-/

import Statechart.Proofs.Sorted.Map
import Statechart.StateValue

namespace Statechart

namespace KeyTree

/-- The children are listed by ascending key at every level. -/
inductive Ordered : KeyTree → Prop
  | node {cs : List (String × KeyTree)} (ascending : (cs.map Prod.fst).Pairwise (· < ·))
      (below : ∀ e ∈ cs, Ordered e.2) : Ordered (.node cs)

/-- Whether a path leads from the top into a tree. -/
def Has : List String → KeyTree → Prop
  | [], _ => True
  | k :: ks, t => ∃ s, (k, s) ∈ t.children ∧ s.Has ks

variable {s t : KeyTree} {k : String} {p q : List String}

@[simp] theorem has_nil (t : KeyTree) : t.Has [] := trivial

@[simp] theorem has_node_cons {cs : List (String × KeyTree)} :
    (node cs).Has (k :: q) ↔ ∃ s, (k, s) ∈ cs ∧ s.Has q := Iff.rfl

@[simp] theorem has_leaf : (node []).Has q ↔ q = [] := by
  cases q <;> simp

theorem has_empty : empty.Has q ↔ q = [] := has_leaf

theorem Ordered.ascending (ht : t.Ordered) : (t.children.map Prod.fst).Pairwise (· < ·) := by
  cases ht with
  | node ascending below => exact ascending

theorem Ordered.child (ht : t.Ordered) (hs : (k, s) ∈ t.children) : s.Ordered := by
  cases ht with
  | node ascending below => exact below (k, s) hs

theorem ordered_empty : empty.Ordered := .node List.Pairwise.nil (by simp)

/-- A key leads to one child. -/
theorem Ordered.child_unique {s' : KeyTree} (ht : t.Ordered) (hs : (k, s) ∈ t.children)
    (hs' : (k, s') ∈ t.children) : s = s' := by
  rw [← SortedMap.valueOf_eq_some ht.ascending] at hs hs'
  exact Option.some.inj (hs.symm.trans hs')

/-! ## Putting paths in -/

/-- Below a key stands a child, or nothing. -/
theorem below_cases (ht : t.Ordered) (k : String) :
    (k, (SortedMap.valueOf k t.children).getD empty) ∈ t.children ∨
      (SortedMap.valueOf k t.children).getD empty = empty ∧ ∀ s, (k, s) ∉ t.children := by
  cases hv : SortedMap.valueOf k t.children with
  | some s => exact Or.inl ((SortedMap.valueOf_eq_some ht.ascending).mp hv)
  | none =>
    refine Or.inr ⟨rfl, fun s hs => ?_⟩
    rw [(SortedMap.valueOf_eq_some ht.ascending).mpr hs] at hv
    exact absurd hv (by simp)

theorem ordered_below (ht : t.Ordered) (k : String) :
    ((SortedMap.valueOf k t.children).getD empty).Ordered := by
  rcases below_cases ht k with hmem | ⟨hempty, -⟩
  · exact ht.child hmem
  · rw [hempty]
    exact ordered_empty

theorem has_below (ht : t.Ordered) :
    ((SortedMap.valueOf k t.children).getD empty).Has q ↔ t.Has (k :: q) ∨ q = [] := by
  rcases below_cases ht k with hmem | ⟨hempty, hnone⟩
  · constructor
    · exact fun hq => Or.inl ⟨_, hmem, hq⟩
    · rintro (⟨s, hs, hq⟩ | rfl)
      · exact ht.child_unique hs hmem ▸ hq
      · exact has_nil _
  · rw [hempty, has_empty]
    refine ⟨Or.inr, fun h => h.resolve_left ?_⟩
    rintro ⟨s, hs, -⟩
    exact hnone s hs

theorem Ordered.insert (ht : t.Ordered) (p : List String) : (t.insert p).Ordered := by
  induction p generalizing t with
  | nil => exact ht
  | cons k p ih =>
    refine .node (SortedMap.place_ascending ht.ascending) fun e he => ?_
    rcases (SortedMap.mem_place ht.ascending).mp he with rfl | ⟨he, -⟩
    · exact ih (ordered_below ht k)
    · exact ht.child he

/-- A path put in comes with all that it begins with, and with nothing else. -/
theorem has_insert (ht : t.Ordered) : (t.insert p).Has q ↔ t.Has q ∨ q <+: p := by
  induction p generalizing t q with
  | nil =>
    rw [KeyTree.insert, List.prefix_nil]
    exact ⟨Or.inl, fun h => h.elim id fun h => h ▸ has_nil t⟩
  | cons k p ih =>
    cases q with
    | nil => simp
    | cons j q =>
      rw [KeyTree.insert, has_node_cons, List.cons_prefix_cons]
      simp only [SortedMap.mem_place ht.ascending, Prod.mk.injEq]
      by_cases hjk : j = k
      · subst hjk
        have hnil : q = [] → q <+: p := fun h => h ▸ List.nil_prefix
        simp only [true_and, ne_eq, not_true_eq_false, and_false, or_false, exists_eq_left,
          ih (ordered_below ht j), has_below ht]
        tauto
      · simp only [hjk, false_and, ne_eq, not_false_eq_true, and_true, false_or, or_false]
        exact Iff.rfl

theorem ofPaths_spec (ps : List (List String)) : (ofPaths ps).Ordered ∧
    ∀ q, (ofPaths ps).Has q ↔ q = [] ∨ ∃ p ∈ ps, q <+: p := by
  -- for any tree to put the paths into
  have key : ∀ t : KeyTree, t.Ordered → (ps.foldl (fun t p => t.insert p) t).Ordered ∧
      ∀ q, (ps.foldl (fun t p => t.insert p) t).Has q ↔ t.Has q ∨ ∃ p ∈ ps, q <+: p := by
    induction ps with
    | nil => simp
    | cons p ps ih =>
      intro t ht
      obtain ⟨hordered, hhas⟩ := ih (t.insert p) (ht.insert p)
      refine ⟨hordered, fun q => ?_⟩
      rw [List.foldl_cons, hhas, has_insert ht]
      simp [or_assoc]
  obtain ⟨hordered, hhas⟩ := key empty ordered_empty
  exact ⟨hordered, fun q => by rw [ofPaths, hhas, has_empty]⟩

theorem ordered_ofPaths (ps : List (List String)) : (ofPaths ps).Ordered := (ofPaths_spec ps).1

/-- The tree of some paths holds what they begin with. -/
theorem has_ofPaths {ps : List (List String)} :
    (ofPaths ps).Has q ↔ q = [] ∨ ∃ p ∈ ps, q <+: p := (ofPaths_spec ps).2 q

/-! ## Trees that hold the same -/

/-- Trees that hold the same paths are equal. -/
theorem Ordered.ext (hs : s.Ordered) (ht : t.Ordered) (h : ∀ q, s.Has q ↔ t.Has q) : s = t := by
  induction hs generalizing t with
  | @node cs ascending below ih =>
    obtain ⟨ds⟩ := t
    have hcs : (KeyTree.node cs).Ordered := .node ascending below
    have hmem : ∀ e, e ∈ cs ↔ e ∈ ds := by
      -- what a key leads to on the one side it leads to on the other
      have hsame : ∀ {k s u}, (k, s) ∈ cs → (k, u) ∈ ds → s = u := by
        intro k s u hk hu
        refine ih (k, s) hk (ht.child hu) fun q => ?_
        constructor
        · intro hq
          obtain ⟨u', hu', hq⟩ := (h (k :: q)).mp ⟨s, hk, hq⟩
          exact ht.child_unique hu' hu ▸ hq
        · intro hq
          obtain ⟨s', hs', hq⟩ := (h (k :: q)).mpr ⟨u, hu, hq⟩
          exact hcs.child_unique hs' hk ▸ hq
      rintro ⟨k, s⟩
      constructor
      · intro hk
        obtain ⟨u, hu, -⟩ := (h [k]).mp ⟨s, hk, has_nil s⟩
        exact hsame hk hu ▸ hu
      · intro hk
        obtain ⟨s', hs', -⟩ := (h [k]).mpr ⟨s, hk, has_nil s⟩
        exact hsame hs' hk ▸ hs'
    have heq : (⟨cs, ascending⟩ : SortedMap String KeyTree) = ⟨ds, ht.ascending⟩ :=
      SortedMap.ext_entries hmem
    exact congrArg KeyTree.node (congrArg SortedMap.toList heq)

end KeyTree

end Statechart
