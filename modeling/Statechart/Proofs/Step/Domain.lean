/-
# Statechart.Proofs.Step.Domain -- where a transition leaves and enters

The domain of a declared transition lies around its source, is compound or the root, and has all
targets below it, unless it is the root and the only target is the root itself. What a transition
leaves is what is active below its domain. Two domains whose exits are disjoint and not empty lie
side by side (`apart_of_exits`).
-/

import Statechart.Proofs.Entry.Transition

namespace Statechart.Chart

variable {c : Chart} {a : Active} {r s : Transition} {d e m n x : Nat}

/-- A transition is declared on one of the states of a chart. -/
def Declares (c : Chart) (r : Transition) : Prop :=
  r.source < c.size ∧ r ∈ c.candidates r.source r.event

instance (c : Chart) (r : Transition) : Decidable (c.Declares r) :=
  inferInstanceAs (Decidable (r.source < c.size ∧ r ∈ c.candidates r.source r.event))

/-- A transition is declared on one of the states and has a domain. -/
structure Domain (c : Chart) (r : Transition) (d : Nat) : Prop where
  declared : c.Declares r
  domain_eq : r.domain? c.toTree = some d

theorem allBelow_iff : r.allBelow c.toTree d = true ↔ ∀ x ∈ r.targets, c.Below x d := by
  simp [Transition.allBelow]

/-- The enclosing state is the root or else compound with all targets below it. -/
theorem enclosing_cases : r.enclosing c.toTree = Tree.root ∨
    c.Below r.source (r.enclosing c.toTree) ∧ c.kind (r.enclosing c.toTree) = .compound ∧
      ∀ x ∈ r.targets, c.Below x (r.enclosing c.toTree) := by
  unfold Transition.enclosing
  cases hf : (c.ancestors r.source).find? (fun n =>
      (c.kind n = .compound || n = Tree.root) && r.allBelow c.toTree n) with
  | none => exact Or.inl rfl
  | some d =>
    have hmem := List.mem_of_find?_eq_some hf
    have htest := List.find?_some hf
    simp only [Bool.and_eq_true, Bool.or_eq_true, decide_eq_true_eq] at htest
    rcases htest with ⟨hk | hroot, hbelow⟩
    · exact Or.inr ⟨hmem, hk, allBelow_iff.mp hbelow⟩
    · exact Or.inl hroot

/-- No compound state around the source that has all targets below it lies further in. -/
theorem WellFormed.enclosing_within (hc : c.WellFormed) (hn : c.Below r.source n)
    (hk : c.kind n = .compound) (hbelow : ∀ x ∈ r.targets, c.Below x n) :
    c.Within (r.enclosing c.toTree) n := by
  have htest : ((c.kind n = .compound || n = Tree.root) && r.allBelow c.toTree n) = true := by
    simp [hk, allBelow_iff.mpr hbelow]
  unfold Transition.enclosing
  cases hf : (c.ancestors r.source).find? (fun n =>
      (c.kind n = .compound || n = Tree.root) && r.allBelow c.toTree n) with
  | none => exact absurd htest (List.find?_eq_none.mp hf n hn)
  | some e =>
    obtain ⟨-, before, after, heq, hbefore⟩ := List.find?_eq_some_iff_append.mp hf
    have he : c.Below r.source e := by
      rw [Tree.Below, heq]
      exact List.mem_append_right _ List.mem_cons_self
    rcases hc.inOrder.within_or_within he.within hn.within with h | h
    · exact h
    · -- the states before the one found fail the test, and those after it lie around it
      have hmem := hn
      rw [Tree.Below, heq, List.mem_append, List.mem_cons] at hmem
      rcases hmem with hmem | rfl | hmem
      · have hfails := hbefore n hmem
        rw [htest] at hfails
        exact absurd hfails (by decide)
      · exact h
      · have hdesc := (List.pairwise_cons.mp (hc.inOrder.lineage_descending r.source)).2
        have hlist : c.ancestors r.source = before ++ e :: after := heq
        rw [hlist] at hdesc
        have hlt := List.rel_of_pairwise_cons (List.pairwise_append.mp hdesc).2.1 hmem
        exact absurd (hc.inOrder.le_of_within h) (Nat.not_le_of_lt hlt)

/-- The domain is the enclosing state, or for an internal transition its source. -/
theorem domain?_eq_some (h : r.domain? c.toTree = some d) : r.targets ≠ [] ∧
    (d = r.enclosing c.toTree ∨
      d = r.source ∧ c.kind d = .compound ∧ ∀ x ∈ r.targets, c.Below x d) := by
  unfold Transition.domain? at h
  split at h
  · exact absurd h (by simp)
  rename_i hne
  refine ⟨by simpa using hne, ?_⟩
  split at h
  · exact absurd h (by simp)
  split at h
  · rename_i htest
    obtain rfl := Option.some.inj h
    simp only [Bool.and_eq_true, decide_eq_true_eq] at htest
    exact Or.inr ⟨rfl, htest.1.2, allBelow_iff.mp htest.2⟩
  · exact Or.inl (Option.some.inj h).symm

/-- A transition with a target other than its source has a domain. -/
theorem Declares.exists_domain (h : c.Declares r) (hx : x ∈ r.targets) (hne : x ≠ r.source) :
    ∃ d, c.Domain r d := by
  have hsome : r.targets ≠ [] := List.ne_nil_of_mem hx
  have hother : r.targets.all (fun y => y = r.source) = false := by
    rw [List.all_eq_false]
    exact ⟨x, hx, by simpa using hne⟩
  have hdom : r.domain? c.toTree ≠ none := by
    unfold Transition.domain?
    simp only [List.isEmpty_iff, hsome, hother, Bool.and_false, Bool.false_eq_true, if_false]
    split <;> exact Option.some_ne_none _
  obtain ⟨d, hd⟩ := Option.ne_none_iff_exists'.mp hdom
  exact ⟨d, h, hd⟩

/-- So has one with a history state as a target, if its source can be active. -/
theorem Declares.exists_domain_of_history (h : c.Declares r) (hx : x ∈ r.targets)
    (hk : (c.kind x).isHistory = true) (hsource : (c.kind r.source).isHistory = false) :
    ∃ d, c.Domain r d := by
  refine h.exists_domain hx ?_
  rintro rfl
  exact absurd (hk.symm.trans hsource) (by decide)

namespace Domain

theorem targets_ne_nil (h : c.Domain r d) : r.targets ≠ [] := (domain?_eq_some h.domain_eq).1

variable (h : c.Domain r d) (hc : c.WellFormed)
include h

theorem unique (h' : c.Domain r e) : d = e := by
  have heq := h.domain_eq
  rw [h'.domain_eq] at heq
  exact (Option.some.inj heq).symm

theorem compound_or_root : c.kind d = .compound ∨ d = Tree.root := by
  rcases (domain?_eq_some h.domain_eq).2 with rfl | ⟨-, hk, -⟩
  · rcases enclosing_cases (c := c) (r := r) with hroot | ⟨-, hk, -⟩
    · exact Or.inr hroot
    · exact Or.inl hk
  · exact Or.inl hk

include hc

theorem source_within : c.Within r.source d := by
  rcases (domain?_eq_some h.domain_eq).2 with rfl | ⟨rfl, -, -⟩
  · rcases enclosing_cases (c := c) (r := r) with hroot | ⟨hb, -, -⟩
    · rw [hroot]
      exact hc.inOrder.within_root h.declared.1
    · exact hb.within
  · exact Tree.within_self _ _

/-- Targets lie below the domain, or both are the root. -/
theorem targets_inside : ∀ x ∈ r.targets, c.Inside d x := by
  intro x hx
  rcases (domain?_eq_some h.domain_eq).2 with hd | ⟨-, -, hbelow⟩
  · rcases enclosing_cases (c := c) (r := r) with hroot | ⟨-, -, hbelow⟩
    · rw [hroot] at hd
      subst hd
      by_cases hxr : x = Tree.root
      · exact Or.inr ⟨hxr, rfl⟩
      · exact Or.inl (hc.inOrder.below_root (hc.target_lt h.declared.2 hx) hxr)
    · exact Or.inl (hd ▸ hbelow x hx)
  · exact Or.inl (hbelow x hx)

/-- A domain with something below it is compound, unless it is a parallel root. -/
theorem compound (hroot : c.kind Tree.root ≠ .parallel) (hn : c.Below n d) :
    c.kind d = .compound := by
  rcases h.compound_or_root with hk | rfl
  · exact hk
  · obtain ⟨q, hq, -⟩ := hc.inOrder.exists_child_within hn
    exact (hc.kind_of_child hq).resolve_right hroot

end Domain

/-! ## Exits -/

theorem mem_exitSet : n ∈ r.exitSet c.toTree a ↔
    ∃ d, r.domain? c.toTree = some d ∧ n ∈ a ∧ c.Below n d := by
  unfold Transition.exitSet
  cases r.domain? c.toTree with
  | none => simp
  | some d => simp [Active.mem_iff]

/-- Neither of two states lies in the other. -/
def SideBySide (c : Chart) (d e : Nat) : Prop := ¬ c.Within d e ∧ ¬ c.Within e d

/-- The domains of two transitions lie side by side. -/
def Apart (c : Chart) (r s : Transition) : Prop :=
  ∀ d e, c.Domain r d → c.Domain s e → c.SideBySide d e

theorem SideBySide.symm (h : c.SideBySide d e) : c.SideBySide e d := ⟨h.2, h.1⟩

theorem Apart.symm (h : c.Apart r s) : c.Apart s r := fun d e hd he => (h e d he hd).symm

/-- Nothing lies in both of two states side by side. -/
theorem WellFormed.not_within_both (hc : c.WellFormed) (h : c.SideBySide d e)
    (hd : c.Within n d) : ¬ c.Within n e := by
  intro he
  rcases hc.inOrder.within_or_within hd he with hde | hed
  · exact h.1 hde
  · exact h.2 hed

/-- Exits that are disjoint and not empty come from domains side by side. -/
theorem apart_of_exits (hc : c.WellFormed)
    (hdisjoint : ∀ n ∈ r.exitSet c.toTree a, n ∉ s.exitSet c.toTree a)
    (hr : ∀ d, c.Domain r d → ∃ n ∈ a, c.Below n d)
    (hs : ∀ d, c.Domain s d → ∃ n ∈ a, c.Below n d) : c.Apart r s := by
  intro d e hd he
  constructor
  · intro hde
    obtain ⟨n, hn, hnd⟩ := hr d hd
    refine hdisjoint n (mem_exitSet.mpr ⟨d, hd.domain_eq, hn, hnd⟩) (mem_exitSet.mpr ?_)
    exact ⟨e, he.domain_eq, hn, hc.inOrder.below_of_below_of_within hnd hde⟩
  · intro hed
    obtain ⟨n, hn, hne⟩ := hs e he
    refine hdisjoint n (mem_exitSet.mpr ?_) (mem_exitSet.mpr ⟨e, he.domain_eq, hn, hne⟩)
    exact ⟨d, hd.domain_eq, hn, hc.inOrder.below_of_below_of_within hne hed⟩

end Statechart.Chart
