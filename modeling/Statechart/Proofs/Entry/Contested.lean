/-
# Statechart.Proofs.Entry.Contested -- when two children of a compound state are entered

Whatever a transition aims at, a child of a compound state is entered only if a goal lies within it
or if it is the one the state begins in (`explained_entrySet`). So of two children that are entered
both lie around goals, or one of them is begun in although a goal lies in the other. If goals agree
on the children of compound states, and what begins below them begins toward them, no compound state
has two of its children entered, and otherwise some does (`uncontested_iff`).
-/

import Statechart.Proofs.Step.Preservation

namespace Statechart.Chart

variable {c : Chart} {b : Active} {r : Transition} {goal : Nat → Prop} {sep : Prop}
  {s : Entering} {d g g' m n q q' : Nat}

/-- Of each compound state, goals lie within one child only. -/
def Agree (c : Chart) (goal : Nat → Prop) : Prop :=
  ∀ n q q', c.kind n = .compound → q ∈ c.children n → q' ∈ c.children n → c.Aimed goal q →
    c.Aimed goal q' → q = q'

/-- Where a goal lies within a child of a compound state and the state that this begins in is to be
entered, a goal lies within that. -/
def BeginsToward (c : Chart) (goal : Nat → Prop) (s : Entering) : Prop :=
  ∀ n i q, c.initial? n = some i → c.kind n = .compound → q ∈ c.children n → c.Aimed goal q →
    i ∈ s → c.Aimed goal i

/-- A child of a compound state is to be entered only if a goal lies within it or if the state
begins in it. Under a condition the state does so with a goal that it lies in, or no goal lies below
it. -/
def Explained (c : Chart) (goal : Nat → Prop) (sep : Prop) (s : Entering) : Prop :=
  ∀ n q, c.kind n = .compound → q ∈ c.children n → q ∈ s → c.Aimed goal q ∨
    c.initial? n = some q ∧
      (sep → (∃ g, goal g ∧ c.Descends noGoal g n) ∨ ∀ g, goal g → ¬ c.Below g n)

namespace WellFormed

variable (hc : c.WellFormed)
include hc

/-- A default descent comes to a child of a compound state where it begins, or because the state
begins in that child. -/
theorem initial_of_default (h : c.Descends noGoal n m) (hk : c.kind q = .compound)
    (hm : m ∈ c.children q) : m = n ∨ c.initial? q = some m ∧ c.Descends noGoal n q := by
  rcases Relation.ReflTransGen.cases_tail h with rfl | ⟨p, hpath, hl⟩
  · exact Or.inl rfl
  · rw [hc.inOrder.parent_unique hm (hc.leads_child hl)] at hk ⊢
    exact Or.inr ⟨initial_of_leads hl hk, hpath⟩

/-- Entering goals and passing states on the way to them explains all children entered, where states
are passed only after all goals below them have been entered. -/
theorem keeps_explained (hgoal : ∀ g, goal g → g < c.size ∧ (c.kind g).isHistory = false) :
    c.Keeps goal d sep (c.Explained goal sep) where
  default := by
    intro s g hs hg n q hk hq hmem
    obtain ⟨-, hext⟩ := hc.addDefault_extends (hgoal g hg).1 (hgoal g hg).2 s
    rcases hext.new q hmem with hmem | hdesc
    · exact hs n q hk hq hmem
    · rcases hc.initial_of_default hdesc hk hq with rfl | ⟨hi, hpath⟩
      · exact Or.inl ⟨q, hg, Tree.within_self _ q⟩
      · exact Or.inr ⟨hi, fun _ => Or.inl ⟨g, hg, hpath⟩⟩
  passed := by
    intro s p g hs _ hg hgp hmem hall n q hk hq hqs
    obtain ⟨-, hext⟩ := hc.addPassed_extends hmem hgp (hgoal g hg).2
    rcases hext.new q hqs with hqs | rfl | ⟨hpar, u, hu, hcov, hdesc⟩
    · exact hs n q hk hq hqs
    · exact Or.inl ⟨g, hg, hgp.within⟩
    · rcases hc.initial_of_default hdesc hk hq with rfl | ⟨hi, hpath⟩
      · -- a region is no child of a compound state
        rw [hc.inOrder.parent_unique hq (Tree.region_child hu), hpar] at hk
        exact absurd hk (by decide)
      · -- a goal below the state would lie in the region, which then were covered
        refine Or.inr ⟨hi, fun hsep => Or.inr fun g' hg' hbelow => hcov ⟨g', ?_, ?_⟩⟩
        · refine hall hsep g' hg' (hc.inOrder.below_of_below_of_within hbelow ?_)
          exact (hc.inOrder.below_of_within_child (Tree.region_child hu)
            (hc.descends_within hpath)).within
        · exact hc.inOrder.within_trans hbelow.within (hc.descends_within hpath)

section

variable (hgoal : ∀ g, goal g → c.Inside d g) (hinside : ∀ m ∈ s, c.Inside d m)
  (hreach : ∀ g, goal g → g ∈ s ∧ ∀ n, c.Below g n → c.Below n d → n ∈ s)

omit hc in
include hreach in
/-- All that lies around a goal below the domain is to be entered. -/
theorem mem_of_aimed (h : c.Aimed goal q) (hq : c.Below q d) : q ∈ s := by
  obtain ⟨g, hg, hgq⟩ := h
  rcases Tree.within_iff.mp hgq with rfl | hgq
  · exact (hreach g hg).1
  · exact (hreach g hg).2 q hgq hq

include hgoal in
/-- Where goals lie within two children of a state, these lie below the domain. -/
theorem below_of_split (hq : q ∈ c.children n) (hq' : q' ∈ c.children n) (hne : q ≠ q')
    (hg : goal g) (hgq : c.Within g q) (hg' : goal g') (hgq' : c.Within g' q') : c.Below q d := by
  have hdq : ¬ c.Within d q := fun hdq =>
    hne (hc.inOrder.child_unique hq hq' (hc.inOrder.within_trans (hgoal g' hg').within hdq) hgq')
  rcases hc.inOrder.within_or_within hgq (hgoal g hg).within with hqd | hdq'
  · refine hqd.below_of_ne ?_
    rintro rfl
    exact hdq (Tree.within_self _ q)
  · exact absurd hdq' hdq

include hgoal hinside hreach

/-- A set that holds all goals, with what lies around them, and children of compound states only
where goals lie or where the states begin, holds one child of each compound state exactly if the
goals agree and what begins begins toward them. -/
theorem uncontested_of_reached (hs : c.Explained goal sep s) :
    c.Uncontested s ↔ c.Agree goal ∧ c.BeginsToward goal s := by
  constructor
  · intro hone
    constructor
    · rintro n q q' hk hq hq' ⟨g, hg, hgq⟩ ⟨g', hg', hgq'⟩
      by_contra hne
      have hqd := hc.below_of_split hgoal hq hq' hne hg hgq hg' hgq'
      have hqd' := hc.below_of_split hgoal hq' hq (Ne.symm hne) hg' hgq' hg hgq
      exact hne (hone n q q' hk hq hq' (mem_of_aimed hreach ⟨g, hg, hgq⟩ hqd)
        (mem_of_aimed hreach ⟨g', hg', hgq'⟩ hqd'))
    · intro n i q hi hk hq haim his
      have hin := Tree.region_child (hc.initial_region hk hi)
      have hnd := hc.parent_within_of_inside (hinside i his) hin
      have hqs := mem_of_aimed hreach haim ((hc.inOrder.below_child_iff hq).mpr hnd)
      rwa [hone n i q hk hin hq his hqs]
  · rintro ⟨hagree, htoward⟩ n q q' hk hq hq' hqs hqs'
    rcases hs n q hk hq hqs with haim | ⟨hi, -⟩
    · rcases hs n q' hk hq' hqs' with haim' | ⟨hi', -⟩
      · exact hagree n q q' hk hq hq' haim haim'
      · exact hagree n q q' hk hq hq' haim (htoward n q' q hi' hk hq haim hqs')
    · rcases hs n q' hk hq' hqs' with haim' | ⟨hi', -⟩
      · exact hagree n q q' hk hq hq' (htoward n q q' hi hk hq' haim' hqs) haim'
      · rw [hi] at hi'
        exact Option.some.inj hi'

end

section

variable (hin : c.RecordsInside b) (hd : c.Domain r d)
  (hground : ∀ x ∈ r.targets, c.Grounded b c.size x)
include hin hd hground

/-- What a transition enters of a compound state are children with a goal inside and the one it
begins in. -/
theorem explained_entrySet :
    c.Explained (c.Goal b r) (c.Separate b r) (c.entrySet b [r]) := by
  have htargets := hd.targets_inside hc
  have hgoal : ∀ g, c.Goal b r g → g < c.size ∧ (c.kind g).isHistory = false := fun g hg =>
    ⟨hc.lt_size_of_inside (hc.goal_inside hin htargets hg), hg.not_history⟩
  exact ((hc.keeps_explained hgoal).addTransition hc hin hd.domain_eq htargets hground
    fun n q _ _ hmem => absurd hmem (SortedSet.not_mem_empty q)).1

/-- A transition enters one child of each compound state exactly if its goals agree and what begins
begins toward them. -/
theorem uncontested_iff : c.Uncontested (c.entrySet b [r]) ↔
    c.Agree (c.Goal b r) ∧ c.BeginsToward (c.Goal b r) (c.entrySet b [r]) := by
  have htargets := hd.targets_inside hc
  obtain ⟨hext, hreach⟩ :=
    hc.addTransition_extends hin hd.domain_eq htargets hground SortedSet.empty
  refine hc.uncontested_of_reached (fun g hg => hc.goal_inside hin htargets hg) (fun m hm => ?_)
    hreach (hc.explained_entrySet hin hd hground)
  exact ((hext.new m hm).resolve_left (SortedSet.not_mem_empty m)).inside

end

end WellFormed

end Statechart.Chart
