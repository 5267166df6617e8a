/-
# Statechart.Proofs.Entry.Local -- entering looks no further than the domain

What a transition adds to the states to enter lies inside its domain, and what is to be entered
elsewhere makes no difference to it: regions are found covered or not by states within them. So
where domains lie side by side each transition adds what it would add alone, whatever comes before
it (`mem_entrySet_iff_alone`), and it needs no records but those of history states in its domain
(`addTransition_congr`).

Nothing is asked here of the records but that they lie below the parents of their history states.
-/

import Statechart.Proofs.Step.Domain

namespace Statechart.Chart

variable {c : Chart} {a b : Active} {r : Transition} {transitions : List Transition}
  {f g : Entering → Entering} {s s' : Entering} {d e m n p q x : Nat}

/-! ## Adding within a state -/

/-- Two sets hold the same of what lies within a state. -/
def AgreeWithin (c : Chart) (d : Nat) (s s' : Entering) : Prop :=
  ∀ m, c.Within m d → (m ∈ s ↔ m ∈ s')

/-- States are added inside a state only, and which ones depends only on what is there. -/
structure Local (c : Chart) (d : Nat) (f : Entering → Entering) : Prop where
  subset : ∀ s, s ⊆ f s
  inside : ∀ s, ∀ m ∈ f s, m ∈ s ∨ c.Inside d m
  congr : ∀ {s s'}, c.AgreeWithin d s s' → c.AgreeWithin d (f s) (f s')

namespace Local

theorem refl (c : Chart) (d : Nat) : c.Local d (fun s => s) where
  subset := fun _ _ hm => hm
  inside := fun _ _ hm => Or.inl hm
  congr := fun h => h

theorem comp (hf : c.Local d f) (hg : c.Local d g) : c.Local d (fun s => g (f s)) where
  subset := fun s m hm => hg.subset (f s) m (hf.subset s m hm)
  inside := by
    intro s m hm
    rcases hg.inside (f s) m hm with hm | hm
    · exact hf.inside s m hm
    · exact Or.inr hm
  congr := fun h => hg.congr (hf.congr h)

theorem foldl {α : Type} {f : Entering → α → Entering} {l : List α}
    (h : ∀ x ∈ l, c.Local d (fun s => f s x)) : c.Local d (fun s => l.foldl f s) := by
  induction l with
  | nil => exact refl c d
  | cons x l ih =>
    have hx := h x List.mem_cons_self
    exact hx.comp (ih fun y hy => h y (List.mem_cons_of_mem x hy))

theorem insert (hn : c.Inside d n) : c.Local d (fun s => s.insert n) where
  subset := fun s m hm => SortedSet.mem_insert.mpr (Or.inr hm)
  inside := by
    intro s m hm
    rcases SortedSet.mem_insert.mp hm with rfl | hm
    · exact Or.inr hn
    · exact Or.inl hm
  congr := by
    intro s s' h m hm
    rw [SortedSet.mem_insert, SortedSet.mem_insert, h m hm]

/-- Whether a state is covered depends only on what lies within it. -/
theorem unlessCovered (hc : c.WellFormed) (hq : c.Within q d) (hf : c.Local d f) :
    c.Local d (fun s => if c.isCovered s q then s else f s) where
  subset := by
    intro s m hm
    show m ∈ if c.isCovered s q then s else f s
    split
    · exact hm
    · exact hf.subset s m hm
  inside := by
    intro s m hm
    change m ∈ if c.isCovered s q then s else f s at hm
    split at hm
    · exact Or.inl hm
    · exact hf.inside s m hm
  congr := by
    intro s s' h
    have hcov : c.isCovered s q = c.isCovered s' q := by
      rw [Bool.eq_iff_iff, isCovered_iff, isCovered_iff]
      refine exists_congr fun m => and_congr_left fun hmq => ?_
      exact h m (hc.inOrder.within_trans hmq hq)
    intro m hm
    show m ∈ (if c.isCovered s q then s else f s) ↔ m ∈ if c.isCovered s' q then s' else f s'
    rw [hcov]
    split
    · exact h m hm
    · exact hf.congr h m hm

/-- Where nothing is to be entered yet, what is added is what would be added to nothing. -/
theorem mem_iff (hf : c.Local d f) (hfresh : ∀ m ∈ s, ¬ c.Within m d) :
    m ∈ f s ↔ m ∈ s ∨ m ∈ f .empty := by
  by_cases hm : c.Within m d
  · have hagree : c.AgreeWithin d s .empty := by
      intro n hn
      refine ⟨fun hns => absurd hn (hfresh n hns), fun hne => ?_⟩
      exact absurd hne (SortedSet.not_mem_empty n)
    rw [hf.congr hagree m hm]
    refine (or_iff_right fun hms => ?_).symm
    exact hfresh m hms hm
  · constructor
    · intro hmf
      refine Or.inl ((hf.inside s m hmf).resolve_right fun hin => ?_)
      exact hm hin.within
    · rintro (hms | hme)
      · exact hf.subset s m hms
      · rcases hf.inside .empty m hme with hnone | hin
        · exact absurd hnone (SortedSet.not_mem_empty m)
        · exact absurd hin.within hm

end Local

/-! ## Entering is local -/

namespace WellFormed

variable (hc : c.WellFormed)
include hc

theorem local_addDefaultWithin (levels : Nat) (hn : c.Inside d n) :
    c.Local d (c.addDefaultWithin levels n) := by
  induction levels generalizing n with
  | zero => exact Local.refl c d
  | succ levels ih =>
    have hregion : ∀ q ∈ c.regions n, c.Inside d q := by
      intro q hq
      have hqn := hc.inOrder.below_child (Tree.region_child hq)
      exact hc.inside_of_within hn hqn.within
    have hinsert := Local.insert hn
    cases hk : c.kind n with
    | atomic | final => simpa only [addDefaultWithin, hk] using hinsert
    | compound =>
      cases hi : c.initial? n with
      | none => simpa only [addDefaultWithin, hk, hi] using hinsert
      | some i =>
        have hi' := ih (hregion i (hc.initial_region hk hi))
        simpa only [addDefaultWithin, hk, hi] using hinsert.comp hi'
    | parallel =>
      have hregions : c.Local d (fun s => (c.regions n).foldl
          (fun s q => if c.isCovered s q then s else c.addDefaultWithin levels q s) s) :=
        Local.foldl fun q hq => (ih (hregion q hq)).unlessCovered hc (hregion q hq).within
      simpa only [addDefaultWithin, hk] using hinsert.comp hregions
    | history depth => simpa only [addDefaultWithin, hk] using Local.refl c d

theorem local_addDefault (hn : c.Inside d n) : c.Local d (c.addDefault n) :=
  hc.local_addDefaultWithin c.size hn

theorem local_addPassed (hn : c.Inside d n) : c.Local d (fun s => c.addPassed s n) := by
  have hinsert := Local.insert hn
  unfold addPassed
  split
  · refine hinsert.comp (Local.foldl fun q hq => ?_)
    have hqn := hc.inOrder.below_child (Tree.region_child hq)
    have hqd := hc.inside_of_within hn hqn.within
    exact (hc.local_addDefault hqd).unlessCovered hc hqd.within
  · exact hinsert

theorem local_addAncestors {above : Nat} (hx : c.Inside above x) (hd : c.Within above d) :
    c.Local d (fun s => c.addAncestors above s x) := by
  refine Local.foldl fun n hn => hc.local_addPassed ?_
  rcases hx with hx | ⟨rfl, -⟩
  · obtain ⟨-, hna⟩ := (hc.mem_takeWhile_ancestors hx).mp hn
    exact Or.inl (hc.inOrder.below_of_below_of_within hna hd)
  · -- nothing lies above the root
    rw [hc.inOrder.ancestors_root] at hn
    exact absurd hn List.not_mem_nil

section

variable (hrec : c.RecordsBelow a)
include hrec

theorem inside_of_mem_restored (hx : c.Inside d x) (hp : x ∈ c.children p)
    (hy : n ∈ c.restored a x) : c.Inside d n := by
  have hpd := hc.parent_within_of_inside hx hp
  have hyp := hc.below_of_mem_restored hrec hp hy
  exact Or.inl (hc.inOrder.below_of_below_of_within hyp hpd)

theorem local_addTargetWithin (follows : Nat) (hx : c.Inside d x) :
    c.Local d (fun s => c.addTargetWithin a follows s x) := by
  induction follows generalizing x with
  | zero => exact Local.refl c d
  | succ follows ih =>
    cases hk : (c.kind x).isHistory with
    | false =>
      simp only [addTargetWithin_state hk]
      exact hc.local_addDefault hx
    | true =>
      obtain ⟨p, hp⟩ := hc.exists_parent_of_history hk
      have hpd := hc.parent_within_of_inside hx hp
      have htargets : c.Local d (fun s => (c.restored a x).foldl (c.addTargetWithin a follows) s) :=
        Local.foldl fun y hy => ih (hc.inside_of_mem_restored hrec hx hp hy)
      have hbetween : c.Local d (fun s => (c.restored a x).foldl (c.addAncestors p) s) := by
        refine Local.foldl fun y hy => hc.local_addAncestors ?_ hpd
        exact Or.inl (hc.below_of_mem_restored hrec hp hy)
      simpa only [hc.addTargetWithin_history hk hp] using htargets.comp hbetween

theorem inside_of_mem_effective (hd : c.Domain r d) (hx : x ∈ c.effectiveTargets a r) :
    c.Inside d x := by
  obtain ⟨y, hy, ⟨-, rfl⟩ | ⟨hk, hxy⟩⟩ := mem_effectiveTargets.mp hx
  · exact hd.targets_inside hc x hy
  · obtain ⟨p, hp⟩ := hc.exists_parent_of_history hk
    exact hc.inside_of_mem_restored hrec (hd.targets_inside hc y hy) hp hxy

/-- A transition adds inside its domain only, and looks no further. -/
theorem local_addTransition (hd : c.Domain r d) :
    c.Local d (fun s => c.addTransition a s r) := by
  have htargets : c.Local d (fun s => r.targets.foldl (c.addTarget a) s) :=
    Local.foldl fun x hx => hc.local_addTargetWithin hrec (c.size + 1) (hd.targets_inside hc x hx)
  have hbetween : c.Local d (fun s => (c.effectiveTargets a r).foldl (c.addAncestors d) s) :=
    Local.foldl fun x hx =>
      hc.local_addAncestors (hc.inside_of_mem_effective hrec hd hx) (Tree.within_self _ d)
  simpa only [addTransition, hd.domain_eq] using htargets.comp hbetween

/-- What transitions add one after the other lies inside their domains. -/
theorem exists_domain_of_mem_foldl (hdeclared : ∀ r ∈ transitions, c.Declares r)
    (hm : m ∈ transitions.foldl (c.addTransition a) s) :
    m ∈ s ∨ ∃ r ∈ transitions, ∃ d, c.Domain r d ∧ c.Inside d m := by
  induction transitions generalizing s with
  | nil => exact Or.inl hm
  | cons r l ih =>
    rcases ih (fun r hr => hdeclared r (List.mem_cons_of_mem _ hr)) hm with hm | ⟨r', hr', hin⟩
    · cases hdom : r.domain? c.toTree with
      | none =>
        rw [addTransition, hdom] at hm
        exact Or.inl hm
      | some d =>
        have hd : c.Domain r d := ⟨hdeclared r List.mem_cons_self, hdom⟩
        rcases (hc.local_addTransition hrec hd).inside s m hm with hm | hin
        · exact Or.inl hm
        · exact Or.inr ⟨r, List.mem_cons_self, d, hd, hin⟩
    · exact Or.inr ⟨r', List.mem_cons_of_mem r hr', hin⟩

theorem exists_domain_of_mem_entrySet (hdeclared : ∀ r ∈ transitions, c.Declares r)
    (hm : m ∈ c.entrySet a transitions) :
    ∃ r ∈ transitions, ∃ d, c.Domain r d ∧ c.Inside d m :=
  (hc.exists_domain_of_mem_foldl hrec hdeclared hm).resolve_left (SortedSet.not_mem_empty m)

/-- What a transition adds to nothing lies inside its domain. -/
theorem exists_domain_of_mem (hr : c.Declares r) (hm : m ∈ c.addTransition a .empty r) :
    ∃ d, c.Domain r d ∧ c.Inside d m := by
  have hentry : m ∈ c.entrySet a [r] := hm
  obtain ⟨r', hr', hin⟩ := hc.exists_domain_of_mem_entrySet hrec (by simpa using hr) hentry
  exact List.mem_singleton.mp hr' ▸ hin

/-! ## Several transitions -/

/-- A transition adds what it would add to nothing, where nothing within its domain is to be
entered yet. -/
theorem mem_addTransition_iff_alone (hr : c.Declares r)
    (hfresh : ∀ d, c.Domain r d → ∀ m ∈ s, ¬ c.Within m d) :
    m ∈ c.addTransition a s r ↔ m ∈ s ∨ m ∈ c.addTransition a .empty r := by
  cases hdom : r.domain? c.toTree with
  | none => simp [addTransition, hdom]
  | some d =>
    have hd : c.Domain r d := ⟨hr, hdom⟩
    exact (hc.local_addTransition hrec hd).mem_iff (hfresh d hd)

/-- So do several with domains side by side, one after the other. -/
theorem mem_foldl_addTransition_iff_alone (hdeclared : ∀ r ∈ transitions, c.Declares r)
    (hapart : transitions.Pairwise c.Apart)
    (hfresh : ∀ r ∈ transitions, ∀ d, c.Domain r d → ∀ m ∈ s, ¬ c.Within m d) :
    m ∈ transitions.foldl (c.addTransition a) s ↔
      m ∈ s ∨ ∃ r ∈ transitions, m ∈ c.addTransition a .empty r := by
  induction transitions generalizing s with
  | nil => simp
  | cons r l ih =>
    obtain ⟨hapart, hl⟩ := List.pairwise_cons.mp hapart
    have hr := hdeclared r List.mem_cons_self
    have halone : ∀ m, m ∈ c.addTransition a s r ↔ m ∈ s ∨ m ∈ c.addTransition a .empty r :=
      fun m => hc.mem_addTransition_iff_alone hrec hr (hfresh r List.mem_cons_self)
    -- what the first one adds lies in its domain, and so in none of the others
    have hfresh' : ∀ r' ∈ l, ∀ d', c.Domain r' d' → ∀ m ∈ c.addTransition a s r,
        ¬ c.Within m d' := by
      intro r' hr' d' hd' m hm
      rcases (halone m).mp hm with hm | hm
      · exact hfresh r' (List.mem_cons_of_mem r hr') d' hd' m hm
      · obtain ⟨d, hd, hin⟩ := hc.exists_domain_of_mem hrec hr hm
        exact hc.not_within_both (hapart r' hr' d d' hd hd') hin.within
    rw [List.foldl_cons, ih (fun r' hr' => hdeclared r' (List.mem_cons_of_mem r hr')) hl hfresh',
      halone, or_assoc]
    simp

/-- Transitions with domains side by side enter what each of them would enter alone. -/
theorem mem_entrySet_iff_alone (hdeclared : ∀ r ∈ transitions, c.Declares r)
    (hapart : transitions.Pairwise c.Apart) :
    m ∈ c.entrySet a transitions ↔ ∃ r ∈ transitions, m ∈ c.addTransition a .empty r := by
  have hnone : ∀ r ∈ transitions, ∀ d, c.Domain r d → ∀ m ∈ SortedSet.empty, ¬ c.Within m d :=
    fun _ _ _ _ m hm => absurd hm (SortedSet.not_mem_empty m)
  rw [entrySet, hc.mem_foldl_addTransition_iff_alone hrec hdeclared hapart hnone]
  simp

end

/-! ## Records that matter -/

theorem addTargetWithin_congr (h : c.SameFrom a b x) (follows : Nat) (s : Entering) :
    c.addTargetWithin a follows s x = c.addTargetWithin b follows s x := by
  induction follows generalizing x s with
  | zero => rfl
  | succ follows ih =>
    cases hk : (c.kind x).isHistory with
    | false => rw [addTargetWithin_state hk, addTargetWithin_state hk]
    | true =>
      obtain ⟨p, hp⟩ := hc.exists_parent_of_history hk
      rw [hc.addTargetWithin_history hk hp, hc.addTargetWithin_history hk hp, ← h.restored_eq hk]
      congr 1
      exact List.foldl_ext _ _ _ fun s y hy => ih (h.follow ⟨hk, hy⟩) s

/-- A transition enters the same with other records, if those of the history states that its targets
lead to are the same. -/
theorem addTransition_of_sameFrom (h : ∀ x ∈ r.targets, c.SameFrom a b x) (s : Entering) :
    c.addTransition a s r = c.addTransition b s r := by
  have htargets : r.targets.foldl (c.addTarget a) s = r.targets.foldl (c.addTarget b) s :=
    List.foldl_ext _ _ _ fun s x hx => hc.addTargetWithin_congr (h x hx) (c.size + 1) s
  have heffective : c.effectiveTargets a r = c.effectiveTargets b r := by
    refine List.flatMap_congr fun x hx => ?_
    cases hk : (c.kind x).isHistory with
    | false => rfl
    | true => exact (h x hx).restored_eq hk
  simp only [addTransition, htargets, heffective]

/-- Inside a state, following history states does not lead out of it. -/
theorem sameFrom_of_inside (hrec : c.RecordsBelow a) (hx : c.Inside d x)
    (hsame : ∀ h, (c.kind h).isHistory = true → c.Inside d h → a.recorded? h = b.recorded? h) :
    c.SameFrom a b x := by
  intro h hpath hk
  refine hsame h hk ?_
  induction hpath with
  | refl => exact hx
  | @tail y z hpath hs ih =>
    obtain ⟨p, hp⟩ := hc.exists_parent_of_history hs.1
    exact hc.inside_of_mem_restored hrec (ih hs.1) hp hs.2

/-- So the records of the history states in its domain are enough. -/
theorem addTransition_congr (hrec : c.RecordsBelow a) (hd : c.Domain r d)
    (hsame : ∀ h, (c.kind h).isHistory = true → c.Inside d h → a.recorded? h = b.recorded? h)
    (s : Entering) : c.addTransition a s r = c.addTransition b s r :=
  hc.addTransition_of_sameFrom
    (fun x hx => hc.sameFrom_of_inside hrec (hd.targets_inside hc x hx) hsame) s

end WellFormed

end Statechart.Chart
