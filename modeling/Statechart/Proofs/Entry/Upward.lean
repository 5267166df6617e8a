/-
# Statechart.Proofs.Entry.Upward -- entering reaches up to the domains

With each state that is to be entered the one around it is to be entered too, unless that is the
domain of one of the transitions (`parent_of_mem_entrySet`). This holds whatever has been recorded:
records may be empty, lie outside the parents of their history states or name history states again,
as long as they name states of the machine.
-/

import Mathlib.Data.List.TakeWhile
import Statechart.Proofs.Step.Domain

namespace Statechart.Chart

variable {c : Chart} {a : Active} {r : Transition} {transitions : List Transition}
  {outer outer' : Nat → Prop} {s s' s'' : Entering} {d m n p x y : Nat}

/-! ## Growing upwards -/

/-- A set grows by states of the machine, each with the one around it unless that is one of some
outer states. -/
structure Upward (c : Chart) (outer : Nat → Prop) (s s' : Entering) : Prop where
  subset : s ⊆ s'
  lt_size : ∀ m ∈ s', m ∈ s ∨ m < c.size
  parent : ∀ m ∈ s', m ∈ s ∨ ∀ p, m ∈ c.children p → p ∈ s' ∨ outer p

namespace Upward

theorem refl (c : Chart) (outer : Nat → Prop) (s : Entering) : c.Upward outer s s where
  subset := fun _ hm => hm
  lt_size := fun _ hm => Or.inl hm
  parent := fun _ hm => Or.inl hm

theorem trans (h : c.Upward outer s s') (h' : c.Upward outer s' s'') : c.Upward outer s s'' where
  subset := fun m hm => h'.subset m (h.subset m hm)
  lt_size := by
    intro m hm
    rcases h'.lt_size m hm with hm | hlt
    · exact h.lt_size m hm
    · exact Or.inr hlt
  parent := by
    intro m hm
    rcases h'.parent m hm with hm | hup
    · rcases h.parent m hm with hm | hup
      · exact Or.inl hm
      · exact Or.inr fun p hp => (hup p hp).imp_left fun hs => h'.subset p hs
    · exact Or.inr hup

/-- Outer states need not be outer once they are in the set. -/
theorem mono (h : c.Upward outer s s') (houter : ∀ p, outer p → p ∈ s' ∨ outer' p) :
    c.Upward outer' s s' where
  subset := h.subset
  lt_size := h.lt_size
  parent := by
    intro m hm
    refine (h.parent m hm).imp_right fun hup p hp => ?_
    rcases hup p hp with hs | ho
    · exact Or.inl hs
    · exact houter p ho

theorem insert (hn : n < c.size) (houter : ∀ p, n ∈ c.children p → outer p) :
    c.Upward outer s (s.insert n) where
  subset := fun m hm => SortedSet.mem_insert.mpr (Or.inr hm)
  lt_size := by
    intro m hm
    rcases SortedSet.mem_insert.mp hm with rfl | hm
    · exact Or.inr hn
    · exact Or.inl hm
  parent := by
    intro m hm
    rcases SortedSet.mem_insert.mp hm with rfl | hm
    · exact Or.inr fun p hp => Or.inr (houter p hp)
    · exact Or.inl hm

theorem foldl {α : Type} {f : Entering → α → Entering} {l : List α}
    (h : ∀ x ∈ l, ∀ s', s ⊆ s' → c.Upward outer s' (f s' x)) :
    c.Upward outer s (l.foldl f s) := by
  obtain ⟨hup, -, -⟩ := foldl_grows (Q := fun _ _ => True) (P := fun s' => c.Upward outer s s')
    (l := l) (f := f) (fun _ _ _ _ _ => trivial)
    (fun x hx s' hs hs' => ⟨hs'.trans (h x hx s' hs), (h x hx s' hs).subset, trivial⟩)
    (refl c outer s)
  exact hup

end Upward

/-! ## Entering grows upwards -/

namespace WellFormed

variable (hc : c.WellFormed)
include hc

/-- Entering the regions of a state that is in the set. -/
theorem upward_regions {f : Nat → Entering → Entering} {l : List Nat} (hn : n ∈ s)
    (hl : ∀ q ∈ l, q ∈ c.children n)
    (hf : ∀ q ∈ l, ∀ s, c.Upward (fun p => q ∈ c.children p) s (f q s)) :
    c.Upward outer s (l.foldl (fun s q => if c.isCovered s q then s else f q s) s) := by
  refine Upward.foldl fun q hq s' hs => ?_
  split
  · exact Upward.refl c outer s'
  · refine (hf q hq s').mono fun p hp => Or.inl ?_
    rw [hc.inOrder.parent_unique hp (hl q hq)]
    exact (hf q hq s').subset n (hs n hn)

theorem addDefaultWithin_upward (levels : Nat) (hn : n < c.size) (s : Entering) :
    c.Upward (fun p => n ∈ c.children p) s (c.addDefaultWithin levels n s) := by
  induction levels generalizing n s with
  | zero => exact Upward.refl c _ s
  | succ levels ih =>
    have hinsert : c.Upward (fun p => n ∈ c.children p) s (s.insert n) :=
      Upward.insert hn fun p hp => hp
    have hmem : n ∈ s.insert n := SortedSet.mem_insert.mpr (Or.inl rfl)
    rw [addDefaultWithin]
    cases hk : c.kind n with
    | atomic | final => exact hinsert
    | compound =>
      cases hi : c.initial? n with
      | none => exact hinsert
      | some i =>
        have hchild := Tree.region_child (hc.initial_region hk hi)
        have hrest := ih (hc.inOrder.child_lt_size hchild) (s.insert n)
        refine hinsert.trans (hrest.mono fun p hp => Or.inl ?_)
        rw [hc.inOrder.parent_unique hp hchild]
        exact hrest.subset n hmem
    | parallel =>
      refine hinsert.trans (hc.upward_regions hmem (fun q hq => Tree.region_child hq) ?_)
      exact fun q hq s => ih (hc.inOrder.child_lt_size (Tree.region_child hq)) s
    | history depth => exact Upward.refl c _ s

theorem addDefault_upward (hn : n < c.size) (s : Entering) :
    c.Upward (fun p => n ∈ c.children p) s (c.addDefault n s) :=
  hc.addDefaultWithin_upward c.size hn s

theorem addPassed_upward (hn : n < c.size) (s : Entering) :
    n ∈ c.addPassed s n ∧ c.Upward (fun p => n ∈ c.children p) s (c.addPassed s n) := by
  have hinsert : c.Upward (fun p => n ∈ c.children p) s (s.insert n) :=
    Upward.insert hn fun p hp => hp
  have hmem : n ∈ s.insert n := SortedSet.mem_insert.mpr (Or.inl rfl)
  unfold addPassed
  split
  · have hregions : c.Upward (fun p => n ∈ c.children p) (s.insert n)
        (c.addUncovered n (s.insert n)) :=
      hc.upward_regions hmem (fun q hq => Tree.region_child hq) fun q hq s =>
        hc.addDefault_upward (hc.inOrder.child_lt_size (Tree.region_child hq)) s
    exact ⟨hregions.subset n hmem, hinsert.trans hregions⟩
  · exact ⟨hmem, hinsert⟩

/-- The states that are passed: all above a state, or those on the way to one that it lies below. -/
theorem mem_passed {above : Nat} : n ∈ (c.ancestors x).takeWhile (fun m => m ≠ above) ↔
    c.Below x n ∧ (c.Below x above → c.Below n above) := by
  by_cases hx : c.Below x above
  · rw [hc.mem_takeWhile_ancestors hx]
    simp [hx]
  · have hall : (c.ancestors x).takeWhile (fun m => m ≠ above) = c.ancestors x := by
      rw [List.takeWhile_eq_self_iff]
      exact fun m hm => decide_eq_true fun heq => hx (heq ▸ hm)
    rw [hall]
    exact ⟨fun hn => ⟨hn, fun hxa => absurd hxa hx⟩, fun hn => hn.1⟩

/-- Passing the states above one on the way to another leads up to that one. -/
theorem addAncestors_upward (above : Nat) (s : Entering) (x : Nat) :
    c.Upward (fun p => p = above ∧ c.Below x p) s (c.addAncestors above s x) ∧
      ∀ n, c.Below x n → (c.Below x above → c.Below n above) → n ∈ c.addAncestors above s x := by
  obtain ⟨hup, -, hmem⟩ := foldl_grows (Q := fun n s => n ∈ s)
    (P := fun s' => c.Upward (fun p => ∃ n ∈ (c.ancestors x).takeWhile (fun m => m ≠ above),
      n ∈ c.children p) s s')
    (l := (c.ancestors x).takeWhile (fun m => m ≠ above)) (f := c.addPassed)
    (fun n s s' hs hn => hs n hn)
    (fun n hn s' _ hs' => by
      have hxn := (hc.mem_passed.mp hn).1
      have hlt := Nat.lt_trans (hc.inOrder.lt_of_below hxn) hxn.lt_size
      obtain ⟨hin, hpassed⟩ := hc.addPassed_upward hlt s'
      exact ⟨hs'.trans (hpassed.mono fun p hp => Or.inr ⟨n, hn, hp⟩), hpassed.subset, hin⟩)
    (Upward.refl c _ s)
  have hall : ∀ n, c.Below x n → (c.Below x above → c.Below n above) →
      n ∈ c.addAncestors above s x := fun n hxn hn => hmem n (hc.mem_passed.mpr ⟨hxn, hn⟩)
  refine ⟨hup.mono fun p hp => ?_, hall⟩
  obtain ⟨n, hn, hnp⟩ := hp
  obtain ⟨hxn, hna⟩ := hc.mem_passed.mp hn
  have hxp := hc.inOrder.below_trans hxn (hc.inOrder.below_child hnp)
  -- the state around one that is passed is passed too, or the one where that stops
  by_cases hp : p = above
  · exact Or.inr ⟨hp, hxp⟩
  · refine Or.inl (hall p hxp fun hxa => ?_)
    exact ((hc.inOrder.below_child_iff hnp).mp (hna hxa)).below_of_ne hp

/-- So it does for several states, one after the other. -/
theorem foldl_addAncestors_upward (above : Nat) (l : List Nat) (s : Entering) :
    c.Upward (fun p => p = above ∧ ∃ y ∈ l, c.Below y p) s (l.foldl (c.addAncestors above) s) ∧
      ∀ y ∈ l, ∀ n, c.Below y n → (c.Below y above → c.Below n above) →
        n ∈ l.foldl (c.addAncestors above) s := by
  obtain ⟨hup, -, hmem⟩ := foldl_grows
    (P := fun s' => c.Upward (fun p => p = above ∧ ∃ y ∈ l, c.Below y p) s s')
    (Q := fun y s' => ∀ n, c.Below y n → (c.Below y above → c.Below n above) → n ∈ s')
    (l := l) (f := c.addAncestors above)
    (fun y s s' hs hQ n hyn hn => hs n (hQ n hyn hn))
    (fun y hy s' _ hs' => by
      obtain ⟨hup, hall⟩ := hc.addAncestors_upward above s' y
      exact ⟨hs'.trans (hup.mono fun p hp => Or.inr ⟨hp.1, y, hy, hp.2⟩), hup.subset, hall⟩)
    (Upward.refl c _ s)
  exact ⟨hup, hmem⟩

/-! ## What a transition enters -/

section

variable (hrec : c.RecordsKnown a)
include hrec

/-- What a history state stands for is a state of the machine. -/
theorem restored_lt_size (hp : x ∈ c.children p) (hy : y ∈ c.restored a x) : y < c.size := by
  cases hr : a.recorded? x with
  | some states =>
    simp only [restored, hr] at hy
    exact (hrec x states hr).2 y hy
  | none =>
    cases hd : c.historyDefault? x with
    | some z =>
      simp only [restored, hr, hd, List.mem_singleton] at hy
      obtain ⟨-, q, -, hbelow⟩ := hc.default_below hd
      exact hy ▸ hbelow.lt_size
    | none =>
      have hreg := (hc.restored_none hp hr hd).2 y hy
      exact hc.inOrder.child_lt_size (Tree.region_child hreg)

/-- A target leads up to the state around it; one that is a history state does so only if it stands
for something below that. -/
theorem addTargetWithin_upward (follows : Nat) (hx : x < c.size) (s : Entering) :
    c.Upward (fun p => x ∈ c.children p ∧
        ((c.kind x).isHistory = true → ∃ y ∈ c.restored a x, c.Below y p)) s
      (c.addTargetWithin a follows s x) := by
  induction follows generalizing x s with
  | zero => exact Upward.refl c _ s
  | succ follows ih =>
    cases hk : (c.kind x).isHistory with
    | false =>
      rw [addTargetWithin_state hk]
      exact (hc.addDefault_upward hx s).mono fun p hp => Or.inr ⟨hp, nofun⟩
    | true =>
      obtain ⟨q, hq⟩ := hc.exists_parent_of_history hk
      rw [hc.addTargetWithin_history hk hq]
      have htargets : c.Upward (fun p => ∃ y ∈ c.restored a x, y ∈ c.children p) s
          ((c.restored a x).foldl (c.addTargetWithin a follows) s) :=
        Upward.foldl fun y hy s' _ => (ih (hc.restored_lt_size hrec hq hy) s').mono
          fun p hp => Or.inr ⟨y, hy, hp.1⟩
      obtain ⟨hup, hall⟩ := hc.foldl_addAncestors_upward q (c.restored a x)
        ((c.restored a x).foldl (c.addTargetWithin a follows) s)
      refine ((htargets.mono fun p hp => Or.inr (Or.inl hp)).trans
        (hup.mono fun p hp => Or.inr (Or.inr hp))).mono fun p hp => ?_
      rcases hp with ⟨y, hy, hyp⟩ | ⟨rfl, hbelow⟩
      · -- the state around what it stands for has been passed, unless it is that around the target
        have hbelow := hc.inOrder.below_child hyp
        by_cases hpq : p = q
        · subst hpq
          exact Or.inr ⟨hq, fun _ => ⟨y, hy, hbelow⟩⟩
        · refine Or.inl (hall y hy p hbelow fun hyq => ?_)
          exact ((hc.inOrder.below_child_iff hyp).mp hyq).below_of_ne hpq
      · exact Or.inr ⟨hq, fun _ => hbelow⟩

/-- A transition leads up to its domain. -/
theorem addTransition_upward (hd : c.Domain r d) (s : Entering) :
    c.Upward (· = d) s (c.addTransition a s r) := by
  have htargets : c.Upward (fun p => ∃ x ∈ r.targets, x ∈ c.children p ∧
      ((c.kind x).isHistory = true → ∃ y ∈ c.restored a x, c.Below y p)) s
        (r.targets.foldl (c.addTarget a) s) := by
    refine Upward.foldl fun x hx s' _ => ?_
    have hlt := hc.target_lt hd.declared.2 hx
    exact (hc.addTargetWithin_upward hrec (c.size + 1) hlt s').mono fun p hp => Or.inr ⟨x, hx, hp⟩
  obtain ⟨hup, hall⟩ := hc.foldl_addAncestors_upward d (c.effectiveTargets a r)
    (r.targets.foldl (c.addTarget a) s)
  have heq : c.addTransition a s r = (c.effectiveTargets a r).foldl (c.addAncestors d)
      (r.targets.foldl (c.addTarget a) s) := by
    rw [addTransition, hd.domain_eq]
  rw [heq]
  refine ((htargets.mono fun p hp => Or.inr (Or.inl hp)).trans
    (hup.mono fun p hp => Or.inr (Or.inr hp.1))).mono fun p hp => ?_
  rcases hp with ⟨x, hx, hxp, hhist⟩ | rfl
  · -- the state around a target has been passed, unless it is the domain
    by_cases hpd : p = d
    · exact Or.inr hpd
    have hbelow : c.Below p d :=
      (hc.parent_within_of_inside (hd.targets_inside hc x hx) hxp).below_of_ne hpd
    obtain ⟨y, hy, hyp⟩ : ∃ y ∈ c.effectiveTargets a r, c.Below y p := by
      cases hk : (c.kind x).isHistory with
      | false =>
        exact ⟨x, mem_effectiveTargets.mpr ⟨x, hx, Or.inl ⟨hk, rfl⟩⟩, hc.inOrder.below_child hxp⟩
      | true =>
        obtain ⟨y, hy, hyp⟩ := hhist hk
        exact ⟨y, mem_effectiveTargets.mpr ⟨x, hx, Or.inr ⟨hk, hy⟩⟩, hyp⟩
    exact Or.inl (hall y hy p hyp fun _ => hbelow)
  · exact Or.inr rfl

/-- What transitions enter are states of the machine, each entered with the one around it unless
that is one of the domains. -/
theorem entrySet_upward (hdeclared : ∀ r ∈ transitions, c.Declares r) :
    c.Upward (fun p => ∃ r ∈ transitions, c.Domain r p) .empty (c.entrySet a transitions) := by
  refine Upward.foldl fun r hr s _ => ?_
  cases hdom : r.domain? c.toTree with
  | none =>
    rw [addTransition, hdom]
    exact Upward.refl c _ s
  | some d =>
    have hd : c.Domain r d := ⟨hdeclared r hr, hdom⟩
    exact (hc.addTransition_upward hrec hd s).mono fun p hp => Or.inr ⟨r, hr, hp ▸ hd⟩

theorem lt_size_of_mem_entrySet (hdeclared : ∀ r ∈ transitions, c.Declares r)
    (hm : m ∈ c.entrySet a transitions) : m < c.size :=
  ((hc.entrySet_upward hrec hdeclared).lt_size m hm).resolve_left (SortedSet.not_mem_empty m)

theorem parent_of_mem_entrySet (hdeclared : ∀ r ∈ transitions, c.Declares r)
    (hm : m ∈ c.entrySet a transitions) (hp : m ∈ c.children p) :
    p ∈ c.entrySet a transitions ∨ ∃ r ∈ transitions, c.Domain r p :=
  ((hc.entrySet_upward hrec hdeclared).parent m hm).resolve_left (SortedSet.not_mem_empty m) p hp

end

end WellFormed

end Statechart.Chart
