/-
# Statechart.Proofs.Entry.Transition -- what a transition enters

A transition adds its targets with what they begin with, and then the states between them and its
domain, with the regions aside. Whatever is kept by entering a goal by default and by passing a
state on the way to one is kept by the whole computation (`Keeps.addTransition`). Two things follow
from it. In any case the states added are closed: each is supported, each has its parent added too
unless that is the domain, and all goals are among them (`addTransition_extends`). And if the goals
do not get in each other's way, exactly the descent toward the goals is added
(`mem_addTransition`).
-/

import Statechart.Proofs.Entry.Goals

namespace Statechart.Chart

variable {c : Chart} {a : Active} {r : Transition} {goal : Nat → Prop} {sep : Prop}
  {I : Entering → Prop} {s s' : Entering} {d g k m n p q x y : Nat}

/-! ## Folds that grow a set -/

theorem foldl_grows {α : Type} {P : Entering → Prop} {Q : α → Entering → Prop}
    {f : Entering → α → Entering} {l : List α}
    (hmono : ∀ x {s s'}, s ⊆ s' → Q x s → Q x s')
    (step : ∀ x ∈ l, ∀ s', s ⊆ s' → P s' → P (f s' x) ∧ s' ⊆ f s' x ∧ Q x (f s' x)) (h : P s) :
    P (l.foldl f s) ∧ s ⊆ l.foldl f s ∧ ∀ x ∈ l, Q x (l.foldl f s) := by
  induction l generalizing s with
  | nil => exact ⟨h, fun _ hm => hm, by simp⟩
  | cons x l ih =>
    obtain ⟨hP, hsub, hQ⟩ := step x (by simp) s (fun _ hm => hm) h
    obtain ⟨hP', hsub', hQ'⟩ := ih (s := f s x)
      (fun y hy s' hs' => step y (List.mem_cons_of_mem x hy) s' fun m hm => hs' m (hsub m hm)) hP
    refine ⟨hP', fun m hm => hsub' m (hsub m hm), fun y hy => ?_⟩
    rcases List.mem_cons.mp hy with rfl | hy
    · exact hmono y hsub' hQ
    · exact hQ' y hy

/-- The states between a state and one above it. -/
theorem WellFormed.mem_takeWhile_ancestors (hc : c.WellFormed) {above : Nat}
    (hx : c.Below x above) :
    n ∈ (c.ancestors x).takeWhile (fun m => m ≠ above) ↔ c.Below x n ∧ c.Below n above := by
  have hsize := hx.lt_size
  induction x, hsize using hc.inOrder.induction with
  | root => exact absurd hx hc.inOrder.not_below_root
  | child p q hq ih =>
    rw [hc.inOrder.ancestors_child hq, hc.inOrder.below_child_iff hq]
    rw [hc.inOrder.below_child_iff hq] at hx
    by_cases hp : p = above
    · subst hp
      rw [List.takeWhile_cons_of_neg (by simp)]
      refine ⟨by simp, fun ⟨hpn, hnp⟩ => ?_⟩
      exact absurd (hc.inOrder.below_of_within_of_below hpn hnp) hc.inOrder.not_below_self
    · have ih' : n ∈ (c.ancestors p).takeWhile (fun m => m ≠ above) ↔
          c.Below p n ∧ c.Below n above := ih (hx.below_of_ne hp)
      rw [List.takeWhile_cons_of_pos (by simpa using hp), List.mem_cons, ih', Tree.within_iff]
      constructor
      · rintro (rfl | ⟨hpn, hn⟩)
        · exact ⟨Or.inl rfl, hx.below_of_ne hp⟩
        · exact ⟨Or.inr hpn, hn⟩
      · rintro ⟨rfl | hpn, hn⟩
        · exact Or.inl rfl
        · exact Or.inr ⟨hpn, hn⟩

/-- The states above a goal, from those below one state above it and those above another state
below that. -/
theorem WellFormed.mem_of_between (hc : c.WellFormed) {above : Nat} (hg : c.Below g p)
    (hy : c.Below y p) (hin : ∀ n, c.Below g n → c.Below n p → n ∈ s)
    (hout : ∀ n, c.Below y n → c.Below n above → n ∈ s) (hgn : c.Below g n)
    (hn : c.Below n above) : n ∈ s := by
  rcases hc.inOrder.within_or_within hgn.within hg.within with hnp | hpn
  · rcases Tree.within_iff.mp hnp with rfl | hnp
    · exact hout n hy hn
    · exact hin n hgn hnp
  · exact hout n (hc.inOrder.below_of_below_of_within hy hpn) hn

/-! ## Inside a domain -/

/-- A state lies below the domain, or both are the root. -/
def Inside (c : Chart) (d x : Nat) : Prop := c.Below x d ∨ x = Tree.root ∧ d = Tree.root

theorem Inside.within (h : c.Inside d m) : c.Within m d := by
  rcases h with h | ⟨rfl, rfl⟩
  · exact h.within
  · exact Tree.within_self _ _

theorem WellFormed.lt_size_of_inside (hc : c.WellFormed) (h : c.Inside d m) : m < c.size := by
  rcases h with h | ⟨rfl, -⟩
  · exact h.lt_size
  · exact hc.inOrder.size_pos

theorem WellFormed.inside_of_within (hc : c.WellFormed) (h : c.Inside d n) (hm : c.Within m n) :
    c.Inside d m := by
  rcases h with h | ⟨rfl, rfl⟩
  · exact Or.inl (hc.inOrder.below_of_within_of_below hm h)
  · exact (Tree.within_iff.mp hm).symm.imp_right fun e => ⟨e, rfl⟩

/-- The parent of a state inside a domain lies within it. -/
theorem WellFormed.parent_within_of_inside (hc : c.WellFormed) (h : c.Inside d n)
    (hp : n ∈ c.children p) : c.Within p d := by
  rcases h with h | ⟨rfl, -⟩
  · exact (hc.inOrder.below_child_iff hp).mp h
  · exact absurd hp hc.inOrder.not_root_child

/-! ## Targets -/

/-- All that a target stands for is to be entered, with what lies between that and the place of the
target. -/
def Includes (c : Chart) (a : Active) (x : Nat) (s : Entering) : Prop :=
  ∀ g, c.StandsFor a x g → g ∈ s ∧ ((c.kind x).isHistory = true → ∀ p, x ∈ c.children p →
    ∀ n, c.Below g n → c.Below n p → n ∈ s)

theorem Includes.mono (h : c.Includes a x s) (hs : s ⊆ s') : c.Includes a x s' := fun g hg =>
  ⟨hs g (h g hg).1, fun hk p hp n hgn hnp => hs n ((h g hg).2 hk p hp n hgn hnp)⟩

/-- With the states above the target there are all above what it stands for. -/
theorem WellFormed.mem_of_includes (hc : c.WellFormed) (hin : c.RecordsInside a) {above : Nat}
    (h : c.Includes a x s) (hg : c.StandsFor a x g)
    (hout : ∀ n, c.Below x n → c.Below n above → n ∈ s) (hgn : c.Below g n)
    (hn : c.Below n above) : n ∈ s := by
  cases hk : (c.kind x).isHistory with
  | false =>
    rw [(standsFor_state hk).mp hg] at hgn
    exact hout n hgn hn
  | true =>
    obtain ⟨p, hp⟩ := hc.exists_parent_of_history hk
    exact hc.mem_of_between (hc.standsFor_below_parent hin hg hk hp) (hc.inOrder.below_child hp)
      ((h g hg).2 hk p hp) hout hgn hn

theorem addTargetWithin_state (hk : (c.kind x).isHistory = false) :
    c.addTargetWithin a (k + 1) s x = c.addDefault x s := by
  rw [addTargetWithin]
  split
  · rename_i hkind _
    rw [hkind] at hk
    exact absurd hk.symm Bool.false_ne_true
  · rfl

theorem WellFormed.addTargetWithin_history (hc : c.WellFormed) (hk : (c.kind x).isHistory = true)
    (hp : x ∈ c.children p) : c.addTargetWithin a (k + 1) s x =
      (c.restored a x).foldl (c.addAncestors p)
        ((c.restored a x).foldl (c.addTargetWithin a k) s) := by
  obtain ⟨depth, hdepth⟩ := Kind.exists_depth hk
  rw [addTargetWithin, hdepth, hc.inOrder.parent?_child hp]

/-! ## Induction over the entry computation -/

/-- A property that entering goals by default and passing states on the way to them keep. Under the
condition `sep`, a state is passed only when all goals below it are in. -/
structure Keeps (c : Chart) (goal : Nat → Prop) (d : Nat) (sep : Prop) (I : Entering → Prop) :
    Prop where
  default : ∀ {s g}, I s → goal g → I (c.addDefault g s)
  passed : ∀ {s n g}, I s → c.Below n d → goal g → c.Below g n → g ∈ s →
    (sep → ∀ g, goal g → c.Below g n → g ∈ s) → I (c.addPassed s n)

section

variable (hc : c.WellFormed) (hI : c.Keeps goal d sep I)
  (hstate : ∀ g, goal g → g < c.size ∧ (c.kind g).isHistory = false)
include hc hI hstate

/-- Passing the states between one state, around which a goal lies, and another one above. -/
theorem Keeps.addAncestors {above : Nat} (hx : c.Inside above x) (hd : c.Within above d)
    (hgoal : ∃ g ∈ s, goal g ∧ ∀ n, c.Below x n → c.Below g n)
    (hsep : sep → ∀ g, goal g → c.Below g above → g ∈ s) (h : I s) :
    I (c.addAncestors above s x) ∧ s ⊆ c.addAncestors above s x ∧
      ∀ n, c.Below x n → c.Below n above → n ∈ c.addAncestors above s x := by
  rcases hx with hx | ⟨rfl, -⟩
  · obtain ⟨g, hg, hgg, hbelow⟩ := hgoal
    obtain ⟨hI', hsub, hmem⟩ := foldl_grows (Q := fun n s => n ∈ s)
      (l := (c.ancestors x).takeWhile (fun m => m ≠ above)) (f := c.addPassed)
      (fun n s s' hs hn => hs n hn) (fun n hn s' hs' hs => by
        obtain ⟨hxn, hna⟩ := (hc.mem_takeWhile_ancestors hx).mp hn
        obtain ⟨hin, hext⟩ := hc.addPassed_extends (hs' g hg) (hbelow n hxn) (hstate g hgg).2
        refine ⟨?_, hext.subset, hin⟩
        refine hI.passed hs (hc.inOrder.below_of_below_of_within hna hd) hgg (hbelow n hxn)
          (hs' g hg) fun hsep' g' hg' hgn => hs' g' ?_
        exact hsep hsep' g' hg' (hc.inOrder.below_trans hgn hna)) h
    exact ⟨hI', hsub, fun n hxn hna => hmem n ((hc.mem_takeWhile_ancestors hx).mpr ⟨hxn, hna⟩)⟩
  · -- nothing lies above the root, so nothing is passed
    have hid : c.addAncestors above s Tree.root = s := by
      rw [Chart.addAncestors, hc.inOrder.ancestors_root]
      rfl
    rw [hid]
    exact ⟨h, fun _ hm => hm, fun n hn _ => absurd hn hc.inOrder.not_below_root⟩

/-- So for several states, one after the other. -/
theorem Keeps.foldl_addAncestors {above : Nat} {l : List Nat} (hl : ∀ x ∈ l, c.Inside above x)
    (hd : c.Within above d)
    (hgoals : ∀ x ∈ l, ∃ g ∈ s, goal g ∧ ∀ n, c.Below x n → c.Below g n)
    (hsep : sep → ∀ g, goal g → c.Below g above → g ∈ s) (h : I s) :
    I (l.foldl (c.addAncestors above) s) ∧ s ⊆ l.foldl (c.addAncestors above) s ∧
      ∀ x ∈ l, ∀ n, c.Below x n → c.Below n above → n ∈ l.foldl (c.addAncestors above) s := by
  refine foldl_grows (Q := fun x s => ∀ n, c.Below x n → c.Below n above → n ∈ s)
    (fun x s s' hs hq n hxn hna => hs n (hq n hxn hna)) (fun x hx s' hs' hs => ?_) h
  obtain ⟨g, hg, hgg, hbelow⟩ := hgoals x hx
  exact hI.addAncestors hc hstate (hl x hx) hd ⟨g, hs' g hg, hgg, hbelow⟩
    (fun hsep' g hg hga => hs' g (hsep hsep' g hg hga)) hs

variable (hin : c.RecordsInside a)
include hin

/-- A target that can be followed in the steps allowed adds all it stands for, and what lies
between that and its own place. -/
theorem Keeps.addTargetWithin (hg : c.Grounded a k x)
    (hgoal : ∀ g, c.StandsFor a x g → goal g)
    (hplace : (c.kind x).isHistory = true → ∀ p, x ∈ c.children p → c.Within p d)
    (hstates : sep → c.RecordsStates a)
    (hsep : sep → (c.kind x).isHistory = true → ∀ p, x ∈ c.children p → ∀ g, goal g →
      c.Below g p → c.StandsFor a x g) (h : I s) :
    I (c.addTargetWithin a (k + 1) s x) ∧ s ⊆ c.addTargetWithin a (k + 1) s x ∧
      c.Includes a x (c.addTargetWithin a (k + 1) s x) := by
  induction hg generalizing s with
  | @state k x hk =>
    have hx := hgoal x (.state hk)
    obtain ⟨hmem, hext⟩ := hc.addDefault_extends (hstate x hx).1 hk s
    rw [addTargetWithin_state hk]
    refine ⟨hI.default h hx, hext.subset, fun g hg => ?_⟩
    rw [(standsFor_state hk).mp hg]
    exact ⟨hmem, fun hk' => absurd (hk.symm.trans hk') Bool.false_ne_true⟩
  | @history k x hk hground ih =>
    obtain ⟨p, hp⟩ := hc.exists_parent_of_history hk
    have hrestored := (hc.restored_below hin hp).2
    have hpd := hplace hk p hp
    rw [hc.addTargetWithin_history hk hp]
    -- first what it stands for, one after the other
    obtain ⟨h₁, hsub₁, hmem₁⟩ := foldl_grows (Q := c.Includes a)
      (l := c.restored a x) (f := c.addTargetWithin a (k + 1))
      (fun y s s' hs hq => hq.mono hs)
      (fun y hy s' _ hs => by
        refine ih y hy (fun g hg => hgoal g (.follow hk hy hg)) (fun hyk q hq => ?_)
          (fun hsep' hyk q hq g hg hgq => ?_) hs
        · exact hc.inOrder.within_trans ((hc.inOrder.below_child_iff hq).mp (hrestored y hy)) hpd
        · have hgp := hc.inOrder.below_of_below_of_within hgq
            ((hc.inOrder.below_child_iff hq).mp (hrestored y hy))
          obtain ⟨z, hz, hzg⟩ := (standsFor_history hk).mp (hsep hsep' hk p hp g hg hgp)
          rw [(hc.restored_history (hstates hsep') hk hy hyk).2, List.mem_singleton] at hz
          exact hz ▸ hzg) h
    -- then the states between that and the parent
    obtain ⟨h₂, hsub₂, hmem₂⟩ := hI.foldl_addAncestors hc hstate
      (fun y hy => Or.inl (hrestored y hy)) hpd
      (fun y hy => by
        obtain ⟨g, hg⟩ := hc.exists_standsFor hin (hground y hy)
        exact ⟨g, (hmem₁ y hy g hg).1, hgoal g (.follow hk hy hg),
          fun n hyn => hc.standsFor_below hin hg hyn⟩)
      (fun hsep' g hg hgp => by
        obtain ⟨z, hz, hzg⟩ := (standsFor_history hk).mp (hsep hsep' hk p hp g hg hgp)
        exact (hmem₁ z hz g hzg).1) h₁
    refine ⟨h₂, fun m hm => hsub₂ m (hsub₁ m hm), fun g hg => ?_⟩
    obtain ⟨y, hy, hyg⟩ := (standsFor_history hk).mp hg
    refine ⟨hsub₂ g (hmem₁ y hy g hyg).1, fun _ q hq n hgn hnq => ?_⟩
    rw [hc.inOrder.parent_unique hq hp] at hnq
    exact hc.mem_of_includes hin ((hmem₁ y hy).mono hsub₂) hyg (hmem₂ y hy) hgn hnq

end

/-! ## One transition -/

/-- What a transition aims at. -/
def Goal (c : Chart) (a : Active) (r : Transition) (g : Nat) : Prop :=
  ∃ x ∈ r.targets, c.StandsFor a x g

/-- The goals of a transition do not get in each other's way: none lies below another, and where a
history target restores a state no other target aims. No history state is recorded. -/
structure Separate (c : Chart) (a : Active) (r : Transition) : Prop where
  states : c.RecordsStates a
  apart : ∀ {g g'}, c.Goal a r g → c.Goal a r g' → c.Within g g' → g = g'
  own : ∀ {x p g}, x ∈ r.targets → (c.kind x).isHistory = true → x ∈ c.children p →
    c.Goal a r g → c.Below g p → c.StandsFor a x g

/-- A target is replaced by itself, or by what it restores if it is a history state. -/
theorem mem_effectiveTargets : y ∈ c.effectiveTargets a r ↔ ∃ x ∈ r.targets,
    (c.kind x).isHistory = false ∧ y = x ∨ (c.kind x).isHistory = true ∧ y ∈ c.restored a x := by
  rw [effectiveTargets, List.mem_flatMap]
  refine exists_congr fun x => and_congr_right fun _ => ?_
  cases hk : (c.kind x).isHistory <;> simp

theorem Goal.not_history (hg : c.Goal a r g) : (c.kind g).isHistory = false := by
  obtain ⟨x, -, hs⟩ := hg
  exact hs.not_history

theorem goal_of_sameFrom (h : ∀ x ∈ r.targets, c.SameFrom a b x) : c.Goal a r = c.Goal b r := by
  funext g
  refine propext ⟨?_, ?_⟩
  · rintro ⟨x, hx, hs⟩
    exact ⟨x, hx, (h x hx).standsFor hs⟩
  · rintro ⟨x, hx, hs⟩
    exact ⟨x, hx, (h x hx).symm.standsFor hs⟩

section

variable (hc : c.WellFormed) (hin : c.RecordsInside a)
  (hd : r.domain? c.toTree = some d) (htargets : ∀ x ∈ r.targets, c.Inside d x)
  (hground : ∀ x ∈ r.targets, c.Grounded a c.size x)
include hc hin htargets

theorem WellFormed.goal_inside (hg : c.Goal a r g) : c.Inside d g := by
  obtain ⟨x, hx, hs⟩ := hg
  rcases htargets x hx with hxd | ⟨rfl, rfl⟩
  · exact Or.inl (hc.standsFor_below hin hs hxd)
  · exact Or.inr ⟨(standsFor_state hc.root_not_history).mp hs, rfl⟩

include hground

/-- What targets are replaced by lies inside the domain, each state around a goal. -/
theorem WellFormed.effective_inside : ∀ y ∈ c.effectiveTargets a r, c.Inside d y ∧
    ∃ g, c.Goal a r g ∧ ∀ n, c.Below y n → c.Below g n := by
  intro y hy
  obtain ⟨x, hx, ⟨hk, rfl⟩ | ⟨hk, hyx⟩⟩ := mem_effectiveTargets.mp hy
  · exact ⟨htargets y hx, y, ⟨y, hx, .state hk⟩, fun _ hn => hn⟩
  · obtain ⟨p, hp⟩ := hc.exists_parent_of_history hk
    have hyp := (hc.restored_below hin hp).2 y hyx
    have hpd := hc.parent_within_of_inside (htargets x hx) hp
    obtain ⟨g, hg⟩ := hc.exists_standsFor_of_restored hin (hground x hx) hk hyx
    exact ⟨Or.inl (hc.inOrder.below_of_below_of_within hyp hpd), g, ⟨x, hx, .follow hk hyx hg⟩,
      fun n hn => hc.standsFor_below hin hg hn⟩

include hd

/-- What entering goals and passing states on the way to them keep is kept by the whole transition,
and this adds all goals with the states between them and the domain. -/
theorem Keeps.addTransition (hI : c.Keeps (c.Goal a r) d (c.Separate a r) I) (h : I s) :
    I (c.addTransition a s r) ∧ s ⊆ c.addTransition a s r ∧ ∀ g, c.Goal a r g →
      g ∈ c.addTransition a s r ∧
        ∀ n, c.Below g n → c.Below n d → n ∈ c.addTransition a s r := by
  have hstate : ∀ g, c.Goal a r g → g < c.size ∧ (c.kind g).isHistory = false := fun g hg =>
    ⟨hc.lt_size_of_inside (hc.goal_inside hin htargets hg), hg.not_history⟩
  have heq : c.addTransition a s r = (c.effectiveTargets a r).foldl (c.addAncestors d)
      (r.targets.foldl (c.addTarget a) s) := by
    rw [Chart.addTransition, hd]
  rw [heq]
  -- first the targets, one after the other
  obtain ⟨h₁, hsub₁, hmem₁⟩ := foldl_grows (Q := c.Includes a)
    (l := r.targets) (f := c.addTarget a) (fun x s s' hs hq => hq.mono hs)
    (fun x hx s' _ hs => hI.addTargetWithin hc hstate hin (hground x hx)
      (fun g hg => ⟨x, hx, hg⟩) (fun _ p hp => hc.parent_within_of_inside (htargets x hx) hp)
      (fun hsep => hsep.states)
      (fun hsep hk p hp g hg hgp => hsep.own hx hk hp hg hgp) hs) h
  have hall : ∀ g, c.Goal a r g → g ∈ r.targets.foldl (c.addTarget a) s := by
    rintro g ⟨x, hx, hs⟩
    exact (hmem₁ x hx g hs).1
  -- then the states between what they stand for and the domain
  have heffective := hc.effective_inside hin htargets hground
  obtain ⟨h₂, hsub₂, hmem₂⟩ := hI.foldl_addAncestors hc hstate
    (fun y hy => (heffective y hy).1) (Tree.within_self _ d)
    (fun y hy => by
      obtain ⟨-, g, hg, hbelow⟩ := heffective y hy
      exact ⟨g, hall g hg, hg, hbelow⟩)
    (fun _ g hg _ => hall g hg) h₁
  refine ⟨h₂, fun m hm => hsub₂ m (hsub₁ m hm), fun g hg => ⟨hsub₂ g (hall g hg), ?_⟩⟩
  obtain ⟨x, hx, hs⟩ := hg
  intro n hgn hnd
  cases hk : (c.kind x).isHistory with
  | false =>
    rw [(standsFor_state hk).mp hs] at hgn
    exact hmem₂ x (mem_effectiveTargets.mpr ⟨x, hx, Or.inl ⟨hk, rfl⟩⟩) n hgn hnd
  | true =>
    obtain ⟨p, hp⟩ := hc.exists_parent_of_history hk
    obtain ⟨y, hy, -⟩ := (standsFor_history hk).mp hs
    exact hc.mem_of_between (hc.standsFor_below_parent hin hs hk hp)
      ((hc.restored_below hin hp).2 y hy)
      (fun n hgn hnp => hsub₂ n ((hmem₁ x hx g hs).2 hk p hp n hgn hnp))
      (hmem₂ y (mem_effectiveTargets.mpr ⟨x, hx, Or.inr ⟨hk, hy⟩⟩)) hgn hnd

end

/-! ## What is added -/

/-- What is entered below a domain: the children that are aimed at, or the root if that is the
goal, with what they bring with them. -/
def Enters (c : Chart) (goal : Nat → Prop) (d m : Nat) : Prop :=
  ∃ q, (q ∈ c.regions d ∧ c.Aimed goal q ∨ q = Tree.root ∧ goal q) ∧ c.Descends goal q m

namespace WellFormed

section

variable (hc : c.WellFormed)
include hc

/-- The descent comes through all that is aimed at. -/
theorem descends_of_aimed (hm : c.Aimed goal m) (hq : c.Within m q)
    (hk : (c.kind m).isHistory = false) (hlt : m < c.size) : c.Descends goal q m := by
  induction m, hlt using hc.inOrder.induction with
  | root =>
    rcases Tree.within_iff.mp hq with rfl | hq
    · exact .refl
    · exact absurd hq hc.inOrder.not_below_root
  | child p m hp ih =>
    by_cases hmq : m = q
    · subst hmq
      exact .refl
    · obtain ⟨g, hg, hgm⟩ := hm
      have hpath := ih ⟨g, hg, (hc.inOrder.below_of_within_child hp hgm).within⟩
        (hc.inOrder.parent_within hp hq hmq) (hc.not_history_of_child hp)
      have hreg : m ∈ c.regions p := Tree.mem_regions.mpr ⟨hp, hk⟩
      rcases hc.kind_of_child hp with hkind | hkind
      · exact hpath.tail (.toward hkind hreg ⟨g, hg, hgm⟩)
      · exact hpath.tail (.region hkind hreg)

/-- What is aimed at below the domain is entered. -/
theorem enters_of_aimed (hm : c.Aimed goal m) (hbelow : c.Below m d)
    (hk : (c.kind m).isHistory = false) : c.Enters goal d m := by
  obtain ⟨q, hq, hmq⟩ := hc.inOrder.exists_child_within hbelow
  obtain ⟨g, hg, hgm⟩ := hm
  exact ⟨q, Or.inl ⟨hc.region_of_within hq hmq hk, g, hg, hc.inOrder.within_trans hgm hmq⟩,
    hc.descends_of_aimed ⟨g, hg, hgm⟩ hmq hk hbelow.lt_size⟩

/-- What is entered lies where the goals do. -/
theorem inside_of_enters (hgoal : ∀ g, goal g → c.Inside d g) (h : c.Enters goal d m) :
    c.Inside d m := by
  obtain ⟨q, ⟨hreg, -⟩ | ⟨rfl, hg⟩, hpath⟩ := h
  · have hqd := hc.inOrder.below_child (Tree.region_child hreg)
    exact hc.inside_of_within (Or.inl hqd) (hc.descends_within hpath)
  · exact hc.inside_of_within (hgoal _ hg) (hc.descends_within hpath)

/-- What is entered is aimed at right below the domain, or its parent leads to it. -/
theorem enters_cases (h : c.Enters goal d m) (hp : m ∈ c.children p) :
    p = d ∧ c.Aimed goal m ∨ c.Enters goal d p ∧ c.Leads goal p m := by
  obtain ⟨q, hq, hpath⟩ := h
  rcases Relation.ReflTransGen.cases_tail hpath with rfl | ⟨b, hpath, hl⟩
  · rcases hq with ⟨hreg, haim⟩ | ⟨rfl, -⟩
    · exact Or.inl ⟨hc.inOrder.parent_unique hp (Tree.region_child hreg), haim⟩
    · exact absurd hp hc.inOrder.not_root_child
  · rw [hc.inOrder.parent_unique hp (hc.leads_child hl)]
    exact Or.inr ⟨⟨q, hq, hpath⟩, hl⟩

/-- Of a compound state a child is entered that is aimed at, or the initial one when none is. -/
theorem enters_compound_cases (hk : c.kind p = .compound) (h : c.Enters goal d m)
    (hp : m ∈ c.children p) :
    c.Aimed goal m ∨ c.initial? p = some m ∧ ∀ q ∈ c.regions p, ¬ c.Aimed goal q := by
  rcases hc.enters_cases h hp with ⟨-, haim⟩ | ⟨-, hl⟩
  · exact Or.inl haim
  · cases hl with
    | toward _ _ haim => exact Or.inl haim
    | initial _ hnone hi => exact Or.inr ⟨hi, hnone⟩
    | region hk' _ =>
      rw [hk] at hk'
      exact absurd hk' (by decide)

/-- What is around an entered state below the domain is entered and leads down to it. -/
theorem enters_of_within (h : c.Enters goal d m) (hmq : c.Within m q) (hqd : c.Below q d) :
    c.Enters goal d q ∧ c.Descends goal q m := by
  induction m using Nat.strongRecOn with
  | ind m ih =>
    rcases Tree.within_iff.mp hmq with rfl | hbelow
    · exact ⟨h, .refl⟩
    · obtain ⟨p, hp, hpq⟩ := hc.inOrder.below_iff_parent.mp hbelow
      rcases hc.enters_cases h hp with ⟨rfl, -⟩ | ⟨hent, hl⟩
      · exact absurd (hc.inOrder.below_of_within_of_below hpq hqd) hc.inOrder.not_below_self
      · obtain ⟨hq, hpath⟩ := ih p (hc.inOrder.lt_child hp) hent hpq
        exact ⟨hq, hpath.tail hl⟩

end

end WellFormed

theorem Enters.tail (h : c.Enters goal d n) (hl : c.Leads goal n m) : c.Enters goal d m := by
  obtain ⟨q, hq, hpath⟩ := h
  exact ⟨q, hq, hpath.tail hl⟩

theorem Enters.trans (h : c.Enters goal d n) (hpath : c.Descends goal n m) :
    c.Enters goal d m := by
  obtain ⟨q, hq, hqn⟩ := h
  exact ⟨q, hq, hqn.trans hpath⟩

/-- A state that a transition with a domain may add. -/
structure Enterable (c : Chart) (a : Active) (r : Transition) (d m : Nat) : Prop where
  inside : c.Inside d m
  not_history : (c.kind m).isHistory = false
  /-- Right below the domain only what is aimed at is added, unless the root itself is a goal. -/
  aimed : m ∈ c.children d → c.Aimed (c.Goal a r) m ∨ c.Goal a r Tree.root
  enters : c.Separate a r → c.Enters (c.Goal a r) d m

namespace WellFormed

/-- Upwards from an added state to the domain all states are added. -/
theorem mem_of_extends (hc : c.WellFormed) {new : Nat → Prop}
    (hext : c.Extends s s' new (fun m => ∀ p, m ∈ c.children p → p = d))
    (hfresh : ∀ m ∈ s, ¬ c.Within m d) (hn : n ∈ s') (hnq : c.Within n q) (hqd : c.Below q d) :
    q ∈ s' := by
  induction n using Nat.strongRecOn with
  | ind n ih =>
    rcases Tree.within_iff.mp hnq with rfl | hbelow
    · exact hn
    · obtain ⟨p, hp, hpq⟩ := hc.inOrder.below_iff_parent.mp hbelow
      rcases hext.parent n hn with hs | htop | ⟨p', hp', hnp'⟩
      · have hnd := (hc.inOrder.below_of_within_of_below hnq hqd).within
        exact absurd hnd (hfresh n hs)
      · rw [htop p hp] at hpq
        exact absurd (hc.inOrder.below_of_within_of_below hpq hqd) hc.inOrder.not_below_self
      · rw [hc.inOrder.parent_unique hnp' hp] at hp'
        exact ih p (hc.inOrder.lt_child hp) hp' hpq

section

variable (hc : c.WellFormed) (hin : c.RecordsInside a)
  (hd : r.domain? c.toTree = some d) (htargets : ∀ x ∈ r.targets, c.Inside d x)
  (hground : ∀ x ∈ r.targets, c.Grounded a c.size x)
include hc hin htargets

/-- A goal and what it begins with may be added. -/
theorem enterable_of_default (hg : c.Goal a r g) (hm : c.Descends noGoal g m) :
    c.Enterable a r d m := by
  have hplace := hc.goal_inside hin htargets hg
  have hmg := hc.descends_within hm
  refine ⟨hc.inside_of_within hplace hmg, hc.descends_not_history hm hg.not_history,
    fun hmd => ?_, fun hsep => ?_⟩
  · rcases hplace with hgd | ⟨rfl, -⟩
    · obtain ⟨q, hq, hgq⟩ := hc.inOrder.exists_child_within hgd
      have hqm := hc.inOrder.child_unique hq hmd (hc.inOrder.within_trans hmg hgq)
        (Tree.within_self _ m)
      exact Or.inl ⟨g, hg, hqm ▸ hgq⟩
    · exact Or.inr hg
  have hent : c.Enters (c.Goal a r) d g := by
    rcases hplace with hgd | ⟨rfl, -⟩
    · exact hc.enters_of_aimed ⟨g, hg, Tree.within_self _ g⟩ hgd hg.not_history
    · exact ⟨Tree.root, Or.inr ⟨rfl, hg⟩, .refl⟩
  refine hent.trans (hc.descends_of_default (fun g' hg' hbelow => ?_) hm)
  rw [hsep.apart hg' hg hbelow.within] at hbelow
  exact hc.inOrder.not_below_self hbelow

omit hin htargets in
/-- A state on the way to a goal and the regions aside may be added. -/
theorem enterable_of_passed (hnd : c.Below n d) (hg : c.Goal a r g) (hgn : c.Below g n)
    (hall : c.Separate a r → ∀ g, c.Goal a r g → c.Below g n → g ∈ s)
    (hm : m = n ∨ c.kind n = .parallel ∧ ∃ q ∈ c.regions n, ¬ c.Covers s q ∧
      c.Descends noGoal q m) : c.Enterable a r d m := by
  obtain ⟨b, hb, -⟩ := hc.inOrder.exists_child_within hgn
  have hent : c.Enters (c.Goal a r) d n :=
    hc.enters_of_aimed ⟨g, hg, hgn.within⟩ hnd (hc.not_history_of_child hb)
  rcases hm with rfl | ⟨hpar, q, hq, hcov, hm⟩
  · exact ⟨Or.inl hnd, hc.not_history_of_child hb, fun _ => Or.inl ⟨g, hg, hgn.within⟩,
      fun _ => hent⟩
  · obtain ⟨hqc, hqk⟩ := Tree.mem_regions.mp hq
    have hmn := hc.inOrder.below_of_within_child hqc (hc.descends_within hm)
    refine ⟨Or.inl (hc.inOrder.below_trans hmn hnd), hc.descends_not_history hm hqk,
      fun hmd => ?_, fun hsep => ?_⟩
    · have hdn := (hc.inOrder.below_child_iff hmd).mp hmn
      exact absurd (hc.inOrder.below_of_within_of_below hdn hnd) hc.inOrder.not_below_self
    refine (hent.tail (.region hpar hq)).trans
      (hc.descends_of_default (fun g' hg' hg'q => hcov ?_) hm)
    exact ⟨g', hall hsep g' hg' (hc.inOrder.below_of_within_child hqc hg'q.within), hg'q.within⟩

include hd hground

/-- A transition adds all its goals, each state that it adds with what that needs below, and each
but the ones right below the domain with its parent. -/
theorem addTransition_extends (s : Entering) :
    c.Extends s (c.addTransition a s r) (c.Enterable a r d)
        (fun m => ∀ p, m ∈ c.children p → p = d) ∧
      ∀ g, c.Goal a r g → g ∈ c.addTransition a s r ∧
        ∀ n, c.Below g n → c.Below n d → n ∈ c.addTransition a s r := by
  have hkeeps : c.Keeps (c.Goal a r) d (c.Separate a r) (fun s' => c.Extends s s'
      (c.Enterable a r d) (fun m => ∀ p, m ∈ c.children p →
        p = d ∨ c.Below p d ∧ ∃ g, c.Goal a r g ∧ c.Below g p)) := by
    constructor
    · intro s' g hs hg
      have hplace := hc.goal_inside hin htargets hg
      obtain ⟨-, hext⟩ := hc.addDefault_extends (hc.lt_size_of_inside hplace) hg.not_history s'
      refine hs.trans (hext.mono (fun m hm => hc.enterable_of_default hin htargets hg hm) ?_)
      rintro m rfl
      refine Or.inl fun p hp => ?_
      rcases hplace with hmd | ⟨rfl, -⟩
      · rcases Tree.within_iff.mp ((hc.inOrder.below_child_iff hp).mp hmd) with rfl | hpd
        · exact Or.inl rfl
        · exact Or.inr ⟨hpd, m, hg, hc.inOrder.below_child hp⟩
      · exact absurd hp hc.inOrder.not_root_child
    · intro s' n g hs hnd hg hgn hgs hall
      obtain ⟨-, hext⟩ := hc.addPassed_extends hgs hgn hg.not_history
      refine hs.trans (hext.mono (fun m hm => hc.enterable_of_passed hnd hg hgn hall hm) ?_)
      rintro m rfl
      refine Or.inl fun p hp => ?_
      rcases Tree.within_iff.mp ((hc.inOrder.below_child_iff hp).mp hnd) with rfl | hpd
      · exact Or.inl rfl
      · exact Or.inr ⟨hpd, g, hg, hc.inOrder.below_trans hgn (hc.inOrder.below_child hp)⟩
  obtain ⟨hext, -, hgoals⟩ :=
    hkeeps.addTransition hc hin hd htargets hground (Extends.refl c s _ _)
  refine ⟨hext.mono (fun _ hm => hm) fun m hm => ?_, hgoals⟩
  by_cases hpar : ∃ p, m ∈ c.children p ∧ p ≠ d
  · obtain ⟨p, hp, hne⟩ := hpar
    obtain ⟨hpd, g, hg, hgp⟩ := (hm p hp).resolve_left hne
    exact Or.inr ⟨p, (hgoals g hg).2 p hgp hpd, hp⟩
  · exact Or.inl fun p hp => by_contra fun hne => hpar ⟨p, hp, hne⟩

/-- Where the goals are separate and nothing within the domain is to be entered before, a
transition adds exactly the descent toward its goals. -/
theorem mem_addTransition (hsep : c.Separate a r) (hfresh : ∀ m ∈ s, ¬ c.Within m d) :
    m ∈ c.addTransition a s r ↔ m ∈ s ∨ c.Enters (c.Goal a r) d m := by
  obtain ⟨hext, hgoals⟩ := hc.addTransition_extends hin hd htargets hground s
  have hnew : ∀ n ∈ c.addTransition a s r, c.Within n d → c.Enters (c.Goal a r) d n :=
    fun n hn hnd => ((hext.new n hn).resolve_left fun hs => hfresh n hs hnd).enters hsep
  -- all goals are added with what lies above them, and the rest is added with its parent
  have haimed : ∀ n, c.Aimed (c.Goal a r) n → c.Below n d → n ∈ c.addTransition a s r := by
    rintro n ⟨g, hg, hgn⟩ hnd
    rcases Tree.within_iff.mp hgn with rfl | hgn
    · exact (hgoals g hg).1
    · exact (hgoals g hg).2 n hgn hnd
  have hup : ∀ n ∈ c.addTransition a s r, ∀ q, c.Within n q → c.Below q d →
      q ∈ c.addTransition a s r := fun n hn q => hc.mem_of_extends hext hfresh hn
  constructor
  · intro hm
    exact (hext.new m hm).imp_right fun h => h.enters hsep
  · rintro (hm | ⟨q, hq, hpath⟩)
    · exact hext.subset m hm
    · have hroot : q ∈ c.addTransition a s r ∧ c.Inside d q := by
        rcases hq with ⟨hreg, haim⟩ | ⟨rfl, hg⟩
        · have hqd := hc.inOrder.below_child (Tree.region_child hreg)
          exact ⟨haimed q haim hqd, Or.inl hqd⟩
        · exact ⟨(hgoals _ hg).1, hc.goal_inside hin htargets hg⟩
      induction hpath with
      | refl => exact hroot.1
      | @tail b m hpath hl ih =>
        have hbd := (hc.inside_of_within hroot.2 (hc.descends_within hpath)).within
        have hmd := hc.inOrder.below_of_below_of_within (hc.inOrder.below_child
          (hc.leads_child hl)) hbd
        have hsup : c.Supported (c.addTransition a s r) b :=
          (hext.supported b ih).resolve_left fun hs => hfresh b hs hbd
        cases hl with
        | toward _ _ haim => exact haimed m haim hmd
        | initial hk hnone hi =>
          -- some child of it is entered, and that can only be the initial one
          obtain ⟨q', hq', y, hy, hyq⟩ := hsup.compound hk
          have hqb := Tree.region_child hq'
          have hqd := hc.inOrder.below_of_below_of_within (hc.inOrder.below_child hqb) hbd
          have hyd := (hc.inOrder.below_of_within_of_below hyq hqd).within
          obtain ⟨hent, -⟩ := hc.enters_of_within (hnew y hy hyd) hyq hqd
          rcases hc.enters_compound_cases hk hent hqb with haim | ⟨hi', -⟩
          · exact absurd haim (hnone q' hq')
          · rw [hi] at hi'
            rw [Option.some.inj hi']
            exact hup y hy q' hyq hqd
        | region hk hreg =>
          obtain ⟨y, hy, hym⟩ := hsup.parallel hk m hreg
          exact hup y hy m hym hmd

end

end WellFormed

end Statechart.Chart
