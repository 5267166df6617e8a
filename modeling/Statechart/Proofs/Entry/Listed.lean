/-
# Statechart.Proofs.Entry.Listed -- entering a list of states

A transition to a history state that stands for states that can be active enters these in turn, each
with what it begins with, and then what lies between them and the domain (`entrySet_of_restored`).
As they come in document order, each of them adds its whole default descent unless it has been added
with an earlier one (`mem_addListed`). So of no compound state two children are entered exactly if
any two states of the list are compatible: they lie in different regions of a parallel state, or one
of them is begun in with the other (`uncontested_iff_compatible`).
-/

import Mathlib.Data.List.Induction
import Statechart.Proofs.Entry.Contested
import Statechart.Proofs.Entry.Local

namespace Statechart.Chart

variable {c : Chart} {b : Active} {r : Transition} {s : Entering} {l : List Nat}
  {d e g g' i m n p q x : Nat}

/-- Two states that can be entered in turn: they lie in different regions of a parallel state, or
one is begun in with the other. -/
def Compatible (c : Chart) (g g' : Nat) : Prop :=
  c.Parted g g' ∨ c.Descends noGoal g g' ∨ c.Descends noGoal g' g

/-- The states of a list with what they begin with. -/
def addListed (c : Chart) (l : List Nat) : Entering := l.foldl (fun s g => c.addDefault g s) .empty

/-- These with the states between them and one above, and further up to another one. -/
def addListedBelow (c : Chart) (p d : Nat) (l : List Nat) : Entering :=
  l.foldl (c.addAncestors d) (l.foldl (c.addAncestors p) (c.addListed l))

namespace WellFormed

variable (hc : c.WellFormed)
include hc

/-! ## By default -/

/-- Upwards from what is added within a state, all is added. -/
theorem mem_of_within_addDefault (hn : n < c.size) (hk : (c.kind n).isHistory = false)
    (hfresh : ∀ m ∈ s, ¬ c.Within m n) (hm : m ∈ c.addDefault n s) (hmq : c.Within m q)
    (hqn : c.Within q n) : q ∈ c.addDefault n s := by
  obtain ⟨-, hext⟩ := hc.addDefault_extends hn hk s
  induction m using Nat.strongRecOn with
  | ind m ih =>
    rcases Tree.within_iff.mp hmq with rfl | hbelow
    · exact hm
    · rcases hext.parent m hm with hs | rfl | ⟨p, hp, hmp⟩
      · exact absurd (hc.inOrder.within_trans hmq hqn) (hfresh m hs)
      · rwa [hc.inOrder.within_antisymm hqn hmq]
      · exact ih p (hc.inOrder.lt_child hmp) hp ((hc.inOrder.below_child_iff hmp).mp hbelow)

/-- Where nothing within a state is to be entered yet, all of its default descent is added. -/
theorem mem_addDefault_of_fresh (hn : n < c.size) (hk : (c.kind n).isHistory = false)
    (hfresh : ∀ m ∈ s, ¬ c.Within m n) (h : c.Descends noGoal n m) : m ∈ c.addDefault n s := by
  obtain ⟨hmem, hext⟩ := hc.addDefault_extends hn hk s
  induction h with
  | refl => exact hmem
  | @tail e m hpath hl ih =>
    have hen := hc.descends_within hpath
    have hmn := hc.inOrder.within_trans (hc.inOrder.below_child (hc.leads_child hl)).within hen
    have hsup : c.Supported (c.addDefault n s) e :=
      (hext.supported e ih).resolve_left fun hs => hfresh e hs hen
    cases hl with
    | toward _ _ haim => exact absurd haim not_aimed_noGoal
    | initial hke _ hi =>
      -- something within a child is added, and by default that can only be the initial one
      obtain ⟨u, hu, y, hy, hyu⟩ := hsup.compound hke
      have hue := Tree.region_child hu
      have hun := hc.inOrder.within_trans (hc.inOrder.below_child hue).within hen
      have hdesc : c.Descends noGoal n y := (hext.new y hy).resolve_left fun hs =>
        hfresh y hs (hc.inOrder.within_trans hyu hun)
      obtain ⟨hnu, -⟩ := hc.descends_of_within hdesc hyu hun
      rcases hc.initial_of_default hnu hke hue with rfl | ⟨hi', -⟩
      · exact absurd (hc.inOrder.below_of_within_child hue hen) hc.inOrder.not_below_self
      · rw [hi] at hi'
        rw [Option.some.inj hi']
        exact hc.mem_of_within_addDefault hn hk hfresh hy hyu hun
    | region hke hreg =>
      obtain ⟨y, hy, hym⟩ := hsup.parallel hke m hreg
      exact hc.mem_of_within_addDefault hn hk hfresh hy hym hmn

/-- In document order, each state of a list adds its default descent. -/
theorem mem_addListed (hl : ∀ g ∈ l, g < c.size ∧ (c.kind g).isHistory = false)
    (hasc : l.Pairwise (· < ·)) : m ∈ c.addListed l ↔ ∃ g ∈ l, c.Descends noGoal g m := by
  induction l using List.reverseRecOn generalizing m with
  | nil => simp [addListed]
  | append_singleton l g ih =>
    obtain ⟨hasc, -, hbefore⟩ := List.pairwise_append.mp hasc
    have ih := fun {m} => ih (m := m) (fun g hg => hl g (List.mem_append_left _ hg)) hasc
    obtain ⟨hlt, hk⟩ := hl g (by simp)
    have heq : c.addListed (l ++ [g]) = c.addDefault g (c.addListed l) := by
      rw [addListed, List.foldl_append]
      rfl
    obtain ⟨-, hext⟩ := hc.addDefault_extends hlt hk (c.addListed l)
    rw [heq]
    constructor
    · intro hm
      rcases hext.new m hm with hm | hdesc
      · obtain ⟨g', hg', hdesc⟩ := ih.mp hm
        exact ⟨g', List.mem_append_left _ hg', hdesc⟩
      · exact ⟨g, by simp, hdesc⟩
    · rintro ⟨g', hg', hdesc⟩
      rcases List.mem_append.mp hg' with hg' | hg'
      · exact hext.subset m (ih.mpr ⟨g', hg', hdesc⟩)
      · obtain rfl := List.mem_singleton.mp hg'
        by_cases hfresh : ∀ y ∈ c.addListed l, ¬ c.Within y g'
        · exact hc.mem_addDefault_of_fresh hlt hk hfresh hdesc
        · -- what has been added within it comes from a state around it, with all of its descent
          push Not at hfresh
          obtain ⟨y, hy, hyg⟩ := hfresh
          obtain ⟨e, he, hey⟩ := ih.mp hy
          have hlt' := hbefore e he g' (by simp)
          have hge : c.Within g' e := by
            rcases hc.inOrder.within_or_within hyg (hc.descends_within hey) with hw | hw
            · exact hw
            · exact absurd (hc.inOrder.le_of_within hw) (Nat.not_le_of_lt hlt')
          obtain ⟨heg, -⟩ := hc.descends_of_within hey hyg hge
          exact hext.subset m (ih.mpr ⟨e, he, heg.trans hdesc⟩)

/-! ## With what lies between -/

section

variable (hl : ∀ g ∈ l, c.Below g p ∧ (c.kind g).isHistory = false) (hpd : c.Within p d)
include hl hpd

/-- What is added lies inside the domain. -/
theorem inside_of_mem_addListedBelow (hm : m ∈ c.addListedBelow p d l) : c.Inside d m := by
  have hgd : ∀ g ∈ l, c.Inside d g := fun g hg =>
    Or.inl (hc.inOrder.below_of_below_of_within (hl g hg).1 hpd)
  have hdefault : c.Local d (fun s => l.foldl (fun s g => c.addDefault g s) s) :=
    Local.foldl fun g hg => hc.local_addDefault (hgd g hg)
  have hinner : c.Local d (fun s => l.foldl (c.addAncestors p) s) :=
    Local.foldl fun g hg => hc.local_addAncestors (Or.inl (hl g hg).1) hpd
  have houter : c.Local d (fun s => l.foldl (c.addAncestors d) s) :=
    Local.foldl fun g hg => hc.local_addAncestors (hgd g hg) (Tree.within_self _ d)
  exact (((hdefault.comp hinner).comp houter).inside .empty m hm).resolve_left
    (SortedSet.not_mem_empty m)

/-- All states of the list are added with their default descents and with what lies between them and
the domain, and each child of a compound state that is added is explained by them. -/
theorem addListedBelow_spec :
    (∀ m ∈ c.addListed l, m ∈ c.addListedBelow p d l) ∧
      (∀ g ∈ l, g ∈ c.addListedBelow p d l ∧
        ∀ n, c.Below g n → c.Below n d → n ∈ c.addListedBelow p d l) ∧
      c.Explained (· ∈ l) True (c.addListedBelow p d l) := by
  have hgoal : ∀ g, g ∈ l → g < c.size ∧ (c.kind g).isHistory = false := fun g hg =>
    ⟨(hl g hg).1.lt_size, (hl g hg).2⟩
  have hkeeps : c.Keeps (· ∈ l) d True (c.Explained (· ∈ l) True) := hc.keeps_explained hgoal
  obtain ⟨h₁, -, hmem₁⟩ := foldl_grows (P := c.Explained (· ∈ l) True) (Q := fun g s => g ∈ s)
    (l := l) (f := fun s g => c.addDefault g s) (s := .empty) (fun g s s' hs hg => hs g hg)
    (fun g hg s' _ hs => by
      obtain ⟨hmem, hext⟩ := hc.addDefault_extends (hgoal g hg).1 (hgoal g hg).2 s'
      exact ⟨hkeeps.default hs hg, hext.subset, hmem⟩)
    (fun n q _ _ hmem => absurd hmem (SortedSet.not_mem_empty q))
  obtain ⟨h₂, hsub₂, -⟩ := hkeeps.foldl_addAncestors hc hgoal
    (fun g hg => Or.inl (hl g hg).1) hpd (fun g hg => ⟨g, hmem₁ g hg, hg, fun _ hn => hn⟩)
    (fun _ g hg _ => hmem₁ g hg) h₁
  obtain ⟨h₃, hsub₃, hmem₃⟩ := hkeeps.foldl_addAncestors hc hgoal
    (fun g hg => Or.inl (hc.inOrder.below_of_below_of_within (hl g hg).1 hpd))
    (Tree.within_self _ d) (fun g hg => ⟨g, hsub₂ g (hmem₁ g hg), hg, fun _ hn => hn⟩)
    (fun _ g hg _ => hsub₂ g (hmem₁ g hg)) h₂
  exact ⟨fun m hm => hsub₃ m (hsub₂ m hm),
    fun g hg => ⟨hsub₃ g (hsub₂ g (hmem₁ g hg)), hmem₃ g hg⟩, h₃⟩

/-- Where of each compound state one child is added, a state of the list that lies within another is
begun in with it. -/
theorem descends_of_uncontested (hasc : l.Pairwise (· < ·))
    (hone : c.Uncontested (c.addListedBelow p d l)) (hg : g ∈ l) (hg' : g' ∈ l)
    (hw : c.Within g' g) : c.Descends noGoal g g' := by
  obtain ⟨hdefaults, hreach, -⟩ := hc.addListedBelow_spec hl hpd
  have hgd := hc.inOrder.below_of_below_of_within (hl g hg).1 hpd
  -- downwards from the one to the other, each state on the way is begun in
  have key : ∀ m, c.Within g' m → c.Within m g → c.Descends noGoal g m := by
    intro m hgm hmg
    induction m using Nat.strongRecOn with
    | ind m ih =>
      rcases Tree.within_iff.mp hmg with rfl | hbelow
      · exact .refl
      · obtain ⟨e, hme, heg⟩ := hc.inOrder.below_iff_parent.mp hbelow
        have hge := hc.inOrder.below_of_within_child hme hgm
        have hpath := ih e (hc.inOrder.lt_child hme) hge.within heg
        have hreg := hc.region_of_within hme hgm (hl g' hg').2
        rcases hc.kind_of_child hme with hk | hk
        · -- the initial state is entered with the one, and this one on the way to the other
          obtain ⟨i, hi, hinit⟩ := hc.exists_initial hk
          have hlead : c.Leads noGoal e i := .initial hk (fun _ _ => not_aimed_noGoal) hinit
          have hlt : ∀ g ∈ l, g < c.size ∧ (c.kind g).isHistory = false := fun g hg =>
            ⟨(hl g hg).1.lt_size, (hl g hg).2⟩
          have his := hdefaults i ((hc.mem_addListed hlt hasc).mpr ⟨g, hg, hpath.tail hlead⟩)
          have hms : m ∈ c.addListedBelow p d l := by
            rcases Tree.within_iff.mp hgm with rfl | hgm
            · exact (hreach g' hg').1
            · exact (hreach g' hg').2 m hgm (hc.inOrder.below_trans hbelow hgd)
          rw [hone e m i hk hme (Tree.region_child hi) hms his]
          exact hpath.tail hlead
        · exact hpath.tail (.region hk hreg)
  exact key g' (Tree.within_self _ g') hw

/-- So any two states of the list are then compatible: where they part below a compound state, two
children of it would be added on the way to them. -/
theorem compatible_of_uncontested (hasc : l.Pairwise (· < ·))
    (hone : c.Uncontested (c.addListedBelow p d l)) (hg : g ∈ l) (hg' : g' ∈ l) :
    c.Compatible g g' := by
  by_cases hw : c.Within g' g
  · exact Or.inr (Or.inl (hc.descends_of_uncontested hl hpd hasc hone hg hg' hw))
  by_cases hw' : c.Within g g'
  · exact Or.inr (Or.inr (hc.descends_of_uncontested hl hpd hasc hone hg' hg hw'))
  obtain ⟨-, hreach, -⟩ := hc.addListedBelow_spec hl hpd
  have hgoal : ∀ g ∈ l, c.Inside d g := fun g hg =>
    hc.inside_of_mem_addListedBelow hl hpd (hreach g hg).1
  obtain ⟨n, q, q', hq, hq', hne, hgq, hgq'⟩ :=
    hc.inOrder.exists_split (hl g hg).1.lt_size (hl g' hg').1.lt_size hw' hw
  rcases hc.kind_of_child hq with hk | hk
  · have hqd := hc.below_of_split hgoal hq hq' hne hg hgq hg' hgq'
    have hqd' := hc.below_of_split hgoal hq' hq (Ne.symm hne) hg' hgq' hg hgq
    exact absurd (hone n q q' hk hq hq' (mem_of_aimed hreach ⟨g, hg, hgq⟩ hqd)
      (mem_of_aimed hreach ⟨g', hg', hgq'⟩ hqd')) hne
  · exact Or.inl ⟨n, q, q', hk, hq, hq', hne, hgq, hgq'⟩

omit hl hpd

/-- Of two compatible states that lie below one, one lies within the other or they part below a
parallel state; so they lie in the same child of a compound state. -/
theorem agree_of_compatible (hcompatible : ∀ g ∈ l, ∀ g' ∈ l, c.Compatible g g') :
    c.Agree (· ∈ l) := by
  rintro n q q' hk hq hq' ⟨g, hg, hgq⟩ ⟨g', hg', hgq'⟩
  rcases hcompatible g hg g' hg' with hparted | hdesc | hdesc
  · exact hc.child_eq_of_parted hparted hk hq hq' hgq hgq'
  · have hw := hc.inOrder.within_trans (hc.descends_within hdesc) hgq
    exact hc.inOrder.child_unique hq hq' hw hgq'
  · have hw := hc.inOrder.within_trans (hc.descends_within hdesc) hgq'
    exact hc.inOrder.child_unique hq hq' hgq hw

/-- Where a compound state that one of two compatible states begins in lies around the other, the
other one lies in the child in which that state begins. -/
theorem within_initial_of_compatible (h : c.Compatible e g)
    (hen : c.Descends noGoal e n) (hk : c.kind n = .compound) (hinit : c.initial? n = some i)
    (hgn : c.Below g n) : c.Within g i := by
  obtain ⟨q, hq, hgq⟩ := hc.inOrder.exists_child_within hgn
  have hne := hc.inOrder.below_of_below_of_within hgn (hc.descends_within hen)
  have hdesc : c.Descends noGoal e g := by
    rcases h with hparted | hdesc | hdesc
    · exact absurd hne.within (hc.not_within_of_parted hparted.symm)
    · exact hdesc
    · rw [hc.inOrder.within_antisymm (hc.descends_within hdesc) hne.within] at hne
      exact absurd hne hc.inOrder.not_below_self
  -- the descent from the one to the other comes through the child
  have hqe := hc.inOrder.within_trans (hc.inOrder.below_child hq).within (hc.descends_within hen)
  obtain ⟨heq, -⟩ := hc.descends_of_within hdesc hgq hqe
  rcases hc.initial_of_default heq hk hq with rfl | ⟨hinit', -⟩
  · exact absurd (hc.inOrder.below_of_within_child hq (hc.descends_within hen))
      hc.inOrder.not_below_self
  · rw [hinit] at hinit'
    exact Option.some.inj hinit' ▸ hgq

include hl hpd

/-- Of no compound state two children are added exactly if any two states of the list are
compatible. -/
theorem uncontested_iff_compatible (hasc : l.Pairwise (· < ·)) :
    c.Uncontested (c.addListedBelow p d l) ↔ ∀ g ∈ l, ∀ g' ∈ l, c.Compatible g g' := by
  obtain ⟨-, hreach, hexplained⟩ := hc.addListedBelow_spec hl hpd
  have hinside : ∀ m ∈ c.addListedBelow p d l, c.Inside d m := fun m hm =>
    hc.inside_of_mem_addListedBelow hl hpd hm
  have hiff := hc.uncontested_of_reached (fun g hg => hinside g (hreach g hg).1) hinside hreach
    hexplained
  constructor
  · exact fun hone g hg g' hg' => hc.compatible_of_uncontested hl hpd hasc hone hg hg'
  · intro hcompatible
    refine hiff.mpr ⟨hc.agree_of_compatible hcompatible, ?_⟩
    rintro n i q hinit hk hq ⟨g, hg, hgq⟩ his
    have hin := Tree.region_child (hc.initial_region hk hinit)
    have hgn := hc.inOrder.below_of_within_child hq hgq
    rcases hexplained n i hk hin his with haim | ⟨-, hwhy⟩
    · exact haim
    rcases hwhy trivial with ⟨e, he, hen⟩ | hnone
    · exact ⟨g, hg, hc.within_initial_of_compatible (hcompatible e he g hg) hen hk hinit hgn⟩
    · exact absurd hgn (hnone g hg)

end

/-! ## History states -/

/-- What a history state stands for comes in document order. -/
theorem restored_ascending (hp : x ∈ c.children p) : (c.restored b x).Pairwise (· < ·) := by
  cases hr : b.recorded? x with
  | some states =>
    simp only [restored, hr]
    exact states.ascending
  | none =>
    cases hd : c.historyDefault? x with
    | some y => simp [restored, hr, hd]
    | none =>
      simp only [restored, hr, hd, hc.inOrder.parent?_child hp]
      rcases hc.kind_of_child hp with hk | hk
      · simp only [hk]
        cases c.initial? p <;> simp
      · simp only [hk]
        exact (hc.inOrder.children_ascending p).filter _

/-- A transition to a history state alone that stands for states that can be active enters these. -/
theorem entrySet_of_restored (hd : r.domain? c.toTree = some d) (htargets : r.targets = [x])
    (hk : (c.kind x).isHistory = true) (hp : x ∈ c.children p)
    (hstates : ∀ g ∈ c.restored b x, (c.kind g).isHistory = false) :
    c.entrySet b [r] = c.addListedBelow p d (c.restored b x) := by
  have hsize : ∃ k, c.size = k + 1 := Nat.exists_eq_add_one_of_ne_zero
    (Nat.ne_of_gt hc.inOrder.size_pos)
  obtain ⟨k, hsize⟩ := hsize
  have hfold : (c.restored b x).foldl (c.addTargetWithin b c.size) .empty =
      c.addListed (c.restored b x) := by
    refine List.foldl_ext _ _ _ fun s g hg => ?_
    rw [hsize, addTargetWithin_state (hstates g hg)]
  have htarget : c.addTarget b .empty x =
      (c.restored b x).foldl (c.addAncestors p) (c.addListed (c.restored b x)) := by
    rw [addTarget, hc.addTargetWithin_history hk hp, hfold]
  have heffective : c.effectiveTargets b r = c.restored b x := by
    simp [effectiveTargets, htargets, hk]
  rw [entrySet, List.foldl_cons, List.foldl_nil, addTransition, hd]
  simp only [heffective, htargets, List.foldl_cons, List.foldl_nil, htarget]
  rfl

end WellFormed

end Statechart.Chart
