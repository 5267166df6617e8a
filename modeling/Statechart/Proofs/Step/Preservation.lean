/-
# Statechart.Proofs.Step.Preservation -- what a microstep keeps

Transitions whose domains lie side by side keep a sound set sound, whatever they aim at
(`microstep_sound`). Unless the root is parallel they keep a legal set legal if they enter only one
child of each compound state (`microstep_legal_iff`), and that they do when the goals of each are
coherent (`microstep_legal`). The set that a machine begins with is legal in any case
(`initialStep_legal`).
-/

import Statechart.Proofs.Step.Rooted

namespace Statechart.Chart

variable {c : Chart} {a b : Active} {r : Transition} {transitions : List Transition}
  {d g h m n p q x : Nat}

/-- Transitions that can be fired together: declared on active states, with domains side by side,
and with targets that can be followed to an end. -/
structure Firable (c : Chart) (a : Active) (transitions : List Transition) : Prop where
  declared : ∀ r ∈ transitions, c.Declares r
  source_mem : ∀ r ∈ transitions, r.source ∈ a
  apart : transitions.Pairwise c.Apart
  grounded : ∀ r ∈ transitions, ∀ x ∈ r.targets, c.Grounded (c.left a transitions) c.size x

namespace Firable

variable (hf : c.Firable a transitions) (hc : c.WellFormed)
include hf hc

/-- Only one domain lies around a state. -/
theorem eq_of_within {r' : Transition} {d' : Nat} (hr : r ∈ transitions)
    (hr' : r' ∈ transitions) (hd : c.Domain r d) (hd' : c.Domain r' d') (hn : c.Within n d)
    (hn' : c.Within n d') : r = r' := by
  by_contra hne
  have hsymm : Std.Symm c.Apart := ⟨fun _ _ => Apart.symm⟩
  exact hc.not_within_both (hf.apart.forall hr hr' hne d d' hd hd') hn hn'

/-- A domain is active and stays so. -/
theorem domain_mem_left (ha : c.Rooted a) (hr : r ∈ transitions) (hd : c.Domain r d) :
    d ∈ c.left a transitions := by
  rw [mem_left]
  refine ⟨ha.mem_of_within hc (hf.source_mem r hr) (hd.source_within hc), fun hmem => ?_⟩
  obtain ⟨r', hr', d', hdom, -, hbelow⟩ := mem_exits.mp hmem
  have hd' : c.Domain r' d' := ⟨hf.declared r' hr', hdom⟩
  obtain rfl := hf.eq_of_within hc hr hr' hd hd' (Tree.within_self _ d) hbelow.within
  rw [hd.unique hd'] at hbelow
  exact hc.inOrder.not_below_self hbelow

/-- So everything around what is active stays active. -/
theorem microstep_rooted (ha : c.Rooted a) (hrec : c.RecordsKnown a) :
    c.Rooted (c.microstep a transitions).active := by
  have hknown : c.Known a := ⟨ha.root_mem, ha.lt_size, hrec⟩
  refine (microstep_rooted_iff hc hknown hf.declared ha).mpr fun r hr d hd _ => ?_
  exact mem_microstep.mpr (Or.inl (hf.domain_mem_left hc ha hr hd))

/-- A child of a state that remains is left only if that state is a domain. -/
theorem domain_of_exit (hn : n ∈ c.left a transitions) (hq : q ∈ c.children n)
    (hmem : q ∈ c.exits a transitions) : ∃ r ∈ transitions, c.Domain r n := by
  obtain ⟨r, hr, d, hdom, -, hbelow⟩ := mem_exits.mp hmem
  rw [mem_left] at hn
  rcases Tree.within_iff.mp ((hc.inOrder.below_child_iff hq).mp hbelow) with rfl | hnd
  · exact ⟨r, hr, hf.declared r hr, hdom⟩
  · exact absurd (mem_exits.mpr ⟨r, hr, d, hdom, hn.1, hnd⟩) hn.2

/-- What entering relies on holds once the transitions have been left. -/
theorem ready (ha : c.Sound a) (hrec : c.RecordsInside a) :
    c.Ready (c.left a transitions) transitions where
  inside := recordsInside_left hc ha hrec transitions
  declared := hf.declared
  grounded := hf.grounded

end Firable

/-! ## Sound sets stay sound -/

section

variable (hc : c.WellFormed) (ha : c.Sound a) (hrec : c.RecordsInside a)
  (hf : c.Firable a transitions)
include hc ha hrec hf

/-- A state in which something is entered is active afterwards. -/
theorem mem_of_covers (hq : c.Covers (c.entrySet (c.left a transitions) transitions) q) :
    q ∈ (c.microstep a transitions).active := by
  obtain ⟨m, hm, hmq⟩ := hq
  have hrooted := hf.microstep_rooted hc ha.rooted hrec.known
  exact hrooted.mem_of_within hc (mem_microstep.mpr (Or.inr hm)) hmq

/-- A state with a child that is left has a child afterwards: it is a domain, below which something
is entered, or it is the root and entered itself. -/
theorem exists_region_of_exit (hn : n ∈ c.left a transitions) (hq : q ∈ c.regions n)
    (hexit : q ∈ c.exits a transitions) :
    ∃ q' ∈ c.regions n, q' ∈ (c.microstep a transitions).active := by
  obtain ⟨-, hreached⟩ := foldl_addTransition_extends hc (hf.ready hc ha hrec) .empty
  obtain ⟨r, hr, hd⟩ := hf.domain_of_exit hc hn (Tree.region_child hq) hexit
  obtain ⟨g, hg⟩ := exists_goal hc (hf.ready hc ha hrec) hr hd
  have hmem := (hreached r hr n hd g hg).1
  -- a goal below the domain lies within a child of it; else it is the root, with all it needs
  rcases goal_inside_domain hc (hf.ready hc ha hrec) hd hg with hgn | ⟨rfl, rfl⟩
  · obtain ⟨q', hq', hgq'⟩ := hc.inOrder.exists_child_within hgn
    exact ⟨q', hc.region_of_within hq' hgq' hg.not_history,
      mem_of_covers hc ha hrec hf ⟨g, hmem, hgq'⟩⟩
  · have hsup := (enterable_of_mem hc (hf.ready hc ha hrec) hmem).2
    rcases hc.kind_of_child (Tree.region_child hq) with hk | hk
    · obtain ⟨q', hq', hcov⟩ := hsup.compound hk
      exact ⟨q', hq', mem_of_covers hc ha hrec hf hcov⟩
    · exact ⟨q, hq, mem_of_covers hc ha hrec hf (hsup.parallel hk q hq)⟩

/-- Transitions whose domains lie side by side keep a sound set sound. -/
theorem microstep_sound : c.Sound (c.microstep a transitions).active where
  root_mem := (hf.microstep_rooted hc ha.rooted hrec.known).root_mem
  lt_size := (hf.microstep_rooted hc ha.rooted hrec.known).lt_size
  parent_mem := (hf.microstep_rooted hc ha.rooted hrec.known).parent_mem
  not_history := by
    intro n hn
    rcases mem_microstep.mp hn with hn | hn
    · exact ha.not_history (mem_left.mp hn).1
    · obtain ⟨⟨r, -, d, -, hent⟩, -⟩ := enterable_of_mem hc (hf.ready hc ha hrec) hn
      exact hent.not_history
  exists_region := by
    intro n hn hk
    rcases mem_microstep.mp hn with hn | hn
    · obtain ⟨q, hq, hqa⟩ := ha.exists_region (mem_left.mp hn).1 hk
      by_cases hexit : q ∈ c.exits a transitions
      · exact exists_region_of_exit hc ha hrec hf hn hq hexit
      · exact ⟨q, hq, mem_microstep.mpr (Or.inl (mem_left.mpr ⟨hqa, hexit⟩))⟩
    · have hsup := (enterable_of_mem hc (hf.ready hc ha hrec) hn).2
      rcases hk with hk | hk
      · obtain ⟨q, hq, hcov⟩ := hsup.compound hk
        exact ⟨q, hq, mem_of_covers hc ha hrec hf hcov⟩
      · obtain ⟨q, hq⟩ := List.exists_mem_of_ne_nil _ (hc.regions_ne_nil hk)
        exact ⟨q, hq, mem_of_covers hc ha hrec hf (hsup.parallel hk q hq)⟩
  region_mem := by
    intro n q hn hroot hk hq
    rcases mem_microstep.mp hn with hn | hn
    · refine mem_microstep.mpr (Or.inl (mem_left.mpr ⟨?_, fun hexit => ?_⟩))
      · exact ha.region_mem (mem_left.mp hn).1 hroot hk hq
      · obtain ⟨r, hr, hd⟩ := hf.domain_of_exit hc hn (Tree.region_child hq) hexit
        -- a state that loses a child is a domain, and no parallel state but the root is one
        rcases hd.compound_or_root with hk' | hr'
        · rw [hk] at hk'
          exact absurd hk' (by decide)
        · exact hroot hr'
    · have hsup := (enterable_of_mem hc (hf.ready hc ha hrec) hn).2
      exact mem_of_covers hc ha hrec hf (hsup.parallel hk q hq)

end

/-! ## Legal sets stay legal -/

/-- Of no compound state two children are to be entered. -/
def Uncontested (c : Chart) (s : Entering) : Prop :=
  ∀ n q p, c.kind n = .compound → q ∈ c.children n → p ∈ c.children n → q ∈ s → p ∈ s → q = p

section

variable (hc : c.WellFormed) (hrec : c.RecordsInside a) (hf : c.Firable a transitions)
include hc hrec hf

/-- No child is entered beside one that remains. -/
theorem not_entered_beside (ha : c.Sound a) (hq : q ∈ c.children n) (hp : p ∈ c.children n)
    (hqa : q ∈ c.left a transitions) :
    p ∉ c.entrySet (c.left a transitions) transitions := by
  intro hpe
  obtain ⟨⟨r, hr, d, hd, hent⟩, -⟩ := enterable_of_mem hc (hf.ready hc ha hrec) hpe
  have hnd := hc.parent_within_of_inside hent.inside hp
  rw [mem_left] at hqa
  refine hqa.2 (mem_exits.mpr ⟨r, hr, d, hd.domain_eq, hqa.1, ?_⟩)
  exact (hc.inOrder.below_child_iff hq).mpr hnd

/-- A legal set stays legal, unless two children of a compound state are entered. -/
theorem microstep_legal_iff (ha : c.Legal a) (hroot : c.kind Tree.root ≠ .parallel) :
    c.Legal (c.microstep a transitions).active ↔
      c.Uncontested (c.entrySet (c.left a transitions) transitions) := by
  constructor
  · intro hafter n q p hk hq hp hqe hpe
    exact hafter.unique hk hq hp (mem_microstep.mpr (Or.inr hqe)) (mem_microstep.mpr (Or.inr hpe))
  · intro hentry
    have hsound := microstep_sound hc (ha.sound hc) hrec hf
    refine hsound.legal ?_ fun hk => absurd hk hroot
    -- of two active children each has remained or been entered
    intro n q p hk hq hp hqa hpa
    rcases mem_microstep.mp hqa with hqa | hqe
    · rcases mem_microstep.mp hpa with hpa | hpe
      · exact ha.unique hk hq hp (mem_left.mp hqa).1 (mem_left.mp hpa).1
      · exact absurd hpe (not_entered_beside hc hrec hf (ha.sound hc) hq hp hqa)
    · rcases mem_microstep.mp hpa with hpa | hpe
      · exact absurd hqe (not_entered_beside hc hrec hf (ha.sound hc) hp hq hpa)
      · exact hentry n q p hk hq hp hqe hpe

end

section

variable (hc : c.WellFormed) (ha : c.Legal a) (hrec : c.RecordsFrom c.Legal a)
  (hf : c.Firable a transitions)
  (hcoherent : ∀ r ∈ transitions, c.Coherent (c.left a transitions) r)
include hc ha hrec hf

theorem ready_of_legal : c.Ready (c.left a transitions) transitions :=
  hf.ready hc (ha.sound hc) (hrec.inside hc fun _ hb => hb.sound hc)

include hcoherent

/-- What is entered is what the transitions descend to, each on its own. -/
theorem mem_entrySet_left : m ∈ c.entrySet (c.left a transitions) transitions ↔
    ∃ r ∈ transitions, ∃ d, c.Domain r d ∧ c.Enters (c.Goal (c.left a transitions) r) d m := by
  have hstates := (recordsFrom_left hc ha hrec transitions).states fun _ hb => hb.sound hc
  exact mem_entrySet hc (ready_of_legal hc ha hrec hf) hf.apart
    fun r hr => (hcoherent r hr).separate hc hstates

/-- Of a compound state only one child is entered. -/
theorem entered_child_unique (hk : c.kind n = .compound) (hq : q ∈ c.children n)
    (hp : p ∈ c.children n) (hqe : q ∈ c.entrySet (c.left a transitions) transitions)
    (hpe : p ∈ c.entrySet (c.left a transitions) transitions) : q = p := by
  have hready := ready_of_legal hc ha hrec hf
  obtain ⟨r, hr, d, hd, hqd⟩ :=
    (mem_entrySet_left hc ha hrec hf hcoherent).mp hqe
  obtain ⟨r', hr', d', hd', hpd⟩ :=
    (mem_entrySet_left hc ha hrec hf hcoherent).mp hpe
  have hwithin : ∀ {r d q}, c.Domain r d → q ∈ c.children n →
      c.Enters (c.Goal (c.left a transitions) r) d q → c.Within n d := fun hd hq hent =>
    hc.parent_within_of_inside
      (hc.inside_of_enters (fun g hg => goal_inside_domain hc hready hd hg) hent) hq
  -- both are entered by the transition whose domain is around their parent
  obtain rfl := hf.eq_of_within hc hr hr' hd hd' (hwithin hd hq hqd) (hwithin hd' hp hpd)
  obtain rfl := hd.unique hd'
  have haimed : ∀ {q p}, q ∈ c.children n → p ∈ c.children n →
      c.Aimed (c.Goal (c.left a transitions) r) q → c.Aimed (c.Goal (c.left a transitions) r) p →
      q = p := by
    rintro q p hq hp ⟨g, hg, hgq⟩ ⟨g', hg', hgp⟩
    rcases (hcoherent r hr).parted hg hg' with rfl | hparted
    · exact hc.inOrder.child_unique hq hp hgq hgp
    · exact hc.child_eq_of_parted hparted hk hq hp hgq hgp
  have hregion : ∀ {q}, q ∈ c.children n → c.Aimed (c.Goal (c.left a transitions) r) q →
      q ∈ c.regions n := fun hq ⟨_, hg, hgq⟩ => hc.region_of_within hq hgq hg.not_history
  -- both are aimed at, or neither is and both are the initial one
  rcases hc.enters_compound_cases hk hqd hq with haim | ⟨hi, hnone⟩
  · rcases hc.enters_compound_cases hk hpd hp with haim' | ⟨-, hnone⟩
    · exact haimed hq hp haim haim'
    · exact absurd haim (hnone q (hregion hq haim))
  · rcases hc.enters_compound_cases hk hpd hp with haim' | ⟨hi', -⟩
    · exact absurd haim' (hnone p (hregion hp haim'))
    · rw [hi] at hi'
      exact Option.some.inj hi'

/-- Transitions with coherent goals and domains side by side keep a legal set legal, unless the
root is parallel. -/
theorem microstep_legal (hroot : c.kind Tree.root ≠ .parallel) :
    c.Legal (c.microstep a transitions).active := by
  have hinside : c.RecordsInside a := hrec.inside hc fun _ hb => hb.sound hc
  refine (microstep_legal_iff hc hinside hf ha hroot).mpr fun n q p hk hq hp hqe hpe => ?_
  exact entered_child_unique hc ha hrec hf hcoherent hk hq hp hqe hpe

end

/-! ## Beginning -/

theorem mem_initialStep : n ∈ c.initialStep.active ↔ n ∈ c.initialEntrySet :=
  (enterAll_spec.1 n).trans (or_iff_right (SortedSet.not_mem_empty n))

theorem recorded?_initialStep : c.initialStep.active.recorded? h = none := by
  have hist : c.initialStep.active.history = Active.empty.history := enterAll_spec.2
  show c.initialStep.active.history.get? h = none
  rw [hist]
  rfl

theorem actions_initialStep :
    c.initialStep.actions = c.initialEntrySet.toList.flatMap c.entryActions := by
  have hnodup : c.initialEntrySet.toList.Nodup := c.initialEntrySet.ascending.imp Nat.ne_of_lt
  have hactions := foldl_enter_actions (c := c) (s := ⟨.empty, [], []⟩) hnodup
    (fun n _ => SortedSet.not_mem_empty n) []
  exact congrArg Stepped.actions hactions

/-- What a machine begins with is legal. -/
theorem initialStep_legal (hc : c.WellFormed) : c.Legal c.initialStep.active := by
  obtain ⟨hroot, hext⟩ :=
    hc.addDefault_extends hc.inOrder.size_pos hc.root_not_history .empty
  have hpath : ∀ {n}, n ∈ c.initialStep.active → c.Descends noGoal Tree.root n := fun hn =>
    (hext.new _ (mem_initialStep.mp hn)).resolve_left (SortedSet.not_mem_empty _)
  have hsupported : ∀ {n}, n ∈ c.initialStep.active → c.Supported c.initialEntrySet n := fun hn =>
    (hext.supported _ (mem_initialStep.mp hn)).resolve_left (SortedSet.not_mem_empty _)
  have hparent : ∀ {n p}, n ∈ c.initialStep.active → n ∈ c.children p →
      p ∈ c.initialStep.active := by
    intro n p hn hp
    rcases hext.parent n (mem_initialStep.mp hn) with hn | rfl | ⟨p', hp', hnp'⟩
    · exact absurd hn (SortedSet.not_mem_empty n)
    · exact absurd hp hc.inOrder.not_root_child
    · exact mem_initialStep.mpr (hc.inOrder.parent_unique hp hnp' ▸ hp')
  have hcovers : ∀ {q}, c.Covers c.initialEntrySet q → q ∈ c.initialStep.active := by
    rintro q ⟨m, hm, hmq⟩
    exact hc.mem_of_within hparent (mem_initialStep.mpr hm) hmq
  have hinitial : ∀ {n q}, c.kind n = .compound → q ∈ c.children n → q ∈ c.initialStep.active →
      c.initial? n = some q := by
    intro n q hk hq hqa
    rcases Relation.ReflTransGen.cases_tail (hpath hqa) with rfl | ⟨p, -, hl⟩
    · exact absurd hq hc.inOrder.not_root_child
    · rw [hc.inOrder.parent_unique (hc.leads_child hl) hq] at hl
      exact WellFormed.initial_of_leads hl hk
  refine ⟨mem_initialStep.mpr hroot, ?_, hparent, ?_, ?_, ?_⟩
  · exact fun hn => hc.descends_lt_size (hpath hn) hc.inOrder.size_pos
  · exact fun hn => hc.descends_not_history (hpath hn) hc.root_not_history
  · intro n hn hk
    obtain ⟨q, hq, hcov⟩ := (hsupported hn).compound hk
    refine ⟨q, ⟨hq, hcovers hcov⟩, fun q' ⟨hq', hqa'⟩ => ?_⟩
    have hi := hinitial hk (Tree.region_child hq) (hcovers hcov)
    rw [hinitial hk (Tree.region_child hq') hqa'] at hi
    exact Option.some.inj hi
  · intro n q hn hk hq
    exact hcovers ((hsupported hn).parallel hk q hq)

/-! ## Records -/

theorem recordsFrom_microstep {P : Active → Prop} (hc : c.WellFormed) (ha : P a)
    (hrec : c.RecordsFrom P a) (transitions : List Transition) :
    c.RecordsFrom P (c.microstep a transitions).active := by
  intro h states hs
  rw [recorded?_microstep] at hs
  exact recordsFrom_left hc ha hrec transitions h states hs

/-- Records of a sound set that stay inside still do so after a microstep. -/
theorem recordsInside_microstep (hc : c.WellFormed) (ha : c.Sound a) (hrec : c.RecordsInside a)
    (transitions : List Transition) : c.RecordsInside (c.microstep a transitions).active := by
  intro h states hs
  rw [recorded?_microstep] at hs
  exact recordsInside_left hc ha hrec transitions h states hs

/-- Where no history state is active, following them still comes to no circle after a microstep. -/
theorem acyclic_microstep (hc : c.WellFormed) (hstates : ∀ n ∈ a, (c.kind n).isHistory = false)
    (hacyclic : c.Acyclic a) (transitions : List Transition) :
    c.Acyclic (c.microstep a transitions).active := by
  refine acyclic_of_steps (fun hs _ => ?_) (acyclic_left hc hstates hacyclic transitions)
  exact ⟨hs.1, by simpa only [restored, recorded?_microstep] using hs.2⟩

theorem recordsFrom_initialStep (P : Active → Prop) : c.RecordsFrom P c.initialStep.active := by
  intro h states hs
  rw [recorded?_initialStep] at hs
  exact absurd hs (by simp)

end Statechart.Chart
