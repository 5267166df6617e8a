/-
# Statechart.Proofs.Completion -- what is announced when a state has completed

A final state announces its parent when it is entered, and a parallel state around that if this has
completed by then. No more is looked at. So what is announced has completed by the end of the step,
unless it is a parallel state with a final state for a region, which never completes
(`Machine.announced_iff_complete`). And a parallel state is announced by the region that completes
as the last one in document order, once for each final child of that: if the region is itself
parallel it has none, and nothing is announced (`Machine.parallel_completion_announced`).
-/

import Mathlib.Data.Finset.Max
import Statechart.Proofs.HistoryRestored
import Statechart.Proofs.Independence
import Statechart.Proofs.Step.Raised

namespace Statechart

namespace Chart

variable {c : Chart} {a b : Active} {actions : List Action} {states : Entering} {e : Event}
  {transitions : List Transition} {f g n p q q' : Nat}

/-! ## Announced and not complete -/

/-- A parallel state with a final state for a region. -/
def HasFinalRegion (c : Chart) (n : Nat) : Prop :=
  c.kind n = .parallel ∧ ∃ q ∈ c.children n, c.kind q = .final

/-- Every event that a step raises is the done event of a state, which by the end of the step has
completed exactly if it is not a parallel state with a final state for a region. -/
def AnnouncesCompleted (c : Chart) (s : Stepped) : Prop :=
  ∀ e ∈ s.raised, ∃ n, c.lookup? (c.id n) = some n ∧ e = c.doneEvent n ∧
    (s.active.isComplete c.toTree n = true ↔ ¬ c.HasFinalRegion n)

section

variable (hc : c.WellFormed)
include hc

/-- With a final child active a state has completed, unless it is parallel. -/
theorem isComplete_parent_iff (hf : f ∈ c.children n) (hk : c.kind f = .final) (hfa : f ∈ a) :
    a.isComplete c.toTree n = true ↔ ¬ c.HasFinalRegion n := by
  rcases hc.kind_of_child hf with hkn | hkn
  · have hcomplete := (Active.isComplete_compound hc.inOrder hkn).mpr ⟨f, hf, hfa, hk⟩
    refine iff_of_true hcomplete fun hregion => ?_
    have hkn' := hregion.1
    rw [hkn] at hkn'
    cases hkn'
  · refine iff_of_false (fun hcomplete => ?_) fun hnot => hnot ⟨hkn, f, hf, hk⟩
    exact Active.kind_ne_final_of_isComplete hc.inOrder hcomplete hkn hf hk

/-- Entering new states announces what has completed by the end. -/
theorem announcesCompleted_enterAll (hfresh : ∀ n ∈ states, n ∉ b) :
    c.AnnouncesCompleted (c.enterAll b actions states) := by
  intro e he
  rw [raised_enterAll hfresh, List.mem_flatMap] at he
  obtain ⟨f, hf, he⟩ := he
  have hfa : f ∈ (c.enterAll b actions states).active := mem_enterAll.mpr (Or.inr hf)
  obtain ⟨hk, n, hn⟩ := exists_parent_of_mem_doneEvents hc he
  rw [doneEvents_final hc hk hn, List.mem_cons] at he
  rcases he with rfl | he
  · exact ⟨n, hc.lookup?_id (Tree.lt_size_of_child hn), rfl, isComplete_parent_iff hc hn hk hfa⟩
  · cases hg : c.parent? n with
    | none =>
      rw [hg] at he
      exact absurd he List.not_mem_nil
    | some g =>
      have hng := hc.inOrder.parent?_eq_some.mp hg
      simp only [hg] at he
      split at he
      · rename_i hraise
        obtain rfl := List.mem_singleton.mp he
        refine ⟨g, hc.lookup?_id (Tree.lt_size_of_child hng), rfl, iff_of_true ?_ ?_⟩
        · -- what had completed when the state was entered has not become incomplete
          refine Active.isComplete_mono (fun m hm => ?_) hraise.2
          exact mem_enterAll.mpr ((Active.mem_upTo.mp hm).imp_right And.left)
        · rintro ⟨hkg, q, hq, hkq⟩
          exact Active.kind_ne_final_of_isComplete hc.inOrder hraise.2 hkg hq hkq
      · exact absurd he List.not_mem_nil

end

/-! ## Completed and not announced -/

/-- The final children of a state that are active. -/
def finalChildren (c : Chart) (a : Active) (n : Nat) : List Nat :=
  (c.children n).filter (fun q => decide (q ∈ a) && c.kind q = .final)

@[simp] theorem mem_finalChildren :
    q ∈ c.finalChildren a n ↔ q ∈ c.children n ∧ q ∈ a ∧ c.kind q = .final := by
  simp [finalChildren]

/-- The last region of a parallel state, in document order, that has not completed. -/
structure LastIncomplete (c : Chart) (a : Active) (p q : Nat) : Prop where
  region : q ∈ c.regions p
  incomplete : a.isComplete c.toTree q = false
  later : ∀ q' ∈ c.regions p, q < q' → a.isComplete c.toTree q' = true

/-- No child is entered beside one that remains. -/
def NoneBeside (c : Chart) (b : Active) (states : Entering) : Prop :=
  ∀ n, ∀ g ∈ c.children n, g ∈ b → ∀ f ∈ c.children n, f ∉ states

section

variable (hc : c.WellFormed)
include hc

/-- Whatever has completed has an active final state below it. -/
theorem exists_final_of_isComplete {n : Nat} (h : a.isComplete c.toTree n = true) :
    ∃ f ∈ a, c.kind f = .final ∧ c.Below f n := by
  rcases Active.kind_of_isComplete hc.inOrder h with hk | hk
  · obtain ⟨f, hf, hfa, hfinal⟩ := (Active.isComplete_compound hc.inOrder hk).mp h
    exact ⟨f, hfa, hfinal, hc.inOrder.below_child hf⟩
  · obtain ⟨q, hq⟩ := List.exists_mem_of_ne_nil _ (hc.regions_ne_nil hk)
    have hcomplete := (Active.isComplete_parallel hc.inOrder hk).mp h q hq
    obtain ⟨f, hfa, hfinal, hfq⟩ := exists_final_of_isComplete hcomplete
    have hqn := hc.inOrder.below_child (Tree.region_child hq)
    exact ⟨f, hfa, hfinal, hc.inOrder.below_trans hfq hqn⟩
termination_by c.size - n
decreasing_by
  have hlt := hc.inOrder.lt_child (Tree.region_child hq)
  have hsize := hc.inOrder.child_lt_size (Tree.region_child hq)
  omega

theorem exists_lastIncomplete (hk : c.kind p = .parallel) (h : b.isComplete c.toTree p = false) :
    ∃ q, c.LastIncomplete b p q := by
  have hsome : ∃ q ∈ c.regions p, b.isComplete c.toTree q = false := by
    by_contra hnone
    push Not at hnone
    rw [(Active.isComplete_parallel hc.inOrder hk).mpr fun q hq => by simpa using hnone q hq] at h
    cases h
  obtain ⟨i, hi, hib⟩ := hsome
  obtain ⟨q, hq, hmax⟩ := Finset.exists_max_image
    ((c.regions p).filter (fun q => !b.isComplete c.toTree q)).toFinset id
    ⟨i, by simp [hi, hib]⟩
  simp only [List.mem_toFinset, List.mem_filter, Bool.not_eq_true', id_eq] at hq hmax
  refine ⟨q, hq.1, hq.2, fun q' hq' hlt => ?_⟩
  by_contra hnot
  exact absurd (hmax q' ⟨hq', by simpa using hnot⟩) (Nat.not_le_of_lt hlt)

/-- A final child completes its parent, if that can complete at all. -/
theorem isComplete_of_final (h : b.isComplete c.toTree q = true) (hf : f ∈ c.children q)
    (hk : c.kind f = .final) (hfa : f ∈ a) : a.isComplete c.toTree q = true := by
  rcases hc.kind_of_child hf with hkq | hkq
  · exact (Active.isComplete_compound hc.inOrder hkq).mpr ⟨f, hf, hfa, hk⟩
  · exact absurd hk (Active.kind_ne_final_of_isComplete hc.inOrder h hkq hf)

/-- A state that has completed is parallel and has no final children, or is compound and some of
them are active, in a legal set one. -/
theorem length_finalChildren (h : a.isComplete c.toTree q = true) :
    (c.kind q = .parallel → (c.finalChildren a q).length = 0) ∧
      (c.kind q = .compound → 1 ≤ (c.finalChildren a q).length) ∧
      (c.Legal a → (c.finalChildren a q).length ≤ 1) := by
  have hnone : c.kind q = .parallel → (c.finalChildren a q).length = 0 := by
    intro hk
    rw [List.length_eq_zero_iff, List.eq_nil_iff_forall_not_mem]
    intro f hf
    obtain ⟨hfq, -, hfinal⟩ := mem_finalChildren.mp hf
    exact Active.kind_ne_final_of_isComplete hc.inOrder h hk hfq hfinal
  refine ⟨hnone, fun hk => ?_, fun ha => ?_⟩
  · obtain ⟨f, hf, hfa, hfinal⟩ := (Active.isComplete_compound hc.inOrder hk).mp h
    exact List.length_pos_of_mem (mem_finalChildren.mpr ⟨hf, hfa, hfinal⟩)
  · rcases Active.kind_of_isComplete hc.inOrder h with hk | hk
    · refine length_le_one ?_ fun f hf g hg => ?_
      · exact (hc.inOrder.nodup_children q).filter _
      · obtain ⟨hf, hfa, -⟩ := mem_finalChildren.mp hf
        obtain ⟨hg, hga, -⟩ := mem_finalChildren.mp hg
        exact ha.unique hk hf hg hfa hga
    · rw [hnone hk]
      exact Nat.zero_le 1

end

/-! ### While states are entered -/

section

variable (hc : c.WellFormed) (hq : q ∈ c.children p) (hq' : q' ∈ c.children p)
  (hf : f ∈ c.children q)
include hc hq hq' hf

/-- When a child of a state is entered, nothing has been entered in a later sibling of the state. -/
theorem isComplete_upTo_later (hlt : q < q') (l : List Nat) :
    (b.upTo l f).isComplete c.toTree q' = b.isComplete c.toTree q' := by
  refine Active.isComplete_congr hc.inOrder fun m hm => ?_
  have hfq' := hc.inOrder.lt_of_within_child hq hq' hlt (hc.inOrder.below_child hf).within
  have hfm := Nat.lt_trans hfq' (hc.inOrder.lt_of_below hm)
  rw [Active.mem_upTo]
  exact or_iff_left fun h => Nat.not_le_of_lt hfm h.2

/-- All that is to be entered in an earlier one has been. -/
theorem isComplete_upTo_earlier (hlt : q' < q) (actions : List Action) :
    (b.upTo states.toList f).isComplete c.toTree q' =
      (c.enterAll b actions states).active.isComplete c.toTree q' := by
  refine Active.isComplete_congr hc.inOrder fun m hm => ?_
  have hmq := hc.inOrder.lt_of_within_child hq' hq hlt hm.within
  have hmf := Nat.lt_trans hmq (hc.inOrder.lt_child hf)
  rw [Active.mem_upTo, mem_enterAll, ← SortedSet.mem_iff]
  exact or_congr_right (and_iff_left (Nat.le_of_lt hmf))

end

section

variable (hc : c.WellFormed) (hk : c.kind p = .parallel) (hlast : c.LastIncomplete b p q)
  (hafter : (c.enterAll b actions states).active.isComplete c.toTree p = true)
  (hbeside : c.NoneBeside b states)
include hc hk hlast hafter hbeside

/-- When a final state below a region is entered, the parallel state has completed exactly if the
region is the last one that had not. -/
theorem isComplete_upTo_iff (hq' : q' ∈ c.children p) (hf : f ∈ c.children q')
    (hfs : f ∈ states) (hfinal : c.kind f = .final) :
    (b.upTo states.toList f).isComplete c.toTree p = true ↔ q' = q := by
  have hqp := Tree.region_child hlast.region
  have hregions := (Active.isComplete_parallel hc.inOrder hk).mp hafter
  rw [Active.isComplete_parallel hc.inOrder hk]
  constructor
  · intro hcomplete
    rcases Nat.lt_trichotomy q' q with hlt | heq | hgt
    · -- the last region has not been entered yet
      have hnow := hcomplete q hlast.region
      rw [isComplete_upTo_later hc hq' hqp hf hlt, hlast.incomplete] at hnow
      cases hnow
    · exact heq
    · -- a region that had completed keeps its final child, and no other is entered beside that
      have hregion : q' ∈ c.regions p :=
        Tree.mem_regions.mpr ⟨hq', hc.not_history_of_child hf⟩
      have hbefore := hlast.later q' hregion hgt
      rcases hc.kind_of_child hf with hk' | hk'
      · obtain ⟨g, hg, hgb, -⟩ := (Active.isComplete_compound hc.inOrder hk').mp hbefore
        exact absurd hfs (hbeside q' g hg hgb f hf)
      · exact absurd hfinal (Active.kind_ne_final_of_isComplete hc.inOrder hbefore hk' hf)
  · rintro rfl i hi
    have hip := Tree.region_child hi
    rcases Nat.lt_trichotomy i q' with hlt | rfl | hgt
    · rw [isComplete_upTo_earlier hc hqp hip hf hlt actions]
      exact hregions i hi
    · refine isComplete_of_final hc (hregions i hi) hf hfinal ?_
      exact Active.mem_upTo.mpr (Or.inr ⟨SortedSet.mem_iff.mp hfs, Nat.le_refl f⟩)
    · rw [isComplete_upTo_later hc hqp hip hf hgt]
      exact hlast.later i hi hgt

/-- A parallel state that completes is announced once for each final child of the last region that
had not completed. -/
theorem count_raised (hfresh : ∀ n ∈ states, n ∉ b) :
    (c.enterAll b actions states).raised.count (c.doneEvent p) =
      (c.finalChildren (c.enterAll b actions states).active q).length := by
  have hqp := Tree.region_child hlast.region
  have hregions := (Active.isComplete_parallel hc.inOrder hk).mp hafter
  have hnot : ∀ q' ∈ c.children p, c.kind q' ≠ .final := fun q' hq' =>
    Active.kind_ne_final_of_isComplete hc.inOrder hafter hk hq'
  have heach : ∀ n ∈ states.toList,
      (c.doneEvents (b.upTo states.toList n) n).count (c.doneEvent p) =
        if c.kind n = .final ∧ n ∈ c.children q then 1 else 0 := by
    intro n hn
    rw [count_doneEvents hc hk hnot]
    refine if_congr (and_congr_right fun hkn => ?_) rfl rfl
    constructor
    · rintro ⟨⟨q', hq', hnq'⟩, hcomplete⟩
      rwa [(isComplete_upTo_iff hc hk hlast hafter hbeside hq' hnq'
        (SortedSet.mem_iff.mpr hn) hkn).mp hcomplete] at hnq'
    · intro hnq
      exact ⟨⟨q, hqp, hnq⟩, (isComplete_upTo_iff hc hk hlast hafter hbeside hqp hnq
        (SortedSet.mem_iff.mpr hn) hkn).mpr rfl⟩
  rw [raised_enterAll hfresh, count_flatMap_eq_countP heach, List.countP_eq_length_filter]
  -- both lists hold the final children that have been entered, as none has been active before
  refine List.Perm.length_eq ((List.perm_ext_iff_of_nodup ?_ ?_).mpr fun n => ?_)
  · exact (states.ascending.imp Nat.ne_of_lt).filter _
  · exact (hc.inOrder.nodup_children q).filter _
  · rw [List.mem_filter, decide_eq_true_eq, mem_finalChildren, mem_enterAll, ← SortedSet.mem_iff]
    constructor
    · rintro ⟨hn, hkn, hnq⟩
      exact ⟨hnq, Or.inr hn, hkn⟩
    · rintro ⟨hnq, hnb | hn, hkn⟩
      · have hbefore := isComplete_of_final hc (hregions q hlast.region) hnq hkn hnb
        rw [hlast.incomplete] at hbefore
        cases hbefore
      · exact ⟨hn, hkn, hnq⟩

end

/-! ### One step -/

/-- How a step that starts from what is active announces a parallel state that it completes: by the
last region, in document order, that had not completed, once for each active final child of that.
If the region is compound there is one at least, in a legal set exactly one; if it is parallel there
is none. -/
structure Announces (c : Chart) (b : Active) (s : Stepped) (p q : Nat) : Prop where
  last : c.LastIncomplete b p q
  count_eq : s.raised.count (c.doneEvent p) = (c.finalChildren s.active q).length
  count_parallel : c.kind q = .parallel → s.raised.count (c.doneEvent p) = 0
  count_compound : c.kind q = .compound → 1 ≤ s.raised.count (c.doneEvent p)
  count_legal : c.Legal s.active → s.raised.count (c.doneEvent p) ≤ 1

/-- The actions of the step play no part in this. -/
theorem Announces.congr {s s' : Stepped} (h : c.Announces b s p q) (hactive : s'.active = s.active)
    (hraised : s'.raised = s.raised) : c.Announces b s' p q where
  last := h.last
  count_eq := by rw [hactive, hraised, h.count_eq]
  count_parallel := by rw [hraised]; exact h.count_parallel
  count_compound := by rw [hraised]; exact h.count_compound
  count_legal := by rw [hactive, hraised]; exact h.count_legal

section

variable (hc : c.WellFormed)
include hc

theorem exists_announces_enterAll (hk : c.kind p = .parallel)
    (hbefore : b.isComplete c.toTree p = false)
    (hafter : (c.enterAll b actions states).active.isComplete c.toTree p = true)
    (hbeside : c.NoneBeside b states) (hfresh : ∀ n ∈ states, n ∉ b) :
    ∃ q, c.Announces b (c.enterAll b actions states) p q := by
  obtain ⟨q, hlast⟩ := exists_lastIncomplete hc hk hbefore
  have hcount := count_raised hc hk hlast hafter hbeside hfresh
  have hq := (Active.isComplete_parallel hc.inOrder hk).mp hafter q hlast.region
  obtain ⟨hparallel, hcompound, hlegal⟩ := length_finalChildren hc hq
  rw [← hcount] at hparallel hcompound hlegal
  exact ⟨q, hlast, hcount, hparallel, hcompound, hlegal⟩

/-- Where records lie below the parents of their history states, no child is entered beside one that
remains. -/
theorem noneBeside_entered (hrec : c.RecordsBelow a) (hdeclared : ∀ r ∈ transitions, c.Declares r) :
    c.NoneBeside (c.left a transitions) (c.entered a transitions) := by
  intro n g hg hleft f hf hmem
  obtain ⟨r, hr, d, hd, hin⟩ := hc.exists_domain_of_mem_entrySet
    (hc.recordsBelow_left hrec transitions) hdeclared (mem_entered.mp hmem).1
  -- the domain lies around the parent of both, so the one that remains would have been left
  have hgd := (hc.inOrder.below_child_iff hg).mpr (hc.parent_within_of_inside hin hf)
  obtain ⟨hga, hstays⟩ := mem_left.mp hleft
  exact hstays (mem_exits.mpr ⟨r, hr, d, hd.domain_eq, hga, hgd⟩)

omit hc in
/-- A microstep raises what is raised by entering new states from what remains. -/
theorem microstep_enters (c : Chart) (a : Active) (transitions : List Transition) :
    (c.microstep a transitions).active =
      (c.enterAll (c.left a transitions) [] (c.entered a transitions)).active ∧
    (c.microstep a transitions).raised =
      (c.enterAll (c.left a transitions) [] (c.entered a transitions)).raised := by
  rw [microstep_eq]
  exact ⟨rfl, rfl⟩

theorem exists_announces_microstep (hrec : c.RecordsBelow a)
    (hdeclared : ∀ r ∈ transitions, c.Declares r) (hk : c.kind p = .parallel)
    (hbefore : a.isComplete c.toTree p = false)
    (hafter : (c.microstep a transitions).active.isComplete c.toTree p = true) :
    ∃ q, c.Announces (c.left a transitions) (c.microstep a transitions) p q := by
  obtain ⟨hactive, hraised⟩ := microstep_enters c a transitions
  have hleft : (c.left a transitions).isComplete c.toTree p = false := by
    by_contra hcomplete
    rw [Active.isComplete_mono (fun n hn => (mem_left.mp hn).1) (by simpa using hcomplete)]
      at hbefore
    cases hbefore
  rw [hactive] at hafter
  obtain ⟨q, hq⟩ := exists_announces_enterAll hc hk hleft hafter
    (noneBeside_entered hc hrec hdeclared) fun n hn => (mem_entered.mp hn).2
  exact ⟨q, hq.congr hactive hraised⟩

end

end Chart

namespace Machine

variable {γ : Type} {m : Machine γ} {a b : Active} {trace : List Stage} {x : Moment γ} {p : Nat}

/-! ## Runs -/

/-- What a configuration of known states is resolved to names no others and holds the same
records. -/
theorem known_of_reload (hc : m.WellFormed) (ha : m.Known a) (hrec : m.RecordsBelow a)
    (h : m.resolve (a.configuration m.toTree) = .ok b) : m.Known b ∧ m.RecordsBelow b := by
  have hunchecked := unchecked_of_resolve h
  rw [hc.resolve_configuration_of_known ha.lt_size ha.root_mem ha.records
    fun h : false = true => absurd h Bool.false_ne_true] at hunchecked
  have heq : m.surrounded a = b := by
    split at hunchecked <;> exact Except.ok.inj hunchecked
  subst heq
  refine ⟨⟨?_, fun hn => ?_, ha.records⟩, hrec⟩
  · exact Chart.mem_surrounded.mpr ⟨_, ha.root_mem, Tree.within_self _ _⟩
  · obtain ⟨i, hi, hin⟩ := Chart.mem_surrounded.mp hn
    exact hc.inOrder.lt_size_of_within hin (ha.lt_size hi)

/-- At all times of a run what is active and recorded are states of the machine, and what is
recorded lies below the parents of history states. -/
theorem Run.known (hc : m.WellFormed) (h : m.Run trace x) :
    (m.Known x.active ∧ m.RecordsBelow x.active) ∧
      ∀ s ∈ trace, m.Known s.before ∧ m.RecordsBelow s.before := by
  refine h.invariant (I := fun a => m.Known a ∧ m.RecordsBelow a) (F := fun _ _ => True) ?_ ?_ ?_
    fun _ _ _ _ => trivial
  · have hlegal := Chart.initialStep_legal hc
    have hrecords := (Chart.recordsFrom_initialStep m.Sound).inside hc fun _ hb => hb
    exact ⟨⟨hlegal.root_mem, hlegal.lt_size, hrecords.known⟩, hc.recordsBelow_of_inside hrecords⟩
  · intro a transitions ⟨ha, hrec⟩ hs _
    have hdeclared := declares_of_selects hc (fun n hn => ha.lt_size hn) hs
    exact ⟨ha.microstep hc hdeclared, hc.recordsBelow_microstep hrec transitions⟩
  · exact fun a b ⟨ha, hrec⟩ hres => known_of_reload hc ha hrec hres

/-- What is announced has completed, by the end of the step, unless it is a parallel state with a
final state for a region, which never has: in the initial step and in every microstep. -/
theorem announced_iff_complete {d : Description} {guards : Guards γ} {options : Options}
    (hm : d.compile guards options = .ok m) : m.AnnouncesCompleted m.initialStep ∧
      ∀ a transitions, m.AnnouncesCompleted (m.microstep a transitions) := by
  have hc := Description.wellFormed_of_compile hm
  constructor
  · exact Chart.announcesCompleted_enterAll hc fun n _ => SortedSet.not_mem_empty n
  · intro a transitions
    obtain ⟨hactive, hraised⟩ := m.microstep_enters a transitions
    rw [Chart.AnnouncesCompleted, hactive, hraised]
    exact Chart.announcesCompleted_enterAll hc fun n hn => (Chart.mem_entered.mp hn).2

/-- How completion is announced. A parallel state that the initial step completes, or a microstep of
a run in which it had not completed before, is announced by the last region that had not completed
when the states of the step were entered. -/
theorem parallel_completion_announced {d : Description} {guards : Guards γ} {options : Options}
    (hm : d.compile guards options = .ok m) (hk : m.kind p = .parallel) :
    (m.initialStep.active.isComplete m.toTree p = true →
        ∃ q, m.Announces .empty m.initialStep p q) ∧
      ∀ trace a transitions x, m.Run (.fired a transitions :: trace) x →
        a.isComplete m.toTree p = false → x.active.isComplete m.toTree p = true →
        ∃ q, m.Announces (m.left a transitions) (m.microstep a transitions) p q := by
  have hc := Description.wellFormed_of_compile hm
  constructor
  · intro hafter
    have hbefore : Active.empty.isComplete m.toTree p = false := by
      by_contra hcomplete
      obtain ⟨f, hf, -⟩ := Chart.exists_final_of_isComplete hc (by simpa using hcomplete)
      exact SortedSet.not_mem_empty f hf
    exact Chart.exists_announces_enterAll hc hk hbefore hafter
      (fun n g _ hgb => absurd hgb (SortedSet.not_mem_empty g))
      fun n _ => SortedSet.not_mem_empty n
  · intro trace a transitions x hrun hbefore hafter
    obtain ⟨ha, hrec⟩ : m.Known a ∧ m.RecordsBelow a := (hrun.known hc).2 _ List.mem_cons_self
    obtain ⟨hs, hactive⟩ := hrun.of_fired
    rw [hactive] at hafter
    exact Chart.exists_announces_microstep hc hrec
      (declares_of_selects hc (fun n hn => ha.lt_size hn) hs) hk hbefore hafter

end Machine

/-! ## A region that is final -/

/-- A kettle brews while its lid is closed and its water is heated, and pours when both are done. -/
def Description.kettle : Description where
  id := "kettle"
  root := { State.empty with
    initial := some "brew"
    states := [
      ("brew", { State.empty with
        kind := some .parallel
        states := [
          ("lid", { State.empty with kind := some .final }),
          ("water", { State.empty with
            initial := some "cold"
            states := [
              ("cold", { State.empty with on := .ofList [("HEAT", [.target "hot"])] }),
              ("hot", { State.empty with kind := some .final })] })]
        onDone := some [.target "pour"] }),
      ("pour", State.empty)] }

namespace Machine

/-- The kettle as a machine without guards. -/
def kettle : Machine Unit :=
  { Description.kettle.chart with guards := .empty, options := .standard }

theorem compile_kettle : Description.kettle.compile .empty .standard = .ok kettle :=
  Description.compile_of_accepted (by decide +kernel)

def kettle.heat : List Transition := [⟨4, "HEAT", 0, [5], none, none, [], false⟩]

/-- When the kettle is heated it announces that its water is hot, and it is. When it begins it
announces that it has brewed, and it has not. -/
theorem kettle_announcements :
    (∀ e ∈ (kettle.microstep kettle.initialStep.active kettle.heat).raised,
        e = kettle.doneEvent 3) ∧
      (kettle.microstep kettle.initialStep.active kettle.heat).active.isComplete kettle.toTree 3 =
        true ∧
      kettle.doneEvent 1 ∈ kettle.initialStep.raised ∧
      ¬ kettle.initialStep.active.isComplete kettle.toTree 1 = true := by
  have hc := Description.wellFormed_of_compile compile_kettle
  obtain ⟨hbegin, hstep⟩ := announced_iff_complete compile_kettle
  have hraised : kettle.doneEvent 1 ∈ kettle.initialStep.raised := by decide +kernel
  refine ⟨by decide +kernel, ?_, hraised, ?_⟩
  · obtain ⟨n, hn, heq, hcomplete⟩ := hstep kettle.initialStep.active kettle.heat
      (kettle.doneEvent 3) (by decide +kernel)
    obtain rfl := Chart.doneEvent_inj hc (by decide +kernel) (Tree.lookup?_lt hn) heq
    exact hcomplete.mpr fun hregion => absurd hregion.1 (by decide +kernel)
  · obtain ⟨n, hn, heq, hcomplete⟩ := hbegin _ hraised
    obtain rfl := Chart.doneEvent_inj hc (by decide +kernel) (Tree.lookup?_lt hn) heq
    exact fun h => hcomplete.mp h ⟨by decide +kernel, 2, by decide +kernel, by decide +kernel⟩

/-- So the kettle pours at once: in the initial call its brewing is announced as complete, and left
for that, while the water is cold. -/
theorem kettle_pours_cold : Description.kettle.compile .empty .standard = .ok kettle ∧
    kettle.id 1 = "kettle.brew" ∧
    kettle.initialStep.raised = [.named "done.state.kettle.brew"] ∧
    kettle.initialStep.active.isComplete kettle.toTree 1 = false ∧
    ∃ arrival, kettle.initialState () = .ok arrival ∧ arrival.microsteps = 2 ∧
      arrival.configuration.leaves.toList = ["kettle.pour"] := by
  have hbegin : kettle.begin () = .ok ⟨⟨.ofList [0, 6], .empty⟩, [], 2⟩ := by decide +kernel
  refine ⟨compile_kettle, by decide +kernel, by decide +kernel, by decide +kernel, _,
    initialState_eq_ok.mpr ⟨_, hbegin, rfl⟩, rfl, by decide +kernel⟩

end Machine

/-! ## A region that is parallel -/

/-- A parcel is packed: its goods, in a box, are wrapped, and its label is printed. It is sent when
both are done. -/
def Description.parcel : Description where
  id := "parcel"
  root := { State.empty with
    initial := some "packing"
    states := [
      ("packing", { State.empty with
        kind := some .parallel
        states := [
          ("box", { State.empty with
            kind := some .parallel
            states := [
              ("goods", { State.empty with
                initial := some "loose"
                states := [
                  ("loose", { State.empty with on := .ofList [("WRAP", [.target "wrapped"])] }),
                  ("wrapped", { State.empty with kind := some .final })] })] }),
          ("label", { State.empty with
            initial := some "blank"
            states := [
              ("blank", { State.empty with on := .ofList [("PRINT", [.target "printed"])] }),
              ("printed", { State.empty with kind := some .final })] })]
        onDone := some [.target "sent"] }),
      ("sent", State.empty)] }

namespace Machine

/-- The parcel as a machine without guards. -/
def parcel : Machine Unit :=
  { Description.parcel.chart with guards := .empty, options := .standard }

theorem compile_parcel : Description.parcel.compile .empty .standard = .ok parcel :=
  Description.compile_of_accepted (by decide +kernel)

def parcel.wrap : List Transition := [⟨4, "WRAP", 0, [5], none, none, [], false⟩]

def parcel.print : List Transition := [⟨7, "PRINT", 0, [8], none, none, [], false⟩]

def parcel.begun : Active := parcel.initialStep.active

def parcel.wrapped : Active := (parcel.microstep parcel.begun parcel.wrap).active

def parcel.printed : Active := (parcel.microstep parcel.begun parcel.print).active

/-- Wrapped and labelled, in either order. -/
def parcel.packed : Active := (parcel.microstep parcel.printed parcel.wrap).active

theorem run_parcel_begun : parcel.Run [.reloaded parcel.begun] ⟨parcel.begun, [], ()⟩ :=
  (Run.begin ()).reload () (by unfold Settled; decide +kernel) (by decide +kernel)

theorem run_parcel_label_last : parcel.Run
    [.fired parcel.wrapped parcel.print, .reloaded parcel.wrapped,
      .fired parcel.begun parcel.wrap, .reloaded parcel.begun]
    ⟨parcel.packed, (parcel.microstep parcel.wrapped parcel.print).raised, ()⟩ := by
  have wrapped : parcel.Run [.fired parcel.begun parcel.wrap, .reloaded parcel.begun]
      ⟨parcel.wrapped, (parcel.microstep parcel.begun parcel.wrap).raised, ()⟩ :=
    run_parcel_begun.external (.named "WRAP") (by decide +kernel)
  have packed : (parcel.microstep parcel.wrapped parcel.print).active = parcel.packed := by
    decide +kernel
  rw [← packed]
  exact Run.external (.named "PRINT")
    (wrapped.reload () (by unfold Settled; decide +kernel) (by decide +kernel)) (by decide +kernel)

theorem run_parcel_box_last : parcel.Run
    [.fired parcel.printed parcel.wrap, .reloaded parcel.printed,
      .fired parcel.begun parcel.print, .reloaded parcel.begun]
    ⟨parcel.packed, (parcel.microstep parcel.printed parcel.wrap).raised, ()⟩ := by
  have printed : parcel.Run [.fired parcel.begun parcel.print, .reloaded parcel.begun]
      ⟨parcel.printed, (parcel.microstep parcel.begun parcel.print).raised, ()⟩ :=
    run_parcel_begun.external (.named "PRINT") (by decide +kernel)
  exact Run.external (.named "WRAP")
    (printed.reload () (by unfold Settled; decide +kernel) (by decide +kernel)) (by decide +kernel)

/-- Printing the label of a wrapped parcel announces that it is packed: of the two regions the label
is the last that had not completed. -/
theorem parcel_announced_by_label :
    1 ≤ (parcel.microstep parcel.wrapped parcel.print).raised.count (parcel.doneEvent 1) := by
  obtain ⟨q, hq⟩ := (parallel_completion_announced (p := 1) compile_parcel (by decide +kernel)).2
    _ _ _ _ run_parcel_label_last (by decide +kernel) (by decide +kernel)
  have hregions : parcel.regions 1 = [2, 6] := by decide +kernel
  have hregion := hq.last.region
  rw [hregions, List.mem_pair] at hregion
  rcases hregion with rfl | rfl
  · -- the box had completed
    have hbox : (parcel.left parcel.wrapped parcel.print).isComplete parcel.toTree 2 = true := by
      decide +kernel
    rw [hq.last.incomplete] at hbox
    cases hbox
  · exact hq.count_compound (by decide +kernel)

/-- Wrapping the goods of a labelled parcel completes it as well, and nothing announces that. So a
parcel that is wrapped first is sent, and one that is labelled first is not. -/
theorem parcel_packed_unannounced : Description.parcel.compile .empty .standard = .ok parcel ∧
    parcel.kind 1 = .parallel ∧
    parcel.Run [.fired parcel.printed parcel.wrap, .reloaded parcel.printed,
        .fired parcel.begun parcel.print, .reloaded parcel.begun]
      ⟨parcel.packed, (parcel.microstep parcel.printed parcel.wrap).raised, ()⟩ ∧
    parcel.printed.isComplete parcel.toTree 1 = false ∧
    parcel.packed.isComplete parcel.toTree 1 = true ∧
    (parcel.microstep parcel.printed parcel.wrap).raised.count (parcel.doneEvent 1) = 0 ∧
    parcel.transition (parcel.printed.configuration parcel.toTree) () (.named "WRAP") =
      .ok (.transitioned (parcel.arrival ⟨parcel.packed, [], 1⟩)) ∧
    ∃ arrival, parcel.transition (parcel.wrapped.configuration parcel.toTree) () (.named "PRINT") =
        .ok (.transitioned arrival) ∧ arrival.configuration.leaves.toList = ["parcel.sent"] := by
  have hprinted : parcel.resolve (parcel.printed.configuration parcel.toTree) =
      .ok parcel.printed := by decide +kernel
  have hwrap : parcel.react parcel.printed () (.named "WRAP") =
      .ok (some ⟨parcel.packed, [], 1⟩) := by decide +kernel
  have hwrapped : parcel.resolve (parcel.wrapped.configuration parcel.toTree) =
      .ok parcel.wrapped := by decide +kernel
  have hprint : parcel.react parcel.wrapped () (.named "PRINT") =
      .ok (some ⟨⟨.ofList [0, 9], .empty⟩, [], 2⟩) := by decide +kernel
  exact ⟨compile_parcel, by decide +kernel, run_parcel_box_last, by decide +kernel,
    by decide +kernel, by decide +kernel, transition_eq_ok.mpr ⟨_, _, hprinted, hwrap, rfl⟩,
    _, transition_eq_ok.mpr ⟨_, _, hwrapped, hprint, rfl⟩, by decide +kernel⟩

end Machine

end Statechart
