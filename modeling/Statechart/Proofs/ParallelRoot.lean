/-
# Statechart.Proofs.ParallelRoot -- when a parallel root keeps its regions

A transition from one region of a parallel root to another, or from a region to itself, has the root
as its domain. It leaves all regions, and nothing completes the root again: only those regions are
entered that the transition aims at. So the root keeps its regions for as long as every transition
with that domain aims at all of them or at the root itself, and loses one as soon as some transition
does not (`Machine.Run.keeps_regions_iff`). From then on a checked call refuses the configuration
that the one before has returned (`Machine.parallel_root_regions`).
-/

import Statechart.Proofs.Run

namespace Statechart

namespace Chart

variable {c : Chart} {a : Active} {transitions : List Transition} {n q : Nat}

/-- All regions of the root are active. -/
def HasRegions (c : Chart) (a : Active) : Prop := ∀ q ∈ c.regions Tree.root, q ∈ a

/-- Each transition whose domain is the root aims at all regions of the root, or at the root. -/
def CoversRegions (c : Chart) (a : Active) (transitions : List Transition) : Prop :=
  ∀ r ∈ transitions, c.Domain r Tree.root → ∀ q ∈ c.regions Tree.root,
    c.Aimed (c.Goal (c.left a transitions) r) q ∨ c.Goal (c.left a transitions) r Tree.root

/-! ## One microstep -/

section

variable (hc : c.WellFormed) (ha : c.Sound a) (hrec : c.RecordsInside a)
  (hf : c.Firable a transitions) (hregions : c.HasRegions a)
include hc ha hrec hf hregions

/-- A transition with the root as its domain leaves all regions, so a region that is there
afterwards has been entered, and by no other transition. -/
theorem covers_of_hasRegions (h : c.HasRegions (c.microstep a transitions).active) :
    c.CoversRegions a transitions := by
  intro r hr hd q hq
  have hchild := Tree.region_child hq
  have hexit : q ∈ c.exits a transitions := mem_exits.mpr
    ⟨r, hr, Tree.root, hd.domain_eq, hregions q hq, hc.inOrder.below_child hchild⟩
  -- it has not remained, as all that lies below the domain is left
  have hent : q ∈ c.entrySet (c.left a transitions) transitions := by
    rcases mem_microstep.mp (h q hq) with hleft | hent
    · exact absurd hexit (mem_left.mp hleft).2
    · exact hent
  obtain ⟨⟨r', hr', d', hd', hq'⟩, -⟩ := enterable_of_mem hc (hf.ready hc ha hrec) hent
  have hroot := hc.parent_within_of_inside hq'.inside hchild
  obtain rfl := hf.eq_of_within hc hr' hr hd' hd hroot (Tree.within_self _ _)
  rw [hd'.unique hd] at hq'
  exact hq'.aimed hchild

/-- A region that is left is entered again when the transition that leaves it aims there, or at the
root with all its regions. -/
theorem hasRegions_of_covers (hk : c.kind Tree.root = .parallel)
    (h : c.CoversRegions a transitions) : c.HasRegions (c.microstep a transitions).active := by
  intro q hq
  have hready := hf.ready hc ha hrec
  by_cases hexit : q ∈ c.exits a transitions
  · obtain ⟨r, hr, hd⟩ :=
      hf.domain_of_exit hc (root_mem_left hc ha.root_mem) (Tree.region_child hq) hexit
    obtain ⟨-, hreached⟩ := foldl_addTransition_extends hc hready .empty
    rcases h r hr hd q hq with ⟨g, hg, hgq⟩ | hg
    · exact mem_of_covers hc ha hrec hf ⟨g, (hreached r hr _ hd g hg).1, hgq⟩
    · have hsup := (enterable_of_mem hc hready (hreached r hr _ hd _ hg).1).2
      exact mem_of_covers hc ha hrec hf (hsup.parallel hk q hq)
  · exact mem_microstep.mpr (Or.inl (mem_left.mpr ⟨hregions q hq, hexit⟩))

/-- A microstep keeps the regions of a parallel root exactly if its transitions cover them. -/
theorem microstep_hasRegions_iff (hk : c.kind Tree.root = .parallel) :
    c.HasRegions (c.microstep a transitions).active ↔ c.CoversRegions a transitions :=
  ⟨covers_of_hasRegions hc ha hrec hf hregions,
    hasRegions_of_covers hc ha hrec hf hregions hk⟩

end

/-! ## What checking finds -/

/-- While the root has its regions, no region is found missing. -/
theorem fault?_ne_missingRegion (ha : c.Sound a) (h : c.HasRegions a) (state region : String) :
    a.fault? c.toTree ≠ some (.missingRegion state region) := by
  intro hfault
  obtain ⟨n, hn, hat⟩ := List.exists_of_findSome?_eq_some hfault
  rw [← SortedSet.mem_iff, ← Active.mem_iff] at hn
  unfold Active.faultAt? at hat
  split at hat
  · split at hat
    · cases hat
    · cases hat
  · rename_i hk
    obtain ⟨q, hfind, -⟩ := Option.map_eq_some_iff.mp hat
    have hq := List.mem_of_find?_eq_some hfind
    have hnot : q ∉ a := by simpa using List.find?_some hfind
    by_cases hroot : n = Tree.root
    · subst hroot
      exact hnot (h q hq)
    · exact hnot (ha.region_mem hn hroot hk hq)
  all_goals cases hat

/-- The root is the first of the active states. -/
theorem exists_states_eq_root_cons (h : Tree.root ∈ a) :
    ∃ l, a.states.toList = Tree.root :: l := by
  rw [Active.mem_iff, SortedSet.mem_iff] at h
  cases hs : a.states.toList with
  | nil =>
    rw [hs] at h
    cases h
  | cons n l =>
    have hasc := a.states.ascending
    rw [hs] at h hasc
    rcases List.mem_cons.mp h with rfl | hl
    · exact ⟨l, rfl⟩
    · exact absurd ((List.pairwise_cons.mp hasc).1 _ hl) (Nat.not_lt_zero n)

/-- Once a parallel root has lost a region, one that it has lost is found before anything else. -/
theorem fault?_of_not_hasRegions (hroot : Tree.root ∈ a) (hk : c.kind Tree.root = .parallel)
    (h : ¬ c.HasRegions a) : ∃ q ∈ c.regions Tree.root, q ∉ a ∧
      a.fault? c.toTree = some (.missingRegion (c.id Tree.root) (c.key q)) := by
  obtain ⟨l, hl⟩ := exists_states_eq_root_cons hroot
  have hat : a.faultAt? c.toTree Tree.root =
      ((c.regions Tree.root).find? (fun q => decide (¬ q ∈ a))).map (fun q =>
        .missingRegion (c.id Tree.root) (c.key q)) := by
    unfold Active.faultAt?
    rw [hk]
  cases hfind : (c.regions Tree.root).find? (fun q => decide (¬ q ∈ a)) with
  | none =>
    refine absurd (fun q hq => ?_) h
    simpa using List.find?_eq_none.mp hfind q hq
  | some q =>
    refine ⟨q, List.mem_of_find?_eq_some hfind, by simpa using List.find?_some hfind, ?_⟩
    rw [Active.fault?, hl, List.findSome?_cons, hat, hfind]
    rfl

end Chart

namespace Machine

variable {γ : Type} {m : Machine γ} {a b : Active} {transitions : List Transition}
  {trace : List Stage} {x : Moment γ}

/-! ## Runs -/

/-- One more stage in the account of a run. -/
theorem keeps_regions_cons (hstep : m.HasRegions a →
      (m.HasRegions b ↔ m.CoversRegions a transitions))
    (ih : (m.HasRegions a ∧ ∀ s ∈ trace, m.HasRegions s.before) ↔
      ∀ a transitions, .fired a transitions ∈ trace → m.CoversRegions a transitions) :
    (m.HasRegions b ∧ ∀ s ∈ Stage.fired a transitions :: trace, m.HasRegions s.before) ↔
      ∀ a' transitions', .fired a' transitions' ∈ Stage.fired a transitions :: trace →
        m.CoversRegions a' transitions' := by
  constructor
  · rintro ⟨hb, hall⟩ a' transitions' hmem
    obtain ⟨ha, htrace⟩ := List.forall_mem_cons.mp hall
    rcases List.mem_cons.mp hmem with heq | hmem
    · cases heq
      exact (hstep ha).mp hb
    · exact ih.mp ⟨ha, htrace⟩ a' transitions' hmem
  · intro hcovers
    have hall := ih.mpr fun a' ts' hmem => hcovers a' ts' (List.mem_cons_of_mem _ hmem)
    exact ⟨(hstep hall.1).mpr (hcovers _ _ List.mem_cons_self), List.forall_mem_cons.mpr hall⟩

/-- A parallel root has its regions at all times of a run exactly if all transitions that have been
fired cover them. -/
theorem Run.keeps_regions_iff (hc : m.WellFormed) (hk : m.kind Tree.root = .parallel)
    (h : m.Run trace x)
    (hfollow : ∀ a transitions, .fired a transitions ∈ trace → m.Followable a transitions) :
    (m.HasRegions x.active ∧ ∀ s ∈ trace, m.HasRegions s.before) ↔
      ∀ a transitions, .fired a transitions ∈ trace → m.CoversRegions a transitions := by
  have step : ∀ {trace x transitions}, m.Run trace x →
      (∀ a transitions, .fired a transitions ∈ trace → m.Followable a transitions) →
      m.Selects x.active transitions → m.Followable x.active transitions →
      m.HasRegions x.active → (m.HasRegions (m.microstep x.active transitions).active ↔
        m.CoversRegions x.active transitions) := by
    intro trace x transitions hrun hbefore hs hnow hregions
    obtain ⟨⟨ha, hrec⟩, -⟩ := hrun.sound hc fun a ts hmem _ => hbefore a ts hmem
    have hinside := hrec.inside hc fun _ hb => hb
    exact Chart.microstep_hasRegions_iff hc ha hinside (firable_of_selects hc ha hs hnow) hregions
      hk
  induction h with
  | begin context =>
    refine ⟨fun _ a transitions hmem => absurd hmem List.not_mem_nil, fun _ => ⟨?_, by simp⟩⟩
    exact fun q hq => (Chart.initialStep_legal hc).region_mem
      (Chart.initialStep_legal hc).root_mem hk hq
  | internal hrun hhandled ih =>
    have hbefore := fun a ts hmem => hfollow a ts (List.mem_cons_of_mem _ hmem)
    exact keeps_regions_cons (step hrun hbefore (selects_of_firstHandled hhandled)
      (hfollow _ _ List.mem_cons_self)) (ih hbefore)
  | @reload trace x b context hrun hsettled hres ih =>
    have hbefore := fun a ts hmem => hfollow a ts (List.mem_cons_of_mem _ hmem)
    obtain ⟨⟨ha, hrec⟩, -⟩ := hrun.sound hc fun a ts hmem _ => hbefore a ts hmem
    rw [eq_of_reload hc ha hrec hres, List.forall_mem_cons]
    have ih := ih hbefore
    constructor
    · rintro ⟨-, hall⟩ a transitions hmem
      rcases List.mem_cons.mp hmem with heq | hmem
      · cases heq
      · exact ih.mp hall a transitions hmem
    · intro hcovers
      have hall := ih.mpr fun a ts hmem => hcovers a ts (List.mem_cons_of_mem _ hmem)
      exact ⟨hall.1, hall⟩
  | external event hrun hs ih =>
    have hbefore := fun a ts hmem => hfollow a ts (List.mem_cons_of_mem _ hmem)
    exact keeps_regions_cons (step hrun hbefore ⟨_, event, hs⟩
      (hfollow _ _ List.mem_cons_self)) (ih hbefore)

/-! ## Calls -/

/-- When a parallel root keeps its regions. In a run whose targets can all be followed to an end,
the regions of the root are active at all times exactly if the transitions fired cover them. While
they are, no call refuses the configuration for a missing region; once one is not, every call that
checks refuses it for a region of the root. What calls return are the configurations of runs. -/
theorem parallel_root_regions {d : Description} {guards : Guards γ} {options : Options}
    (hm : d.compile guards options = .ok m) (hk : m.kind Tree.root = .parallel) :
    (∀ trace x, m.Run trace x →
      (∀ a transitions, .fired a transitions ∈ trace → m.Followable a transitions) →
      ((m.HasRegions x.active ∧ ∀ s ∈ trace, m.HasRegions s.before) ↔
          ∀ a transitions, .fired a transitions ∈ trace → m.CoversRegions a transitions) ∧
        (m.HasRegions x.active → ∀ context event state region,
          m.transition (x.active.configuration m.toTree) context event ≠
            .error (.invalidConfiguration (.missingRegion state region))) ∧
        (¬ m.HasRegions x.active → ∃ q ∈ m.regions Tree.root, q ∉ x.active ∧
          (m.options.validates = true → ∀ context event,
            m.transition (x.active.configuration m.toTree) context event =
              .error (.invalidConfiguration (.missingRegion (m.id Tree.root) (m.key q)))))) ∧
      ∀ configuration, m.Returns configuration → ∃ trace x, m.Run trace x ∧ m.Settled x ∧
        configuration = x.active.configuration m.toTree := by
  have hc := Description.wellFormed_of_compile hm
  refine ⟨fun trace x hrun hfollow => ?_, fun _ hret => exists_run_of_returns hret⟩
  obtain ⟨⟨ha, hrec⟩, -⟩ := hrun.sound hc fun a ts hmem _ => hfollow a ts hmem
  have hresolve := hc.resolve_configuration ha (hrec.inside hc fun _ hb => hb) m.options.validates
  refine ⟨hrun.keeps_regions_iff hc hk hfollow, ?_, ?_⟩
  · intro hregions context event state region h
    rw [transition_eq_error.mp h] at hresolve
    cases hfault : x.active.fault? m.toTree with
    | none =>
      rw [hfault] at hresolve
      cases hresolve
    | some e =>
      rw [hfault] at hresolve
      dsimp only at hresolve
      split at hresolve
      · rw [← Except.error.inj hresolve] at hfault
        exact Chart.fault?_ne_missingRegion ha hregions state region hfault
      · cases hresolve
  · intro hregions
    obtain ⟨q, hq, hnot, hfault⟩ := Chart.fault?_of_not_hasRegions ha.root_mem hk hregions
    refine ⟨q, hq, hnot, fun hchecks context event => transition_eq_error.mpr ?_⟩
    rw [hresolve, hfault, hchecks]
    rfl

end Machine

/-! ## A parallel root that loses a region -/

/-- Two lamps, of which the front one can blink. -/
def Description.lamps : Description where
  id := "lamps"
  root := { State.empty with
    kind := some .parallel
    states := [
      ("front", { State.empty with on := .ofList [("BLINK", [.target "front"])] }),
      ("rear", State.empty)] }

namespace Machine

/-- The lamps as a machine without guards. -/
def lamps : Machine Unit :=
  { Description.lamps.chart with guards := .empty, options := .standard }

theorem compile_lamps : Description.lamps.compile .empty .standard = .ok lamps :=
  Description.compile_of_accepted (by decide +kernel)

def lamps.blink : List Transition := [⟨1, "BLINK", 0, [1], none, none, [], false⟩]

def lamps.blinked : Active := (lamps.microstep lamps.initialStep.active lamps.blink).active

theorem run_lamps : lamps.Run
    [.fired lamps.initialStep.active lamps.blink, .reloaded lamps.initialStep.active]
    ⟨lamps.blinked, (lamps.microstep lamps.initialStep.active lamps.blink).raised, ()⟩ :=
  Run.external (.named "BLINK")
    ((Run.begin ()).reload () (by unfold Settled; decide +kernel) (by decide +kernel))
    (by decide +kernel)

/-- When the front lamp has blinked, the rear one is gone, and the next call refuses that. -/
theorem lamps_blinked_refused : ¬ lamps.HasRegions lamps.blinked ∧
    ¬ lamps.CoversRegions lamps.initialStep.active lamps.blink ∧
    ∃ q ∈ lamps.regions Tree.root, q ∉ lamps.blinked ∧
      ∀ event, lamps.transition (lamps.blinked.configuration lamps.toTree) () event =
        .error (.invalidConfiguration (.missingRegion "lamps" (lamps.key q))) := by
  have hc := Description.wellFormed_of_compile compile_lamps
  have hdef : lamps.DefaultsAcyclic :=
    Chart.defaultsAcyclic_of_behaviours hc (by decide +kernel)
  obtain ⟨hkeeps, -, hlost⟩ := (parallel_root_regions compile_lamps (by decide +kernel)).1 _ _
    run_lamps (run_lamps.followable hc hdef)
  have hnot : ¬ lamps.HasRegions lamps.blinked := by unfold Chart.HasRegions; decide +kernel
  obtain ⟨q, hq, hqa, hrefused⟩ := hlost hnot
  refine ⟨hnot, fun hcovers => ?_, q, hq, hqa, fun event => hrefused rfl () event⟩
  refine hnot (hkeeps.mpr fun a transitions hmem => ?_).1
  rcases List.mem_cons.mp hmem with heq | hmem
  · cases heq
    exact hcovers
  · cases List.mem_singleton.mp hmem

/-- So a call returns a configuration of a parallel root that the next call refuses. -/
theorem lamps_lose_rear : Description.lamps.compile .empty .standard = .ok lamps ∧
    lamps.kind Tree.root = .parallel ∧ 2 ∈ lamps.regions Tree.root ∧
    ∃ configuration, lamps.Returns configuration ∧ lamps.id 2 ∉ configuration.leaves ∧
      lamps.transition configuration () (.named "BLINK") =
        .error (.invalidConfiguration (.missingRegion "lamps" "rear")) := by
  have hbegin : lamps.begin () = .ok ⟨lamps.initialStep.active, [], 1⟩ := by decide +kernel
  have hfirst : lamps.initialState () =
      .ok (lamps.arrival ⟨lamps.initialStep.active, [], 1⟩) := by rw [initialState, hbegin]; rfl
  have hresolve : lamps.resolve (lamps.initialStep.active.configuration lamps.toTree) =
      .ok lamps.initialStep.active := by decide +kernel
  have hreact : lamps.react lamps.initialStep.active () (.named "BLINK") =
      .ok (some ⟨lamps.blinked, [], 1⟩) := by decide +kernel
  have hsecond : lamps.transition (lamps.initialStep.active.configuration lamps.toTree) ()
      (.named "BLINK") = .ok (.transitioned (lamps.arrival ⟨lamps.blinked, [], 1⟩)) := by
    rw [transition, hresolve]
    simp only [bind, Except.bind, hreact]
    rfl
  refine ⟨compile_lamps, by decide +kernel, by decide +kernel, _,
    .transition (.initial hfirst) hsecond, by decide +kernel, transition_eq_error.mpr ?_⟩
  decide +kernel

end Machine

end Statechart
