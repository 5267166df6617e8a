/-
# Statechart.Proofs.SeveralTargets -- when several targets lead to a legal set

That any two targets of a transition lie in different children of a parallel state does not keep
them apart. A history child of such a state counts as one of its children, but stands for states in
all regions beside it, and so gets in the way of a target in one of them. Exactly two things can go
wrong: goals lie in two children of a compound state, or such a state begins in one child while a
goal lies in another (`Machine.several_targets_legal_iff`). Neither happens if no target lies below
the parallel state of which another is a history child, and all sets before were legal.
-/

import Statechart.Proofs.Chart.Intact
import Statechart.Proofs.Entry.Contested
import Statechart.Proofs.Run

namespace Statechart

namespace Chart

variable {c : Chart} {a : Active} {r : Transition}

/-- A transition on an active state whose targets can be followed to an end can be fired alone. -/
theorem firable_single (hr : c.Declares r) (hsource : r.source ∈ a)
    (hground : ∀ x ∈ r.targets, c.Grounded (c.left a [r]) c.size x) : c.Firable a [r] where
  declared := by simpa using hr
  source_mem := by simpa using hsource
  apart := List.pairwise_singleton _ _
  grounded := by simpa using hground

/-- A transition with several targets has a domain, as one of them is not its source. -/
theorem Declares.exists_domain_of_several (hc : c.WellFormed) (hr : c.Declares r)
    (hseveral : 1 < r.targets.length) : ∃ d, c.Domain r d := by
  match htargets : r.targets with
  | [] | [_] => simp [htargets] at hseveral
  | x :: y :: rest =>
    have hx : x ∈ r.targets := by simp [htargets]
    have hy : y ∈ r.targets := by simp [htargets]
    have hpairwise := hc.targets_apart hr.2
    rw [htargets] at hpairwise
    have hparted := hc.parted_of_areApart (hc.target_lt hr.2 hx) (hc.target_lt hr.2 hy)
      (List.rel_of_pairwise_cons hpairwise List.mem_cons_self)
    by_cases hsource : x = r.source
    · refine hr.exists_domain hy ?_
      rintro rfl
      rw [hsource] at hparted
      exact hc.not_within_of_parted hparted (Tree.within_self _ _)
    · exact hr.exists_domain hx hsource

end Chart

namespace Machine

variable {γ : Type} {m : Machine γ} {r : Transition} {trace : List Stage} {x : Moment γ}

/-- Where all sets of a run have been legal, all records are of legal sets. -/
theorem Run.recordsFrom_legal (hc : m.WellFormed) (h : m.Run trace x)
    (hfollow : ∀ a transitions, .fired a transitions ∈ trace → m.Followable a transitions)
    (hlegal : ∀ s ∈ trace, m.Legal s.before) : m.RecordsFrom m.Legal x.active := by
  refine (h.invariant (I := fun a => m.Sound a ∧ m.RecordsFrom m.Legal a)
    (F := fun a transitions => m.Legal a ∧ m.Followable a transitions) ?_ ?_ ?_ ?_).1.2
  · exact ⟨(Chart.initialStep_legal hc).sound hc, Chart.recordsFrom_initialStep _⟩
  · rintro a transitions ⟨ha, hrec⟩ hs ⟨hlegal, hfollow⟩
    have hinside := hrec.inside hc fun _ hb => hb.sound hc
    exact ⟨Chart.microstep_sound hc ha hinside (firable_of_selects hc ha hs hfollow),
      Chart.recordsFrom_microstep hc hlegal hrec transitions⟩
  · rintro a b ⟨ha, hrec⟩ hres
    rw [eq_of_reload hc ha (hrec.mono fun _ hb => hb.sound hc) hres]
    exact ⟨ha, hrec⟩
  · exact fun a transitions hmem _ => ⟨hlegal _ hmem, hfollow a transitions hmem⟩

/-- When several targets lead to a legal set. Fired alone in a legal set of a run, a transition with
several targets leads to a set that lacks nothing, and that is legal exactly if the configuration of
it is accepted again; exactly if the goals agree on the children of compound states and what begins
begins toward them; and in any case if all sets of the run were legal and no target lies below a
parallel state of which another one is a history child. -/
theorem several_targets_legal_iff {d : Description} {guards : Guards γ} {options : Options}
    (hm : d.compile guards options = .ok m) (hroot : m.kind Tree.root ≠ .parallel)
    (hrun : m.Run trace x)
    (hfollow : ∀ a transitions, .fired a transitions ∈ trace → m.Followable a transitions)
    (ha : m.Legal x.active) (hr : m.Declares r) (hsource : r.source ∈ x.active)
    (hseveral : 1 < r.targets.length) (hground : m.Followable x.active [r]) :
    m.Sound (m.microstep x.active [r]).active ∧
      (m.Legal (m.microstep x.active [r]).active ↔
        Active.resolve m.toTree true ((m.microstep x.active [r]).active.configuration m.toTree) =
          .ok (m.microstep x.active [r]).active) ∧
      (m.Legal (m.microstep x.active [r]).active ↔
        m.Agree (m.Goal (m.left x.active [r]) r) ∧
          m.BeginsToward (m.Goal (m.left x.active [r]) r)
            (m.entrySet (m.left x.active [r]) [r])) ∧
      ((∀ s ∈ trace, m.Legal s.before) → m.Solitary r →
        m.Legal (m.microstep x.active [r]).active) := by
  have hc := Description.wellFormed_of_compile hm
  obtain ⟨⟨hsound, hrec⟩, -⟩ := hrun.sound hc fun a ts hmem _ => hfollow a ts hmem
  have hinside : m.RecordsInside x.active := hrec.inside hc fun _ hb => hb
  have hfire : m.Firable x.active [r] :=
    Chart.firable_single hr hsource (hground r (List.mem_singleton_self r))
  have hafter := Chart.recordsInside_microstep hc hsound hinside [r]
  refine ⟨Chart.microstep_sound hc hsound hinside hfire,
    hc.legal_iff_resolve hafter.known (hc.recordsBelow_of_inside hafter), ?_, ?_⟩
  · obtain ⟨d, hd⟩ := hr.exists_domain_of_several hc hseveral
    rw [Chart.microstep_legal_iff hc hinside hfire ha hroot]
    exact hc.uncontested_iff (Chart.recordsInside_left hc hsound hinside [r]) hd
      (hground r (List.mem_singleton_self r))
  · intro hlegal hsolitary
    have hrec := hrun.recordsFrom_legal hc hfollow hlegal
    refine Chart.microstep_legal hc ha hrec hfire (fun r' hr' => ?_) hroot
    obtain rfl := List.mem_singleton.mp hr'
    exact hc.coherent_of_apart (Chart.recordsFrom_left hc ha hrec [r'])
      (fun y hy => hc.target_lt hr.2 hy) (hc.targets_apart hr.2) hsolitary

/-- In the lift a ride is resumed with the doors as they were and the cabin fast. -/
def lift.resume : Transition := ⟨1, "RESUME", 0, [6, 9], none, none, [], false⟩

/-- At first nothing is recorded of the doors, and they are shut. -/
theorem lift_resumes : 4 ∈ (lift.microstep lift.initialStep.active [lift.resume]).active ∧
    lift.Legal (lift.microstep lift.initialStep.active [lift.resume]).active := by
  have hc := Description.wellFormed_of_compile compile_lift
  have hdef : lift.DefaultsAcyclic := Chart.defaultsAcyclic_of_behaviours hc (by decide +kernel)
  have hlegal := Chart.initialStep_legal hc
  have hground := followable_of_defaults hc hdef (hlegal.sound hc)
    (Chart.recordsFrom_initialStep lift.Sound) [lift.resume]
  obtain ⟨-, -, -, hlift⟩ := several_targets_legal_iff compile_lift (by decide +kernel)
    (Run.begin ()) (by simp) hlegal (r := lift.resume) (by decide +kernel) (by decide +kernel)
    (by decide +kernel) hground
  refine ⟨by decide +kernel, hlift (by simp) fun x hx p hk hp hpar => ?_⟩
  -- the history state is a child of the doors, which are not parallel
  have hx6 : x = 6 := by
    rcases List.mem_cons.mp hx with rfl | hx
    · rfl
    · rw [List.mem_singleton.mp hx] at hk
      exact absurd hk (by decide +kernel)
  subst hx6
  rw [hc.inOrder.parent_unique hp (by decide +kernel : 6 ∈ lift.children 3)] at hpar
  exact absurd hpar (by decide +kernel)

end Machine

/-! ## A lamp that is on and off -/

/-- A desk with a lamp and a fan, at which work can be taken up as it was left, with the lamp on. -/
def Description.desk : Description where
  id := "desk"
  root := { State.empty with
    initial := some "idle"
    states := [
      ("idle", { State.empty with on := .ofList [("START", [.detailed
        { TransitionSpec.empty with targets := ["work.last", "work.lamp.on"] }])] }),
      ("work", { State.empty with
        kind := some .parallel
        states := [
          ("lamp", { State.empty with
            initial := some "off"
            states := [("off", State.empty), ("on", State.empty)] }),
          ("fan", { State.empty with
            initial := some "slow"
            states := [("slow", State.empty), ("fast", State.empty)] }),
          ("last", { State.empty with history := some .deep })] })] }

namespace Machine

/-- The desk as a machine without guards. -/
def desk : Machine Unit :=
  { Description.desk.chart with guards := .empty, options := .standard }

theorem compile_desk : Description.desk.compile .empty .standard = .ok desk :=
  Description.compile_of_accepted (by decide +kernel)

def desk.start : Transition := ⟨1, "START", 0, [9, 5], none, none, [], false⟩

/-- What is to be taken up as it was left, when nothing has been left yet, brings the lamp with it
that is off, and so the lamp is on and off. -/
theorem desk_lamp_on_and_off : Description.desk.compile .empty .standard = .ok desk ∧
    desk.kind Tree.root ≠ .parallel ∧ desk.Run [] ⟨desk.initialStep.active, [], ()⟩ ∧
    desk.Legal desk.initialStep.active ∧ desk.Declares desk.start ∧
    desk.start.source ∈ desk.initialStep.active ∧ desk.start.targets.length = 2 ∧
    desk.kind 3 = .compound ∧ 4 ∈ desk.regions 3 ∧ 5 ∈ desk.regions 3 ∧
    4 ∈ (desk.microstep desk.initialStep.active [desk.start]).active ∧
    5 ∈ (desk.microstep desk.initialStep.active [desk.start]).active ∧
    ¬ desk.Legal (desk.microstep desk.initialStep.active [desk.start]).active := by
  have hc := Description.wellFormed_of_compile compile_desk
  have hlamp : desk.kind 3 = .compound ∧ 4 ∈ desk.regions 3 ∧ 5 ∈ desk.regions 3 ∧
      4 ∈ (desk.microstep desk.initialStep.active [desk.start]).active ∧
      5 ∈ (desk.microstep desk.initialStep.active [desk.start]).active := by decide +kernel
  obtain ⟨hk, hoff, hon, hoffa, hona⟩ := hlamp
  refine ⟨compile_desk, by decide +kernel, Run.begin (), Chart.initialStep_legal hc,
    by decide +kernel, by decide +kernel, rfl, hk, hoff, hon, hoffa, hona, fun hlegal => ?_⟩
  have heq := hlegal.unique hk (Tree.region_child hoff) (Tree.region_child hon) hoffa hona
  exact absurd heq (by decide)

end Machine

end Statechart
