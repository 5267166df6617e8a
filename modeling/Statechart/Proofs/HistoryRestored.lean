/-
# Statechart.Proofs.HistoryRestored -- history brings back what was left

What a history state holds is determined by the account of a run: it is what was recorded when its
parent was left for the last time (`Machine.Run.recorded?_eq`), whatever happened since and however
often the configuration was handed out and passed in again. A transition to the history state alone
brings that back below the parent (`Machine.history_restores`). For this it does not matter whether
the sets passed through are legal, as they are sound in any case.
-/

import Statechart.Proofs.Entry.Restored
import Statechart.Proofs.Run

namespace Statechart

namespace Chart

variable {c : Chart} {a b : Active} {r : Transition} {transitions : List Transition}
  {depth : HistoryDepth} {d h n p : Nat}

/-- A transition to a history state alone has a domain around the parent, so below the parent
exactly its own descent is active afterwards. -/
theorem mem_microstep_of_recorded (hc : c.WellFormed) (ha : c.Sound a)
    (hrec : c.RecordsFrom c.Sound a) (hf : c.Firable a transitions) (hr : r ∈ transitions)
    (htargets : r.targets = [h]) (hp : h ∈ c.children p) (hk : c.kind h = .history depth)
    (hb : c.Sound b)
    (hsnapshot : (c.left a transitions).recorded? h = some (c.snapshot b p depth)) :
    ∃ d, c.Within p d ∧ ∀ {n}, c.Below n p → (n ∈ (c.microstep a transitions).active ↔
      c.Enters (c.Goal (c.left a transitions) r) d n) := by
  have htarget : h ∈ r.targets := by rw [htargets]; exact List.mem_singleton_self h
  obtain ⟨d, hd⟩ := (hf.declared r hr).exists_domain_of_history htarget (by rw [hk]; rfl)
    (ha.not_history (hf.source_mem r hr))
  have hpd := hc.parent_within_of_inside (hd.targets_inside hc h htarget) hp
  refine ⟨d, hpd, fun {n} hn => ?_⟩
  have hnd := hc.inOrder.below_of_below_of_within hn hpd
  have hleft : n ∉ c.left a transitions := by
    intro hmem
    obtain ⟨hna, hstays⟩ := mem_left.mp hmem
    exact hstays (mem_exits.mpr ⟨r, hr, d, hd.domain_eq, hna, hnd⟩)
  rw [mem_microstep, or_iff_right hleft]
  have hstates := (recordsFrom_left hc ha hrec transitions).states fun _ hb => hb
  exact mem_entrySet_of_within hc (hf.ready hc ha (hrec.inside hc fun _ hb => hb)) hf.apart hr hd
    (separate_of_recorded hc hb hk htargets hsnapshot hstates) hnd.within

end Chart

namespace Machine

variable {γ : Type} {m : Machine γ} {a b : Active} {transitions : List Transition}
  {trace : List Stage} {x : Moment γ} {depth : HistoryDepth} {h p : Nat}

/-- What was active just before a state was left for the last time. -/
def lastExit (m : Machine γ) (p : Nat) : List Stage → Option Active
  | [] => none
  | .fired before transitions :: trace =>
    if p ∈ m.exits before transitions then some before else m.lastExit p trace
  | .reloaded _ :: trace => m.lastExit p trace

theorem exists_of_lastExit (h : m.lastExit p trace = some b) :
    ∃ transitions, .fired b transitions ∈ trace ∧ p ∈ m.exits b transitions := by
  induction trace with
  | nil => cases h
  | cons s trace ih =>
    cases s with
    | fired before transitions =>
      rw [lastExit] at h
      split at h
      · rename_i hmem
        cases h
        exact ⟨transitions, List.mem_cons_self, hmem⟩
      · obtain ⟨transitions, hfired, hmem⟩ := ih h
        exact ⟨transitions, List.mem_cons_of_mem _ hfired, hmem⟩
    | reloaded before =>
      obtain ⟨transitions, hfired, hmem⟩ := ih h
      exact ⟨transitions, List.mem_cons_of_mem _ hfired, hmem⟩

/-- A state that has been left was active, and is not the root. -/
theorem lastExit_mem (hc : m.WellFormed) (h : m.lastExit p trace = some b) :
    p ∈ b ∧ p ≠ Tree.root := by
  obtain ⟨transitions, -, hmem⟩ := exists_of_lastExit h
  obtain ⟨r, -, d, -, hpb, hbelow⟩ := Chart.mem_exits.mp hmem
  refine ⟨hpb, ?_⟩
  rintro rfl
  exact hc.inOrder.not_below_root hbelow

/-! ## Records -/

theorem recorded?_fired (hc : m.WellFormed) (hp : h ∈ m.children p)
    (hk : m.kind h = .history depth)
    (ih : a.recorded? h = (m.lastExit p trace).map (fun b => m.snapshot b p depth)) :
    (m.microstep a transitions).active.recorded? h =
      (m.lastExit p (.fired a transitions :: trace)).map (fun b => m.snapshot b p depth) := by
  rw [Chart.recorded?_microstep, Chart.recorded?_left hc hp hk, lastExit]
  split
  · rfl
  · exact ih

/-- A history state holds what was recorded when its parent was left for the last time, and nothing
if the parent has never been left. -/
theorem Run.recorded?_eq (hc : m.WellFormed) (hdef : m.DefaultsAcyclic) (hp : h ∈ m.children p)
    (hk : m.kind h = .history depth) (hrun : m.Run trace x) :
    x.active.recorded? h = (m.lastExit p trace).map (fun b => m.snapshot b p depth) := by
  induction hrun with
  | begin context => exact Chart.recorded?_initialStep
  | internal _ _ ih => exact recorded?_fired hc hp hk ih
  | reload context hrun _ hres ih =>
    -- handing out and passing in changes nothing
    obtain ⟨⟨ha, hrec⟩, -⟩ := hrun.sound_of_acyclic hc hdef
    rw [eq_of_reload hc ha hrec hres]
    show _ = (m.lastExit p _).map (fun b => m.snapshot b p depth)
    exact ih
  | external event _ _ ih => exact recorded?_fired hc hp hk ih

/-! ## Restoring -/

/-- Where a run is after firing transitions. -/
theorem Run.of_fired (hrun : m.Run (.fired a transitions :: trace) x) :
    m.Selects a transitions ∧ x.active = (m.microstep a transitions).active := by
  cases hrun with
  | internal _ hhandled => exact ⟨selects_of_firstHandled hhandled, rfl⟩
  | external event _ hs => exact ⟨⟨_, event, hs⟩, rfl⟩

/-- History restores what was left. At every point of a run a history state holds what was to be
recorded when its parent was left for the last time, and nothing if that never happened. And after a
transition to the history state alone, what is active below the parent is what the record brings
back, also when the same microstep has taken it. -/
theorem history_restores {d : Description} {guards : Guards γ} {options : Options}
    (hm : d.compile guards options = .ok m) (hdef : m.DefaultsAcyclic) (hp : h ∈ m.children p)
    (hk : m.kind h = .history depth) (hrun : m.Run trace x) :
    (m.lastExit p trace = none → x.active.recorded? h = none) ∧
      ∀ b, m.lastExit p trace = some b →
        (∃ states, x.active.recorded? h = some states ∧
          ∀ n, n ∈ states ↔ m.Recorded b p depth n) ∧
        ∀ a transitions rest r, trace = .fired a transitions :: rest → r ∈ transitions →
          r.targets = [h] → ∀ n, m.Below n p → (n ∈ x.active ↔ m.Restores b p depth n) := by
  have hc := Description.wellFormed_of_compile hm
  have hrecorded := hrun.recorded?_eq hc hdef hp hk
  refine ⟨fun hnone => by rw [hrecorded, hnone]; rfl, fun b hlast => ⟨?_, ?_⟩⟩
  · exact ⟨m.snapshot b p depth, by rw [hrecorded, hlast]; rfl, fun n => Chart.mem_snapshot⟩
  · rintro a transitions rest r rfl hr htargets n hn
    obtain ⟨-, hsound⟩ := hrun.sound_of_acyclic hc hdef
    obtain ⟨ha, hrec⟩ : m.Sound a ∧ m.RecordsFrom m.Sound a := hsound _ List.mem_cons_self
    obtain ⟨earlier, hfired, -⟩ := exists_of_lastExit hlast
    have hb : m.Sound b := (hsound _ hfired).1
    obtain ⟨hpb, hroot⟩ := lastExit_mem hc hlast
    obtain ⟨hs, hactive⟩ := hrun.of_fired
    have hf := firable_of_selects hc ha hs (hrun.followable hc hdef _ _ List.mem_cons_self)
    have hsnapshot : (m.left a transitions).recorded? h = some (m.snapshot b p depth) := by
      rw [← Chart.recorded?_microstep, ← hactive, hrecorded, hlast]
      rfl
    obtain ⟨e, hpe, hmem⟩ := Chart.mem_microstep_of_recorded hc ha hrec hf hr htargets hp hk hb
      hsnapshot
    rw [hactive, hmem hn]
    exact Chart.enters_iff_restores hc hb hpb hroot hpe
      (fun g => Chart.goal_iff_mem_snapshot hb hk htargets hsnapshot) hn

/-- The player is on again as it was when it was switched off. -/
theorem player_again_restored :
    (∃ states, player.again.recorded? 8 = some states ∧
      ∀ n, n ∈ states ↔ n ∈ player.loud.leaves player.toTree ∧ player.Below n 1) ∧
      ∀ n, player.Below n 1 → (n ∈ player.again ↔ n ∈ player.loud) := by
  have hc := Description.wellFormed_of_compile compile_player
  have hdef : player.DefaultsAcyclic :=
    Chart.defaultsAcyclic_of_behaviours hc (by decide +kernel)
  have hp : 8 ∈ player.children 1 := by decide +kernel
  have hk : player.kind 8 = .history .deep := by decide +kernel
  obtain ⟨-, hlast⟩ := history_restores compile_player hdef hp hk run_player
  obtain ⟨hrecord, hrestored⟩ := hlast player.loud (by decide +kernel)
  refine ⟨hrecord, fun n hn => ?_⟩
  exact hrestored player.off player.switchOn _ _ rfl List.mem_cons_self rfl n hn

end Machine

end Statechart
