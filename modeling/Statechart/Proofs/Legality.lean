/-
# Statechart.Proofs.Legality -- every reachable configuration is legal

A machine whose root is not parallel, whose default targets form no circle and whose transitions
name history children of parallel states only alone is in a legal set after every microstep of every
run (`Machine.Run.legal`). What makes the induction go through is that all records are taken of
legal sets: what they restore is coherent. So every configuration that a call returns is that of a
legal set, and no later call refuses it (`Machine.reachable_legal`).
-/

import Statechart.Proofs.Run

namespace Statechart

namespace Chart

variable {c : Chart} {a : Active} {r : Transition}

/-- No transition with several targets names a history child of a parallel state. -/
def HistoryAlone (c : Chart) : Prop :=
  ∀ n event, ∀ r ∈ c.candidates n event, 1 < r.targets.length → ∀ x ∈ r.targets, ∀ p,
    (c.kind x).isHistory = true → x ∈ c.children p → c.kind p ≠ .parallel

/-- The goals of every declared transition are then coherent. -/
theorem coherent_of_declares (hc : c.WellFormed) (halone : c.HistoryAlone) (hr : c.Declares r)
    (hrec : c.RecordsFrom c.Legal a) : c.Coherent a r := by
  by_cases hlength : 1 < r.targets.length
  · refine hc.coherent_of_apart hrec (fun x hx => hc.target_lt hr.2 hx) (hc.targets_apart hr.2) ?_
    intro x hx p hk hp hpar
    exact absurd hpar (halone _ _ r hr.2 hlength x hx p hk hp)
  · match htargets : r.targets with
    | [] =>
      have hnone : ∀ {g}, ¬ c.Goal a r g := by
        rintro g ⟨x, hx, -⟩
        rw [htargets] at hx
        exact List.not_mem_nil hx
      exact ⟨fun hg => absurd hg hnone, fun _ _ _ hg => absurd hg hnone⟩
    | [x] => exact hc.coherent_of_single hrec htargets
    | x :: y :: rest => simp [htargets] at hlength

theorem historyAlone_of_behaviours (h : ∀ b ∈ c.behaviours.toList, ∀ e ∈ b.on.toList, ∀ r ∈ e.2,
    r.targets.length ≤ 1) : c.HistoryAlone := by
  intro n event r hr hlength
  have hle : r.targets.length ≤ 1 := forall_candidates h r hr
  omega

end Chart

namespace Machine

variable {γ : Type} {m : Machine γ} {trace : List Stage} {x : Moment γ}

/-! ## Runs -/

/-- Every set of a run is legal, and every record is one of a legal set. -/
theorem Run.legal (hc : m.WellFormed) (hroot : m.kind Tree.root ≠ .parallel)
    (hdef : m.DefaultsAcyclic) (halone : m.HistoryAlone) (h : m.Run trace x) :
    (m.Legal x.active ∧ m.RecordsFrom m.Legal x.active) ∧
      ∀ s ∈ trace, m.Legal s.before ∧ m.RecordsFrom m.Legal s.before := by
  refine h.invariant (I := fun a => m.Legal a ∧ m.RecordsFrom m.Legal a)
    (F := fun _ _ => True) ?_ ?_ ?_ (fun _ _ _ _ => trivial)
  · exact ⟨Chart.initialStep_legal hc, Chart.recordsFrom_initialStep _⟩
  · intro a transitions ⟨ha, hrec⟩ hs _
    have hsound := hrec.mono fun _ hb => Chart.Legal.sound hc hb
    have hfire := firable_of_selects hc (ha.sound hc) hs
      (followable_of_defaults hc hdef (ha.sound hc) hsound transitions)
    have hleft := Chart.recordsFrom_left hc ha hrec transitions
    refine ⟨Chart.microstep_legal hc ha hrec hfire (fun r hr => ?_) hroot,
      Chart.recordsFrom_microstep hc ha hrec transitions⟩
    exact Chart.coherent_of_declares hc halone (hfire.declared r hr) hleft
  · intro a b ⟨ha, hrec⟩ hres
    rw [eq_of_reload hc (ha.sound hc) (hrec.mono fun _ hb => Chart.Legal.sound hc hb) hres]
    exact ⟨ha, hrec⟩

/-- Every reachable configuration is legal. After each microstep of each run, whatever the events
and contexts, the active set is legal and all records are within the parents of their history
states; so is what each returned configuration resolves to, checked or not; and no call refuses a
configuration that has been returned. -/
theorem reachable_legal {d : Description} {guards : Guards γ} {options : Options}
    (hm : d.compile guards options = .ok m) (hroot : m.kind Tree.root ≠ .parallel)
    (hdef : m.DefaultsAcyclic) (halone : m.HistoryAlone) :
    (∀ trace x, m.Run trace x → (m.Legal x.active ∧ m.RecordsInside x.active) ∧
        ∀ s ∈ trace, m.Legal s.before ∧ m.RecordsInside s.before) ∧
      (∀ configuration, m.Returns configuration → ∃ a, m.Legal a ∧ m.RecordsInside a ∧
        ∀ checks, Active.resolve m.toTree checks configuration = .ok a) ∧
      (∀ context cause, m.initialState context ≠ .error (.invalidConfiguration cause)) ∧
      ∀ configuration, m.Returns configuration → ∀ context event cause,
        m.transition configuration context event ≠ .error (.invalidConfiguration cause) := by
  have hc := Description.wellFormed_of_compile hm
  have hinside : ∀ {a}, m.RecordsFrom m.Legal a → m.RecordsInside a := fun hrec =>
    hrec.inside hc fun _ hb => Chart.Legal.sound hc hb
  have hreturns : ∀ configuration, m.Returns configuration → ∃ a, m.Legal a ∧ m.RecordsInside a ∧
      ∀ checks, Active.resolve m.toTree checks configuration = .ok a := by
    intro configuration hret
    obtain ⟨trace, x, hrun, -, rfl⟩ := exists_run_of_returns hret
    obtain ⟨⟨ha, hrec⟩, -⟩ := hrun.legal hc hroot hdef halone
    exact ⟨x.active, ha, hinside hrec, hc.resolve_legal ha (hinside hrec).known
      (hc.recordsBelow_of_inside (hinside hrec))⟩
  refine ⟨fun trace x hrun => ?_, hreturns, fun context cause h => ?_, ?_⟩
  · obtain ⟨⟨ha, hrec⟩, htrace⟩ := hrun.legal hc hroot hdef halone
    exact ⟨⟨ha, hinside hrec⟩, fun s hs => ⟨(htrace s hs).1, hinside (htrace s hs).2⟩⟩
  · unfold initialState at h
    cases hbegin : m.begin context with
    | ok p => rw [hbegin] at h; cases h
    | error f =>
      rw [hbegin] at h
      exact begin_error hbegin cause (Except.error.inj h)
  · intro configuration hret context event cause h
    obtain ⟨a, -, -, hres⟩ := hreturns configuration hret
    rw [transition_eq_error, hres] at h
    cases h

/-- The player that has been switched off and on again is in a legal set. -/
theorem player_again_legal : player.Legal player.again ∧ player.RecordsInside player.again := by
  have hc := Description.wellFormed_of_compile compile_player
  have hmain := reachable_legal compile_player (by decide +kernel)
    (Chart.defaultsAcyclic_of_behaviours hc (by decide +kernel))
    (Chart.historyAlone_of_behaviours (by decide +kernel))
  exact (hmain.1 _ _ run_player).1

end Machine

end Statechart
