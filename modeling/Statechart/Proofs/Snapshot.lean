/-
# Statechart.Proofs.Snapshot -- what a returned configuration keeps

A call hands out a configuration in place of the set in which it has ended. Mapped back, this is the
set with everything around its states, and with its records. So nothing is lost exactly if the set
holds everything around its states, and the sets that a call comes through all do exactly if the
domains below which something is entered are active afterwards (`Machine.snapshot_lossless`).

Calls that begin in a sound set whose records restore something keep to that. One that is handed an
empty record need not: nothing is restored, a state remains without a child, and a transition from
there leaves nothing, so that it is in conflict with none, not even with one that leaves its domain
(`Machine.job_loses_work`).
-/

import Statechart.Proofs.Call

namespace Statechart

/-! ## Sets that stay sound -/

/-- No record is empty. -/
def Active.RecordsFilled (a : Active) : Prop :=
  ∀ h states, a.recorded? h = some states → ∃ x, x ∈ states

/-- A sound set whose records each restore something inside the parent of their history state, with
history states that can be followed to an end. -/
structure Chart.Steady (c : Chart) (a : Active) : Prop where
  sound : c.Sound a
  inside : c.RecordsInside a
  acyclic : c.Acyclic a

namespace Machine

variable {γ : Type} {m : Machine γ} {a b : Active} {context : γ} {event : Event}
  {transitions : List Transition} {fired : List Firing} {configuration : Configuration}
  {q : Progress}

section

variable (hc : m.WellFormed)
include hc

theorem steady_initialStep (hdef : m.DefaultsAcyclic) : m.Steady m.initialStep.active where
  sound := (Chart.initialStep_legal hc).sound hc
  inside := (Chart.recordsFrom_initialStep m.Sound).inside hc fun _ hb => hb
  acyclic := by
    have hstates := (Chart.recordsFrom_initialStep m.Sound).states fun _ hb => hb
    exact hc.acyclic_of_defaults hstates hdef

/-- So is what a checked configuration describes, unless one of its records is empty. -/
theorem steady_of_resolve (h : Active.resolve m.toTree true configuration = .ok a)
    (hfilled : a.RecordsFilled) (hacyclic : m.Acyclic a) : m.Steady a where
  sound := (hc.legal_of_resolve h).sound hc
  inside := by
    intro k states hs
    obtain ⟨hk, -⟩ := Chart.recordsKnown_of_resolve h k states hs
    obtain ⟨p, hp⟩ := hc.exists_parent_of_history hk
    exact ⟨hk, hfilled k states hs, p, hp, hc.recordsBelow_of_resolve h k states p hs hp⟩
  acyclic := hacyclic

theorem steady_microstep (ha : m.Steady a) (hs : m.Selects a transitions) :
    m.Steady (m.microstep a transitions).active where
  sound := Chart.microstep_sound hc ha.sound ha.inside
    (firable_of_selects hc ha.sound hs (followable_of_acyclic hc ha.sound ha.acyclic transitions))
  inside := Chart.recordsInside_microstep hc ha.sound ha.inside transitions
  acyclic := Chart.acyclic_microstep hc (fun _ hn => ha.sound.not_history hn) ha.acyclic transitions

/-! ## Calls -/

/-- What is active and what is recorded when a call begins are states of the machine, with
everything around what is active. -/
theorem Ends.known (h : m.Ends a q) : m.Known a ∧ m.Rooted a := by
  cases h with
  | initial _ =>
    have hlegal := Chart.initialStep_legal hc
    have hrecords := (Chart.recordsFrom_initialStep m.Sound).inside hc fun _ hb => hb
    exact ⟨⟨hlegal.root_mem, hlegal.lt_size, hrecords.known⟩, (hlegal.sound hc).rooted⟩
  | transition hres _ =>
    have hrooted := hc.rooted_of_resolve (resolve_eq_ok.mp hres)
    have hrecords := Chart.recordsKnown_of_resolve (resolve_eq_ok.mp hres)
    exact ⟨⟨hrooted.root_mem, hrooted.lt_size, hrecords⟩, hrooted⟩

/-- Everything around what is active stays active all the time exactly if the domains do below
which something is entered. -/
theorem Fires.rooted_iff (h : m.Fires a fired b) (ha : m.Known a) (hrooted : m.Rooted a) :
    ((∀ f ∈ fired, m.Rooted f.1) ∧ m.Rooted b) ↔ ∀ f ∈ fired, m.Anchored f.1 f.2 := by
  induction h with
  | nil => simpa using hrooted
  | @cons a b transitions fired hs hrest ih =>
    have hdeclared := declares_of_selects hc (fun n hn => ha.lt_size hn) hs
    have hstep := Chart.microstep_rooted_iff hc ha hdeclared hrooted
    rw [List.forall_mem_cons, List.forall_mem_cons]
    constructor
    · rintro ⟨⟨-, hall⟩, hb⟩
      have hnext : m.Rooted (m.microstep a transitions).active := hrest.head ⟨hall, hb⟩
      exact ⟨hstep.mp hnext, (ih (ha.microstep hc hdeclared) hnext).mp ⟨hall, hb⟩⟩
    · rintro ⟨hfirst, hothers⟩
      have hnext := hstep.mpr hfirst
      obtain ⟨hall, hb⟩ := (ih (ha.microstep hc hdeclared) hnext).mpr hothers
      exact ⟨⟨hrooted, hall⟩, hb⟩

end

/-! ## Snapshots -/

/-- What becomes of an event in a set that is active. -/
def resume (m : Machine γ) (a : Active) (context : γ) (event : Event) : Except Failure Outcome := do
  match ← m.react a context event with
  | none => return .unchanged
  | some p => return .transitioned (m.arrival p)

/-- What a call returns is as good as a set. Its configuration maps back to the set, or is refused
when it is checked; what is asked about the configuration is answered as the call has answered it,
and what becomes of the next event is what becomes of it in the set, unless that is refused. -/
structure Faithful (m : Machine γ) (arrival : Arrival) (a : Active) : Prop where
  unchecked : Active.resolve m.toTree false arrival.configuration = .ok a
  checked : ∀ b, Active.resolve m.toTree true arrival.configuration = .ok b → b = a
  value : ∀ v, m.stateValue arrival.configuration = .ok v → v = arrival.value
  isDone : ∀ done, m.isDone arrival.configuration = .ok done → done = arrival.isDone
  transition : ∀ context event,
    (∃ cause, m.transition arrival.configuration context event =
      .error (.invalidConfiguration cause)) ∨
      m.transition arrival.configuration context event = m.resume a context event

/-- Whether configurations are checked or not, one that maps back unchecked to the set in which a
call has ended is as good as that. -/
theorem faithful_of_unchecked
    (h : Active.resolve m.toTree false (m.arrival q).configuration = .ok q.active) :
    m.Faithful (m.arrival q) q.active := by
  have hchecked : ∀ b, Active.resolve m.toTree true (m.arrival q).configuration = .ok b →
      b = q.active := by
    intro b hb
    rw [Active.resolve_unchecked hb] at h
    exact Except.ok.inj h
  have hresolve : ∀ b, m.resolve (m.arrival q).configuration = .ok b → b = q.active := by
    intro b hb
    rw [resolve_eq_ok] at hb
    cases hv : m.options.validates with
    | true => exact hchecked b (hv ▸ hb)
    | false =>
      rw [hv, h] at hb
      exact (Except.ok.inj hb).symm
  refine ⟨h, hchecked, fun v hv => ?_, fun done hdone => ?_, fun context event => ?_⟩
  · obtain ⟨b, hb, hv⟩ := bind_eq_ok.mp hv
    rw [hresolve b hb] at hv
    exact (Except.ok.inj hv).symm
  · obtain ⟨b, hb, hdone⟩ := bind_eq_ok.mp hdone
    rw [hresolve b hb] at hdone
    exact (Except.ok.inj hdone).symm
  · cases hb : m.resolve (m.arrival q).configuration with
    | ok b =>
      refine Or.inr ?_
      obtain rfl := hresolve b hb
      rw [Machine.transition, hb]
      rfl
    | error f =>
      obtain ⟨cause, rfl⟩ := exists_cause_of_resolve hb
      exact Or.inl ⟨cause, transition_eq_error.mpr (resolve_eq_error.mp hb)⟩

section

variable (hc : m.WellFormed)
include hc

/-- The configuration in which a call ends maps back to the set with everything around its
states. -/
theorem resolve_arrival (hknown : m.Known q.active) :
    Active.resolve m.toTree false (m.arrival q).configuration = .ok (m.surrounded q.active) := by
  have hres := hc.resolve_configuration_of_known hknown.lt_size hknown.root_mem hknown.records
    fun h : false = true => absurd h Bool.false_ne_true
  rw [arrival, hres]
  split <;> rfl

theorem faithful_iff_rooted (hknown : m.Known q.active) :
    m.Faithful (m.arrival q) q.active ↔ m.Rooted q.active := by
  constructor
  · intro hfaithful
    have heq := hfaithful.unchecked
    rw [resolve_arrival hc hknown] at heq
    exact ⟨hknown.root_mem, hknown.lt_size, hc.surrounded_eq_iff.mp (Except.ok.inj heq)⟩
  · intro hrooted
    refine faithful_of_unchecked ?_
    rw [resolve_arrival hc hknown, hc.surrounded_eq_iff.mpr hrooted.parent_mem]

end

/-- What a returned configuration keeps. A call that goes through has ended in a set, and its
configuration maps back to that with everything around its states. So it is as good as the set
exactly if that holds everything around its states; and of all sets that the call comes through this
is true exactly if the domains below which something is entered are active afterwards. It always is
for calls that begin in a steady set: for the initial call of a machine whose default targets form
no circle, and where configurations are checked for every call that is handed no empty record and
no history states that lead in a circle. -/
theorem snapshot_lossless {d : Description} {guards : Guards γ} {options : Options}
    (hm : d.compile guards options = .ok m) :
    (∀ context arrival, m.initialState context = .ok arrival →
        ∃ q, m.Ends m.initialStep.active q ∧ arrival = m.arrival q ∧
          (m.DefaultsAcyclic → m.Faithful arrival q.active)) ∧
      (∀ configuration context event arrival,
        m.transition configuration context event = .ok (.transitioned arrival) →
        ∃ a q, m.resolve configuration = .ok a ∧ m.react a context event = .ok (some q) ∧
          m.Ends a q ∧ arrival = m.arrival q ∧
          (m.options.validates = true → a.RecordsFilled → m.Acyclic a →
            m.Faithful arrival q.active)) ∧
      ∀ a q, m.Ends a q →
        Active.resolve m.toTree false (m.arrival q).configuration = .ok (m.surrounded q.active) ∧
          (m.Faithful (m.arrival q) q.active ↔ m.Rooted q.active) ∧
          (m.Steady a → m.Faithful (m.arrival q) q.active) ∧
          ∃ fired, m.Fires a fired q.active ∧
            (((∀ f ∈ fired, m.Rooted f.1) ∧ m.Rooted q.active) ↔
              ∀ f ∈ fired, m.Anchored f.1 f.2) := by
  have hc := Description.wellFormed_of_compile hm
  have hsteady : ∀ {a q}, m.Ends a q → m.Steady a → m.Faithful (m.arrival q) q.active := by
    intro a q hends ha
    obtain ⟨fired, hfires⟩ := hends.exists_fires
    have hq := (hfires.keeps ha fun b transitions hs hb => steady_microstep hc hb hs).2
    have hknown := hfires.known hc (hends.known hc).1
    exact (faithful_iff_rooted hc hknown).mpr hq.sound.rooted
  refine ⟨fun context arrival h => ?_, fun configuration context event arrival h => ?_, ?_⟩
  · obtain ⟨q, hbegin, rfl⟩ := initialState_eq_ok.mp h
    have hends : m.Ends m.initialStep.active q := .initial hbegin
    exact ⟨q, hends, rfl, fun hdef => hsteady hends (steady_initialStep hc hdef)⟩
  · obtain ⟨a, q, hres, hreact, rfl⟩ := transition_eq_ok.mp h
    have hends : m.Ends a q := .transition hres hreact
    refine ⟨a, q, hres, hreact, hends, rfl, fun hchecks hfilled hacyclic => ?_⟩
    rw [resolve_eq_ok, hchecks] at hres
    exact hsteady hends (steady_of_resolve hc hres hfilled hacyclic)
  · intro a q hends
    obtain ⟨fired, hfires⟩ := hends.exists_fires
    obtain ⟨ha, hrooted⟩ := hends.known hc
    have hknown := hfires.known hc ha
    exact ⟨resolve_arrival hc hknown, faithful_iff_rooted hc hknown, hsteady hends, fired, hfires,
      hfires.rooted_iff hc ha hrooted⟩

/-- What is returned when the player is switched on again is as good as the set in which that ends,
with the records from when it was switched off. -/
theorem player_again_faithful : ∃ q,
    player.transition (player.off.configuration player.toTree) () (.named "POWER") =
        .ok (.transitioned (player.arrival q)) ∧
      q.active = player.again ∧ player.Faithful (player.arrival q) q.active := by
  have hc := Description.wellFormed_of_compile compile_player
  have hdef : player.DefaultsAcyclic := Chart.defaultsAcyclic_of_behaviours hc (by decide +kernel)
  have hresolve : player.resolve (player.off.configuration player.toTree) = .ok player.off := by
    decide +kernel
  have hreact : player.react player.off () (.named "POWER") = .ok (some ⟨player.again, [], 1⟩) := by
    decide +kernel
  have hcall : player.transition (player.off.configuration player.toTree) () (.named "POWER") =
      .ok (.transitioned (player.arrival ⟨player.again, [], 1⟩)) :=
    transition_eq_ok.mpr ⟨_, _, hresolve, hreact, rfl⟩
  -- the records are those of sets that the player has been in
  obtain ⟨ha, hrec⟩ : player.Sound player.off ∧ player.RecordsFrom player.Sound player.off :=
    (run_player.sound_of_acyclic hc hdef).2 _ List.mem_cons_self
  have hfilled : player.off.RecordsFilled := fun h states hs =>
    (hrec.inside hc (fun _ hb => hb) h states hs).2.1
  have hacyclic : player.Acyclic player.off :=
    hc.acyclic_of_defaults (hrec.states fun _ hb => hb) hdef
  obtain ⟨a, q, hres, hgoes, -, harrival, hfaithful⟩ :=
    (snapshot_lossless compile_player).2.1 _ _ _ _ hcall
  rw [hresolve] at hres
  obtain rfl := Except.ok.inj hres
  rw [hreact] at hgoes
  obtain rfl := Option.some.inj (Except.ok.inj hgoes)
  exact ⟨_, hcall, rfl, hfaithful rfl hfilled hacyclic⟩

/-! ### A job that is handed an empty record -/

end Machine

/-- A job is built and reported on, and is off when it is built. The report is sent then, and starts
again where it was when building is finished. -/
def Description.job : Description where
  id := "job"
  root := { State.empty with
    initial := some "work"
    states := [
      ("work", { State.empty with
        kind := some .parallel
        states := [
          ("build", { State.empty with
            initial := some "run"
            states := [
              ("run", { State.empty with on := .ofList [("FINISH", [.target "done"])] }),
              ("done", { State.empty with kind := some .final })]
            onDone := some [.target "#job.off"] }),
          ("report", { State.empty with
            initial := some "draft"
            states := [
              ("draft", { State.empty with on := .ofList [("FINISH", [.target "last"])] }),
              ("sent", { State.empty with exit := [.named "-sent"] }),
              ("last", { State.empty with history := some .shallow, target := some "draft" })]
            on := .ofList [("done.state.job.work.build",
              [.detailed { TransitionSpec.empty with targets := [".sent"], isInternal := true }])]
            exit := [.named "-report"] })]
        exit := [.named "-work"] }),
      ("off", { State.empty with entry := [.named "+off"], exit := [.named "-off"] })]
    on := .ofList [("CLOSE", [.target "off"])] }

namespace Machine

/-- The job, which takes configurations unchecked. -/
def job : Machine Unit :=
  { Description.job.chart with guards := .empty, options := ⟨64, false⟩ }

theorem compile_job : Description.job.compile .empty ⟨64, false⟩ = .ok job :=
  Description.compile_of_accepted (by decide +kernel)

/-- The configuration that the job is handed: what it begins with, and a record that restores
nothing. -/
def job.handed : Configuration :=
  ⟨.ofList ["job.work.build.run", "job.work.report.draft"],
    .ofList [("job.work.report.last", .empty)]⟩

def job.begun : Active := ⟨.ofList [0, 1, 2, 3, 5, 6], .ofList [(8, .empty)]⟩

/-- Where the job ends when it has been finished: the report is sent, while the states around that
have been left. -/
def job.finished : Progress :=
  ⟨⟨.ofList [0, 7, 9], .ofList [(8, .empty)]⟩,
    [.named "-report", .named "-work", .named "+off"], 2⟩

/-- The job loses sight of what it has left. The configuration that it is handed is accepted also
where configurations are checked, and nothing in it leads in a circle. Finishing ends in a set
without the states around one of its own, and the configuration that is returned does not map back
to that; when it is closed next, states are left that had been left before. -/
theorem job_loses_work : Description.job.compile .empty ⟨64, false⟩ = .ok job ∧
    (∀ checks, Active.resolve job.toTree checks job.handed = .ok job.begun) ∧
    job.Acyclic job.begun ∧
    job.react job.begun () (.named "FINISH") = .ok (some job.finished) ∧
    job.transition job.handed () (.named "FINISH") =
      .ok (.transitioned (job.arrival job.finished)) ∧
    Active.resolve job.toTree false (job.arrival job.finished).configuration ≠
      .ok job.finished.active ∧
    ∃ p p', job.transition (job.arrival job.finished).configuration () (.named "CLOSE") =
        .ok (.transitioned (job.arrival p)) ∧
      job.resume job.finished.active () (.named "CLOSE") =
        .ok (.transitioned (job.arrival p')) ∧
      p.actions =
        [.named "-off", .named "-sent", .named "-report", .named "-work", .named "+off"] ∧
      p'.actions = [.named "-off", .named "-sent", .named "+off"] := by
  have hc := Description.wellFormed_of_compile compile_job
  have hhanded : job.resolve job.handed = .ok job.begun := by decide +kernel
  have hfinish : job.react job.begun () (.named "FINISH") = .ok (some job.finished) := by
    decide +kernel
  have hback : job.resolve (job.arrival job.finished).configuration =
      .ok ⟨.ofList [0, 1, 5, 7, 9], .ofList [(8, .empty)]⟩ := by decide +kernel
  have hclose : job.react ⟨.ofList [0, 1, 5, 7, 9], .ofList [(8, .empty)]⟩ () (.named "CLOSE") =
      .ok (some ⟨⟨.ofList [0, 9], .ofList [(8, .ofList [7])]⟩,
        [.named "-off", .named "-sent", .named "-report", .named "-work", .named "+off"], 1⟩) := by
    decide +kernel
  have hresume : job.react job.finished.active () (.named "CLOSE") =
      .ok (some ⟨⟨.ofList [0, 9], .ofList [(8, .empty)]⟩,
        [.named "-off", .named "-sent", .named "+off"], 1⟩) := by decide +kernel
  have hresumed : job.resume job.finished.active () (.named "CLOSE") =
      .ok (.transitioned (job.arrival ⟨⟨.ofList [0, 9], .ofList [(8, .empty)]⟩,
        [.named "-off", .named "-sent", .named "+off"], 1⟩)) := by
    rw [resume, hresume]
    rfl
  refine ⟨compile_job, fun checks => ?_, ?_, hfinish,
    transition_eq_ok.mpr ⟨_, _, hhanded, hfinish, rfl⟩, by decide +kernel, _, _,
    transition_eq_ok.mpr ⟨_, _, hback, hclose, rfl⟩, hresumed, rfl, rfl⟩
  · cases checks <;> decide +kernel
  · refine hc.acyclic_of_defaults (fun h states hs x hx => ?_)
      (Chart.defaultsAcyclic_of_behaviours hc (by decide +kernel))
    have hmem := SortedMap.mem_of_get?_ofList hs
    rw [List.mem_singleton] at hmem
    rw [(Prod.mk.inj hmem).2] at hx
    exact absurd hx (SortedSet.not_mem_empty x)

end Machine

end Statechart
