/-
# Statechart.Proofs.Resumption -- services that go on from a checkpoint

What a service shows of its machine is always that of one set: its configuration, its value and
whether it is done, also when results are committed late or again (`Service.keeps_shows`). The
configuration maps back to this set, so a service that is resumed from a checkpoint finds anew what
the one before had, unless its configuration is refused (`Service.ofCheckpoint_checkpoint`). It
lacks nothing but the executors; when these are registered it is the service before.

From then on two services can differ by the times in their journals only, and these play no part in
what they do (`Session.alike_run`).
-/

import Statechart.Checkpoint
import Statechart.Proofs.Session
import Statechart.Proofs.Snapshot

namespace Statechart

variable {γ ε : Type} {m : Machine γ} {a b : Active} {q : Progress} {s t : Service γ ε}
  {event : Event} {env : ε}

/-! ## What a service shows -/

namespace Machine

/-- A steady set comes back as it was when its configuration is passed in. -/
theorem eq_of_resolve (hc : m.WellFormed) (ha : m.Steady a)
    (h : m.resolve (a.configuration m.toTree) = .ok b) : b = a := by
  have hback := unchecked_of_resolve h
  rw [hc.resolve_configuration_unchecked ha.sound ha.inside] at hback
  exact (Except.ok.inj hback).symm

/-- A call that begins in a steady set ends in one. -/
theorem Ends.steady (hc : m.WellFormed) (h : m.Ends a q) (ha : m.Steady a) :
    m.Steady q.active := by
  obtain ⟨fired, hfires⟩ := h.exists_fires
  exact (hfires.keeps ha fun b transitions hs hb => steady_microstep hc hb hs).2

end Machine

namespace Service

/-- A service of a machine shows a set: its configuration, its value and whether it is done are
those of the set. -/
structure Shows (m : Machine γ) (s : Service γ ε) (a : Active) : Prop where
  machine_eq : s.machine = m
  steady : m.Steady a
  configuration_eq : s.configuration = a.configuration m.toTree
  value_eq : s.value = a.value m.toTree
  isDone_eq : s.isDone = a.isComplete m.toTree Tree.root

/-- A result that has moved the machine has led to where a call has ended in a steady set. -/
def Leads (m : Machine γ) (r : StepResult γ) : Prop :=
  ∀ event arrival context, r = .transitioned event arrival context →
    ∃ q, m.Steady q.active ∧ arrival = m.arrival q

theorem leads_of_run {r : StepResult γ} (h : s.run event env (m.arrival q) = .ok r)
    (hq : m.Steady q.active) : Leads m r := by
  rintro event' arrival context rfl
  obtain ⟨context', -, heq⟩ := run_eq_ok.mp h
  cases heq
  exact ⟨q, hq, rfl⟩

theorem keeps_shows (hc : m.WellFormed) (hdef : m.DefaultsAcyclic) :
    Session.Keeps (fun s : Service γ ε => ∃ a, Shows m s a) (Leads m) where
  register := fun kind executor ⟨a, h⟩ =>
    ⟨a, h.machine_eq, h.steady, h.configuration_eq, h.value_eq, h.isDone_eq⟩
  step := by
    rintro s event env r ⟨a, h⟩ hstep
    rcases step_eq_ok.mp hstep with ⟨-, rfl⟩ | ⟨arrival, htransition, hrun⟩
    · exact fun _ _ _ heq => by cases heq
    · rw [h.machine_eq, h.configuration_eq] at htransition
      obtain ⟨b, q, hres, hreact, rfl⟩ := Machine.transition_eq_ok.mp htransition
      have hends := Machine.Ends.transition hres hreact
      rw [Machine.eq_of_resolve hc h.steady hres] at hends
      exact leads_of_run hrun (hends.steady hc h.steady)
  restart := by
    rintro s env r ⟨a, h⟩ hrestart
    obtain ⟨arrival, hinitial, hrun⟩ := restart_eq_ok.mp hrestart
    rw [h.machine_eq] at hinitial
    obtain ⟨q, hbegin, rfl⟩ := Machine.initialState_eq_ok.mp hinitial
    have hends := Machine.Ends.initial hbegin
    exact leads_of_run hrun (hends.steady hc (Machine.steady_initialStep hc hdef))
  commit := by
    rintro s r now ⟨a, h⟩ hr
    cases r with
    | unchanged event => exact ⟨a, h⟩
    | transitioned event arrival context =>
      obtain ⟨q, hq, rfl⟩ := hr _ _ _ rfl
      exact ⟨q.active, h.machine_eq, hq, rfl, rfl, rfl⟩

/-- A service of a machine that some deeds have led to. -/
def Reached (m : Machine γ) (s : Service γ ε) : Prop :=
  ∃ context s₀, start? m context = .ok s₀ ∧ ∃ deeds, ((Session.of s₀).run deeds).service = s

theorem Reached.exists_shows (hc : m.WellFormed) (hdef : m.DefaultsAcyclic) (h : Reached m s) :
    ∃ a, Shows m s a := by
  obtain ⟨context, s₀, hs₀, deeds, rfl⟩ := h
  obtain ⟨arrival, hinitial, rfl⟩ := start?_eq_ok.mp hs₀
  obtain ⟨q, hbegin, rfl⟩ := Machine.initialState_eq_ok.mp hinitial
  have hq := (Machine.Ends.initial hbegin).steady hc (Machine.steady_initialStep hc hdef)
  exact (Session.keeps_run (keeps_shows hc hdef) ⟨q.active, rfl, hq, rfl, rfl, rfl⟩ deeds).1

/-! ## Resuming -/

/-- A service is resumed with its parts if its machine accepts the configuration. -/
theorem resume_eq_ok {configuration : Configuration} {context : γ} {journal : Journal} :
    resume m configuration context journal = .ok s ↔ ∃ a, m.resolve configuration = .ok a ∧
      s = ⟨m, configuration, a.value m.toTree, a.isComplete m.toTree Tree.root, context, journal,
        .empty⟩ := by
  rw [resume, Machine.stateValue, Machine.isDone]
  cases m.resolve configuration with
  | error f => simp [bind, Except.bind]
  | ok a => simp [bind, Except.bind, pure, Except.pure, eq_comm]

/-- A checkpoint is resumed if it has the current version, is of the machine, and its parts can be
resumed. -/
theorem ofCheckpoint_eq_ok {c : Checkpoint γ} : ofCheckpoint m c = .ok t ↔
    c.version = Checkpoint.currentVersion ∧ c.machineId = m.machineId ∧
      resume m c.configuration c.context c.journal = .ok t := by
  rw [ofCheckpoint, bind_eq_ok]
  constructor
  · rintro ⟨c', hversion, h⟩
    unfold Checkpoint.checkVersion at hversion
    split at hversion
    · rename_i hcurrent
      obtain rfl := Except.ok.inj hversion
      split at h
      · rename_i hid
        split at h
        · rename_i hresume
          exact ⟨hcurrent, hid, hresume.trans (congrArg _ (Except.ok.inj h))⟩
        · cases h
      · cases h
    · cases hversion
  · rintro ⟨hcurrent, hid, hresume⟩
    refine ⟨c, if_pos hcurrent, ?_⟩
    rw [if_pos hid, hresume]

/-- What is resumed from the checkpoint of a service is the service without its executors, if its
configuration is accepted. -/
theorem ofCheckpoint_checkpoint (hc : m.WellFormed) (h : Shows m s a) {id : String}
    {now : Instant} : ofCheckpoint m (s.checkpoint id now) = .ok t ↔
      (∃ b, Active.resolve m.toTree m.options.validates s.configuration = .ok b) ∧
        t = { s with executors := .empty } := by
  have hversion : (s.checkpoint id now).version = Checkpoint.currentVersion := rfl
  have hid : (s.checkpoint id now).machineId = m.machineId := by
    rw [← h.machine_eq]
    rfl
  rw [ofCheckpoint_eq_ok, and_iff_right hversion, and_iff_right hid, resume_eq_ok,
    ← exists_and_right]
  refine exists_congr fun b => ?_
  rw [Machine.resolve_eq_ok]
  refine and_congr_right fun hb => ?_
  -- the set found anew is the one that the service shows
  have hfound : m.resolve s.configuration = .ok b := Machine.resolve_eq_ok.mpr hb
  rw [h.configuration_eq] at hfound
  rw [Machine.eq_of_resolve hc h.steady hfound, ← h.value_eq, ← h.isDone_eq, ← h.machine_eq]
  rfl

/-- Registers several executors. -/
def registerAll (s : Service γ ε) (executors : List (String × Executor γ ε)) : Service γ ε :=
  executors.foldl (fun s e => s.onAction e.1 e.2) s

theorem registerAll_eq (s : Service γ ε) (executors : List (String × Executor γ ε)) :
    s.registerAll executors =
      { s with executors := executors.foldl (fun es e => es.insert e.1 e.2) s.executors } := by
  induction executors generalizing s with
  | nil => rfl
  | cons e executors ih => exact ih (s.onAction e.1 e.2)

end Service

/-! ## Times aside -/

/-- What there is to a move but its time. -/
def Move.timeless (x : Move) : Configuration × Configuration × String × Nat :=
  (x.before, x.after, x.event, x.microsteps)

/-- Two services differ by the times of their moves at most. -/
structure Service.Alike (s t : Service γ ε) : Prop where
  machine_eq : s.machine = t.machine
  configuration_eq : s.configuration = t.configuration
  value_eq : s.value = t.value
  isDone_eq : s.isDone = t.isDone
  context_eq : s.context = t.context
  executors_eq : s.executors = t.executors
  moves_eq : s.journal.moves.map Move.timeless = t.journal.moves.map Move.timeless

namespace Service

theorem Alike.refl (s : Service γ ε) : Alike s s := ⟨rfl, rfl, rfl, rfl, rfl, rfl, rfl⟩

theorem Alike.runActions (h : Alike s t) (event : Event) (env : ε) (actions : List Action)
    (context : γ) :
    s.runActions event env actions context = t.runActions event env actions context := by
  induction actions generalizing context with
  | nil => rfl
  | cons action actions ih => simp only [Service.runActions, h.executors_eq, ih]

theorem Alike.run (h : Alike s t) (event : Event) (env : ε) (arrival : Arrival) :
    s.run event env arrival = t.run event env arrival := by
  rw [Service.run, Service.run, h.runActions, h.context_eq]

theorem Alike.step (h : Alike s t) (event : Event) (env : ε) :
    s.step event env = t.step event env := by
  simp only [Service.step, h.machine_eq, h.configuration_eq, h.context_eq, h.run]

theorem Alike.restart (h : Alike s t) (env : ε) : s.restart env = t.restart env := by
  simp only [Service.restart, h.machine_eq, h.context_eq, h.run]

theorem Alike.commit (h : Alike s t) (now now' : Instant) (r : StepResult γ) :
    Alike (s.commit now r) (t.commit now' r) := by
  cases r with
  | unchanged event => exact h
  | transitioned event arrival context =>
    refine ⟨h.machine_eq, rfl, rfl, rfl, rfl, h.executors_eq, ?_⟩
    simp only [Service.commit, Journal.push, List.map_append, h.moves_eq, List.map_cons,
      List.map_nil, Move.timeless, h.configuration_eq]

end Service

namespace Session

variable {x y : Session γ ε}

/-- What the owner is told of the deliveries. -/
def answers (x : Session γ ε) (deeds : List (Instant × Deed γ ε)) :
    List (Except ServiceError Bool) :=
  (x.receipts deeds).map Receipt.answer

theorem answers_cons (x : Session γ ε) (d : Instant × Deed γ ε)
    (deeds : List (Instant × Deed γ ε)) : x.answers (d :: deeds) =
      ((x.receipt? d.1 d.2).map Receipt.answer).toList ++ (x.after d.1 d.2).answers deeds := by
  rw [answers, receipts, List.map_append]
  cases x.receipt? d.1 d.2 <;> rfl

/-- Two sessions with the same results, of services that are alike. -/
structure Alike (x y : Session γ ε) : Prop where
  service : x.service.Alike y.service
  produced_eq : x.produced = y.produced

theorem Alike.produce (h : Alike x y) (result : Except ServiceError (StepResult γ)) :
    Alike (x.produce result) (y.produce result) := by
  cases result with
  | error e => exact h
  | ok r => exact ⟨h.service, by simp only [Session.produce, h.produced_eq]⟩

/-- A deed has the same answer in both and leaves them alike, whenever it is done. -/
theorem Alike.after (h : Alike x y) (now now' : Instant) (d : Deed γ ε) :
    Alike (x.after now d) (y.after now' d) ∧
      (x.receipt? now d).map Receipt.answer = (y.receipt? now' d).map Receipt.answer := by
  cases d with
  | register kind executor =>
    refine ⟨⟨?_, h.produced_eq⟩, rfl⟩
    obtain ⟨hs, -⟩ := h
    exact ⟨hs.machine_eq, hs.configuration_eq, hs.value_eq, hs.isDone_eq, hs.context_eq,
      congrArg (fun es => es.insert kind executor) hs.executors_eq, hs.moves_eq⟩
  | step event env =>
    refine ⟨?_, rfl⟩
    rw [Session.after, Session.after, h.service.step]
    exact h.produce _
  | restart env =>
    refine ⟨?_, rfl⟩
    rw [Session.after, Session.after, h.service.restart]
    exact h.produce _
  | commit index =>
    refine ⟨?_, rfl⟩
    rw [Session.after, Session.after, h.produced_eq]
    split
    · rename_i r _
      exact ⟨h.service.commit now now' r, rfl⟩
    · exact h
  | send event env =>
    rw [after_send, after_send, receipt_send, receipt_send, h.service.step]
    refine ⟨?_, rfl⟩
    split
    · rename_i r _
      exact ⟨h.service.commit now now' r, h.produced_eq⟩
    · exact h

/-- The same deeds have the same answers in both and leave them alike, whenever they are done. -/
theorem alike_run (h : Alike x y) {deeds deeds' : List (Instant × Deed γ ε)}
    (hdeeds : deeds.map Prod.snd = deeds'.map Prod.snd) :
    Alike (x.run deeds) (y.run deeds') ∧ x.answers deeds = y.answers deeds' := by
  induction deeds generalizing deeds' x y with
  | nil =>
    obtain rfl := List.map_eq_nil_iff.mp hdeeds.symm
    exact ⟨h, rfl⟩
  | cons d deeds ih =>
    obtain ⟨d', deeds', rfl, hd, hdeeds⟩ := List.map_eq_cons_iff.mp hdeeds.symm
    obtain ⟨hafter, hanswer⟩ := h.after d.1 d'.1 d.2
    obtain ⟨hrun, hanswers⟩ := ih hafter hdeeds.symm
    rw [answers_cons, answers_cons, hd, hanswer, hanswers]
    exact ⟨by simpa only [run, List.foldl_cons, hd] using hrun, rfl⟩

end Session

namespace Service

/-! ## Going on -/

/-- A checkpoint resumes to a service that cannot be told from the one before. For a service that
any deeds have led to, of a machine whose default targets form no circle, it can be resumed exactly
if its configuration is accepted; it has the same configuration, with its history, the same context
and journal, and finds the same value and completion. The executors can be registered again; with
the same executors, however registered, whatever is done with both has the same answers and the same
results and leaves both alike. -/
theorem checkpoint_resumes {d : Description} {guards : Guards γ} {options : Options}
    (hm : d.compile guards options = .ok m) (hdef : m.DefaultsAcyclic) (hs : Reached m s)
    (id : String) (now : Instant) :
    ((∃ r : Service γ ε, ofCheckpoint m (s.checkpoint id now) = .ok r) ↔
        ∃ a, Active.resolve m.toTree m.options.validates s.configuration = .ok a) ∧
      ∀ r : Service γ ε, ofCheckpoint m (s.checkpoint id now) = .ok r →
        (r.configuration = s.configuration ∧ r.context = s.context ∧ r.journal = s.journal ∧
          r.value = s.value ∧ r.isDone = s.isDone) ∧
        (r.registerAll s.executors.toList).executors = s.executors ∧
        ∀ executors, (r.registerAll executors).executors = s.executors →
          ∀ deeds deeds' : List (Instant × Deed γ ε), deeds.map Prod.snd = deeds'.map Prod.snd →
            ((Session.of s).run deeds).Alike ((Session.of (r.registerAll executors)).run deeds') ∧
            (Session.of s).answers deeds =
              (Session.of (r.registerAll executors)).answers deeds' := by
  have hc := Description.wellFormed_of_compile hm
  obtain ⟨a, hshows⟩ := hs.exists_shows hc hdef
  constructor
  · simp only [ofCheckpoint_checkpoint hc hshows]
    exact ⟨fun ⟨_, hresolves, _⟩ => hresolves, fun hresolves => ⟨_, hresolves, rfl⟩⟩
  · intro r hr
    obtain ⟨-, rfl⟩ := (ofCheckpoint_checkpoint hc hshows).mp hr
    refine ⟨⟨rfl, rfl, rfl, rfl, rfl⟩, ?_, fun executors hexecutors deeds deeds' hdeeds => ?_⟩
    · rw [registerAll_eq]
      exact SortedMap.ofList_toList s.executors
    · -- with its executors it is the service before
      have hsame : ({ s with executors := .empty } : Service γ ε).registerAll executors = s := by
        rw [registerAll_eq] at hexecutors ⊢
        exact congrArg (fun es => { s with executors := es }) hexecutors
      rw [hsame]
      exact Session.alike_run ⟨.refl s, rfl⟩ hdeeds

end Service

namespace Machine

/-- The player after the evening: off, with a record of what it was doing. -/
def player.kept : Service Unit Unit := ((Session.of player.service).run player.evening).service

/-- The player can be resumed after the evening, and when it is switched on the next day it is again
as it was. -/
theorem player_resumes : ∃ r : Service Unit Unit,
    Service.ofCheckpoint player (player.kept.checkpoint "evening" ⟨3, 0⟩) = .ok r ∧
      r.configuration = player.off.configuration player.toTree ∧
      ((Session.of (r.registerAll player.kept.executors.toList)).run
        [(⟨86400, 0⟩, .send (.named "POWER") ())]).service.configuration =
          player.again.configuration player.toTree := by
  have hc := Description.wellFormed_of_compile compile_player
  have hdef : player.DefaultsAcyclic := Chart.defaultsAcyclic_of_behaviours hc (by decide +kernel)
  obtain ⟨hresumes, hsame⟩ := Service.checkpoint_resumes compile_player hdef
    (s := player.kept) ⟨(), player.service, start_player, player.evening, rfl⟩ "evening" ⟨3, 0⟩
  obtain ⟨r, hr⟩ := hresumes.mpr ⟨player.off, by decide +kernel⟩
  obtain ⟨⟨hconfiguration, -⟩, hregistered, hgoes⟩ := hsame r hr
  have hoff : player.kept.configuration = player.off.configuration player.toTree := by
    decide +kernel
  have hon : ((Session.of player.kept).run
      [(⟨4, 0⟩, .send (.named "POWER") ())]).service.configuration =
        player.again.configuration player.toTree := by decide +kernel
  obtain ⟨halike, -⟩ := hgoes _ hregistered [(⟨4, 0⟩, .send (.named "POWER") ())]
    [(⟨86400, 0⟩, .send (.named "POWER") ())] rfl
  exact ⟨r, hr, hconfiguration.trans hoff, halike.service.configuration_eq.symm.trans hon⟩

end Machine

end Statechart
