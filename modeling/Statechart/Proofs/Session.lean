/-
# Statechart.Proofs.Session -- everything that can happen to a service

The owner of a service registers executors, makes steps or begins again, commits what these have led
to -- at once, later, several times or never -- and delivers events. A session is the service with
the results produced so far. What holds of the service in the beginning and is kept by registering
and committing holds all the time (`Session.keeps_run`).

So the journal is an unbroken chain of moves, from the initial configuration to the current one,
whatever is committed when; and as long as results are committed only by delivering events, the
moves are those that the interpreter has made for the deliveries (`Service.journal_unbroken`).
-/

import Mathlib.Data.List.Chain
import Mathlib.Data.List.Forall2
import Statechart.Proofs.Run
import Statechart.Service

namespace Statechart

/-! ## Sessions -/

/-- Something that the owner of a service does. -/
inductive Deed (γ ε : Type) where
  | register (kind : String) (executor : Executor γ ε)
  | step (event : Event) (env : ε)
  | restart (env : ε)
  /-- Commits one of the results produced so far. -/
  | commit (index : Nat)
  | send (event : Event) (env : ε)

/-- A service with the results that its steps have produced. -/
structure Session (γ ε : Type) where
  service : Service γ ε
  produced : List (StepResult γ)

/-- What there is to say of a delivery: the service before it, when and which event, and what the
owner was told. -/
structure Receipt (γ ε : Type) where
  service : Service γ ε
  now : Instant
  event : Event
  answer : Except ServiceError Bool

/-- Whether the delivery has moved the machine. -/
def Receipt.moved {γ ε : Type} (r : Receipt γ ε) : Bool :=
  match r.answer with
  | .ok moved => moved
  | .error _ => false

/-- Whether a deed commits a result that has been produced before. -/
def Deed.isCommit {γ ε : Type} : Deed γ ε → Bool
  | .commit _ => true
  | .register _ _ | .step _ _ | .restart _ | .send _ _ => false

namespace Session

variable {γ ε : Type} {x : Session γ ε} {s : Service γ ε} {event : Event} {env : ε} {now : Instant}
  {r : StepResult γ}

/-- The session that begins with a service. -/
def of (s : Service γ ε) : Session γ ε := ⟨s, []⟩

/-- Keeps the result of a step that has succeeded. -/
def produce (x : Session γ ε) : Except ServiceError (StepResult γ) → Session γ ε
  | .ok r => { x with produced := x.produced ++ [r] }
  | .error _ => x

/-- The session after a deed. A delivery that fails leaves the service as it is. -/
def after (x : Session γ ε) (now : Instant) : Deed γ ε → Session γ ε
  | .register kind executor => { x with service := x.service.onAction kind executor }
  | .step event env => x.produce (x.service.step event env)
  | .restart env => x.produce (x.service.restart env)
  | .commit index =>
    match x.produced[index]? with
    | some r => { x with service := x.service.commit now r }
    | none => x
  | .send event env =>
    match x.service.send now event env with
    | .ok (_, s) => { x with service := s }
    | .error _ => x

/-- The session after some deeds, each at its time. -/
def run (x : Session γ ε) (deeds : List (Instant × Deed γ ε)) : Session γ ε :=
  deeds.foldl (fun x d => x.after d.1 d.2) x

/-- The receipt of a deed that delivers an event. -/
def receipt? (x : Session γ ε) (now : Instant) : Deed γ ε → Option (Receipt γ ε)
  | .send event env =>
    some ⟨x.service, now, event, (x.service.send now event env).map Prod.fst⟩
  | .register _ _ | .step _ _ | .restart _ | .commit _ => none

/-- The receipts of all deliveries, in order. -/
def receipts (x : Session γ ε) : List (Instant × Deed γ ε) → List (Receipt γ ε)
  | [] => []
  | d :: deeds => (x.receipt? d.1 d.2).toList ++ (x.after d.1 d.2).receipts deeds

/-! ### What deeds keep -/

/-- Delivering an event is making a step and committing what it has led to. -/
theorem after_send : x.after now (.send event env) =
    match x.service.step event env with
    | .ok r => { x with service := x.service.commit now r }
    | .error _ => x := by
  simp only [after, Service.send]
  rcases x.service.step event env with e | r
  · rfl
  · cases r <;> rfl

theorem receipt_send : x.receipt? now (.send event env) =
    some ⟨x.service, now, event, (x.service.step event env).map (fun r =>
      match r with
      | .transitioned _ _ _ => true
      | .unchanged _ => false)⟩ := by
  simp only [receipt?, Service.send]
  rcases x.service.step event env with e | r
  · rfl
  · cases r <;> rfl

/-- A property of services that registering and committing keep, together with one of all results
that are produced meanwhile. -/
structure Keeps (I : Service γ ε → Prop) (P : StepResult γ → Prop) : Prop where
  register : ∀ {s} kind executor, I s → I (s.onAction kind executor)
  step : ∀ {s event env r}, I s → s.step event env = .ok r → P r
  restart : ∀ {s env r}, I s → s.restart env = .ok r → P r
  commit : ∀ {s r} now, I s → P r → I (s.commit now r)

variable {I : Service γ ε → Prop} {P : StepResult γ → Prop}

theorem keeps_produce {result : Except ServiceError (StepResult γ)} (hx : ∀ r ∈ x.produced, P r)
    (hresult : ∀ r, result = .ok r → P r) : ∀ r ∈ (x.produce result).produced, P r := by
  cases result with
  | error e => exact hx
  | ok r => exact List.forall_mem_append.mpr ⟨hx, by simpa using hresult r rfl⟩

theorem service_produce {result : Except ServiceError (StepResult γ)} :
    (x.produce result).service = x.service := by
  cases result <;> rfl

theorem keeps_after (hkeeps : Keeps I P) (hs : I x.service) (hx : ∀ r ∈ x.produced, P r)
    (now : Instant) (d : Deed γ ε) :
    I (x.after now d).service ∧ ∀ r ∈ (x.after now d).produced, P r := by
  cases d with
  | register kind executor => exact ⟨hkeeps.register kind executor hs, hx⟩
  | step event env =>
    rw [after, service_produce]
    exact ⟨hs, keeps_produce hx fun r hr => hkeeps.step hs hr⟩
  | restart env =>
    rw [after, service_produce]
    exact ⟨hs, keeps_produce hx fun r hr => hkeeps.restart hs hr⟩
  | commit index =>
    rw [after]
    split
    · rename_i r hr
      exact ⟨hkeeps.commit now hs (hx r (List.mem_of_getElem? hr)), hx⟩
    · exact ⟨hs, hx⟩
  | send event env =>
    rw [after_send]
    split
    · rename_i r hr
      exact ⟨hkeeps.commit now hs (hkeeps.step hs hr), hx⟩
    · exact ⟨hs, hx⟩

/-- What holds of a service and is kept by registering and by committing what its steps produce
holds all the time. -/
theorem keeps_run (hkeeps : Keeps I P) (hs : I s) (deeds : List (Instant × Deed γ ε)) :
    I ((of s).run deeds).service ∧ ∀ r ∈ ((of s).run deeds).produced, P r := by
  have key : ∀ (deeds : List (Instant × Deed γ ε)) (x : Session γ ε), I x.service →
      (∀ r ∈ x.produced, P r) →
      I (x.run deeds).service ∧ ∀ r ∈ (x.run deeds).produced, P r := by
    intro deeds
    induction deeds with
    | nil => exact fun x hs hx => ⟨hs, hx⟩
    | cons d deeds ih =>
      intro x hs hx
      obtain ⟨hs', hx'⟩ := keeps_after hkeeps hs hx d.1 d.2
      exact ih (x.after d.1 d.2) hs' hx'
  exact key deeds (of s) hs fun r hr => absurd hr List.not_mem_nil

end Session

/-! ## Unbroken journals -/

/-- The moves lead from one configuration to another, each from where the one before it has led. -/
structure Journal.Unbroken (j : Journal) (first last : Configuration) : Prop where
  linked : j.moves.IsChain (fun x y => x.after = y.before)
  first_eq : ∀ x ∈ j.moves.head?, x.before = first
  last_eq : ∀ x ∈ j.moves.getLast?, x.after = last
  still : j.moves = [] → first = last

namespace Journal

variable {j : Journal} {first last : Configuration} {x : Move}

theorem unbroken_empty : Journal.empty.Unbroken first first where
  linked := .nil
  first_eq := fun x hx => by cases hx
  last_eq := fun x hx => by cases hx
  still := fun _ => rfl

theorem Unbroken.snoc (h : j.Unbroken first last) (hx : x.before = last) :
    (j.push x).Unbroken first x.after where
  linked := by
    refine List.isChain_append.mpr ⟨h.linked, .singleton x, fun y hy z hz => ?_⟩
    cases hz
    exact (h.last_eq y hy).trans hx.symm
  first_eq := by
    intro y hy
    cases hmoves : j.moves with
    | nil =>
      rw [push, hmoves] at hy
      cases hy
      exact hx.trans (h.still hmoves).symm
    | cons z moves =>
      rw [push, hmoves] at hy
      exact h.first_eq y (by rw [hmoves]; exact hy)
  last_eq := by
    intro y hy
    rw [push, List.getLast?_concat] at hy
    cases hy
    rfl
  still := fun hnone => absurd hnone (List.append_ne_nil_of_right_ne_nil _ (List.cons_ne_nil x []))

theorem length_path (h : j.moves ≠ []) : j.path.length = j.moves.length + 1 := by
  unfold path
  split
  · contradiction
  · rw [List.length_cons, List.length_map]

end Journal

namespace Service

variable {γ ε : Type} {m : Machine γ} {s : Service γ ε} {context context' : γ} {event e : Event}
  {env : ε} {now : Instant} {arrival : Arrival}

/-! ## Steps -/

theorem start?_eq_ok : start? m context = .ok s ↔ ∃ arrival,
    m.initialState context = .ok arrival ∧
      s = ⟨m, arrival.configuration, arrival.value, arrival.isDone, context, .empty, .empty⟩ := by
  constructor
  · intro h
    obtain ⟨arrival, harrival, hs⟩ := bind_eq_ok.mp h
    cases hs
    exact ⟨arrival, harrival, rfl⟩
  · rintro ⟨arrival, harrival, rfl⟩
    exact bind_eq_ok.mpr ⟨arrival, harrival, rfl⟩

/-- Carrying out the actions of an arrival changes nothing about it. -/
theorem run_eq_ok {r : StepResult γ} : s.run event env arrival = .ok r ↔
    ∃ context, s.runActions event env arrival.actions s.context = .ok context ∧
      r = .transitioned event arrival context := by
  unfold run
  cases s.runActions event env arrival.actions s.context with
  | error e => simp
  | ok context => simp [eq_comm]

/-- A step is a transition whose actions have been carried out. -/
theorem step_eq_ok {r : StepResult γ} : s.step event env = .ok r ↔
    s.machine.transition s.configuration s.context event = .ok .unchanged ∧ r = .unchanged event ∨
      ∃ arrival, s.machine.transition s.configuration s.context event =
        .ok (.transitioned arrival) ∧ s.run event env arrival = .ok r := by
  unfold step
  rcases s.machine.transition s.configuration s.context event with e | arrival | _
  · simp
  · simp
  · simp [eq_comm]

/-- So is beginning again, with an initial call in place of the transition. -/
theorem restart_eq_ok {r : StepResult γ} : s.restart env = .ok r ↔
    ∃ arrival, s.machine.initialState s.context = .ok arrival ∧
      s.run initEvent env arrival = .ok r := by
  unfold restart
  cases s.machine.initialState s.context <;> simp

/-- Every move starts from the current configuration and leads to the next. -/
theorem keeps_unbroken (first : Configuration) : Session.Keeps (γ := γ) (ε := ε)
    (fun s => s.journal.Unbroken first s.configuration) (fun _ => True) where
  register := fun _ _ h => h
  step := fun _ _ => trivial
  restart := fun _ _ => trivial
  commit := by
    intro s r now h _
    cases r with
    | unchanged e => exact h
    | transitioned e arrival context => exact h.snoc rfl

theorem keeps_machine (m : Machine γ) : Session.Keeps (γ := γ) (ε := ε)
    (fun s => s.machine = m) (fun _ => True) where
  register := fun _ _ h => h
  step := fun _ _ => trivial
  restart := fun _ _ => trivial
  commit := by
    intro s r now h _
    cases r <;> exact h

/-! ## Deliveries -/

/-- A move is what the interpreter has made of a delivery, in the configuration and the context that
the service had. -/
structure Explains (m : Machine γ) (r : Receipt γ ε) (x : Move) : Prop where
  before_eq : x.before = r.service.configuration
  event_eq : x.event = r.event.name
  instant_eq : x.instant = r.now
  arrival : ∃ arrival, m.transition x.before r.service.context r.event =
      .ok (.transitioned arrival) ∧
    x.after = arrival.configuration ∧ x.microsteps = arrival.microsteps

/-- A deed other than committing a result adds the move of a delivery that has moved the machine,
and nothing else. -/
theorem moves_after {x : Session γ ε} {d : Deed γ ε} (hd : d.isCommit = false) (now : Instant) :
    ∃ moves, (x.after now d).service.journal.moves = x.service.journal.moves ++ moves ∧
      List.Forall₂ (Explains x.service.machine) ((x.receipt? now d).toList.filter Receipt.moved)
        moves := by
  cases d with
  | register kind executor => exact ⟨[], (List.append_nil _).symm, .nil⟩
  | step event env =>
    exact ⟨[], by rw [Session.after, Session.service_produce, List.append_nil], .nil⟩
  | restart env =>
    exact ⟨[], by rw [Session.after, Session.service_produce, List.append_nil], .nil⟩
  | commit index => cases hd
  | send event env =>
    rw [Session.after_send, Session.receipt_send]
    cases hstep : x.service.step event env with
    | error e => exact ⟨[], (List.append_nil _).symm, .nil⟩
    | ok r =>
      rcases step_eq_ok.mp hstep with ⟨-, rfl⟩ | ⟨arrival, htransition, hrun⟩
      · exact ⟨[], (List.append_nil _).symm, .nil⟩
      · obtain ⟨context, -, rfl⟩ := run_eq_ok.mp hrun
        exact ⟨[_], rfl, .cons ⟨rfl, rfl, rfl, arrival, htransition, rfl, rfl⟩ .nil⟩

theorem moves_run {x : Session γ ε} {deeds : List (Instant × Deed γ ε)}
    (hdeeds : ∀ d ∈ deeds, d.2.isCommit = false) :
    ∃ moves, (x.run deeds).service.journal.moves = x.service.journal.moves ++ moves ∧
      List.Forall₂ (Explains x.service.machine) ((x.receipts deeds).filter Receipt.moved)
        moves := by
  induction deeds generalizing x with
  | nil => exact ⟨[], (List.append_nil _).symm, .nil⟩
  | cons d deeds ih =>
    obtain ⟨hd, hdeeds⟩ := List.forall_mem_cons.mp hdeeds
    obtain ⟨first, hfirst, hmatch⟩ := moves_after (x := x) hd d.1
    obtain ⟨others, hothers, hmatches⟩ := ih (x := x.after d.1 d.2) hdeeds
    have hmachine : (x.after d.1 d.2).service.machine = x.service.machine :=
      (Session.keeps_after (keeps_machine _) rfl (fun _ _ => trivial) d.1 d.2).1
    rw [hmachine] at hmatches
    refine ⟨first ++ others, ?_, ?_⟩
    · rw [← List.append_assoc, ← hfirst]
      exact hothers
    · rw [Session.receipts, List.filter_append]
      exact List.rel_append hmatch hmatches

/-- The journal of a service is an unbroken chain of moves, from the configuration that its machine
begins with to the current one, whatever is done with the service. Its path has one configuration
more than there are moves. And as long as results are committed by delivering events only, there is
one move for each delivery that has moved the machine, in order: what the interpreter makes of the
event in the configuration from which the move leads and the context at that time. -/
theorem journal_unbroken (hs : start? m context = .ok s) (deeds : List (Instant × Deed γ ε)) :
    (∃ arrival, m.initialState context = .ok arrival ∧
        ((Session.of s).run deeds).service.journal.Unbroken arrival.configuration
          ((Session.of s).run deeds).service.configuration) ∧
      (((Session.of s).run deeds).service.journal.moves ≠ [] →
        ((Session.of s).run deeds).service.journal.path.length =
          ((Session.of s).run deeds).service.journal.moves.length + 1) ∧
      ((∀ d ∈ deeds, d.2.isCommit = false) →
        List.Forall₂ (Explains m) (((Session.of s).receipts deeds).filter Receipt.moved)
          ((Session.of s).run deeds).service.journal.moves) := by
  obtain ⟨arrival, harrival, rfl⟩ := start?_eq_ok.mp hs
  refine ⟨⟨arrival, harrival, ?_⟩, Journal.length_path, fun hdeeds => ?_⟩
  · exact (Session.keeps_run (keeps_unbroken _) Journal.unbroken_empty deeds).1
  · obtain ⟨moves, hmoves, hmatches⟩ := moves_run (x := Session.of _) hdeeds
    rw [hmoves]
    exact hmatches

end Service

/-! ### A session with the player -/

namespace Machine

def player.start : Arrival :=
  player.arrival ⟨player.begun, player.initialStep.actions, 1⟩

theorem initialState_player : player.initialState () = .ok player.start :=
  initialState_eq_ok.mpr ⟨_, by decide +kernel, rfl⟩

/-- The player as a service of which nothing is known but its context. -/
def player.service : Service Unit Unit :=
  ⟨player, player.start.configuration, player.start.value, player.start.isDone, (), .empty, .empty⟩

theorem start_player : Service.start? player () = .ok player.service :=
  Service.start?_eq_ok.mpr ⟨_, initialState_player, rfl⟩

/-- The player is switched off between turning it up and committing that. -/
def player.late : List (Instant × Deed Unit Unit) :=
  [(⟨0, 0⟩, .step (.named "UP") ()), (⟨1, 0⟩, .send (.named "POWER") ()), (⟨2, 0⟩, .commit 0)]

/-- The player is turned up, sent something that it does not know, and switched off. -/
def player.evening : List (Instant × Deed Unit Unit) :=
  [(⟨0, 0⟩, .send (.named "UP") ()), (⟨1, 0⟩, .send (.named "EJECT") ()),
    (⟨2, 0⟩, .send (.named "POWER") ())]

/-- When turning up is committed late the move leads from off to loud, and the chain is not broken.
In the evening the moves are those of the first delivery and the last. -/
theorem player_journal :
    ((Session.of player.service).run player.late).service.journal.Unbroken
        player.start.configuration (player.loud.configuration player.toTree) ∧
      ((Session.of player.service).run player.late).service.journal.path.length = 3 ∧
      ((Session.of player.service).receipts player.evening).map Receipt.moved =
        [true, false, true] ∧
      List.Forall₂ (Service.Explains player)
        (((Session.of player.service).receipts player.evening).filter Receipt.moved)
        ((Session.of player.service).run player.evening).service.journal.moves := by
  obtain ⟨⟨arrival, harrival, hunbroken⟩, hpath, -⟩ :=
    Service.journal_unbroken start_player player.late
  obtain ⟨-, -, hmoves⟩ := Service.journal_unbroken start_player player.evening
  rw [initialState_player] at harrival
  obtain rfl := Except.ok.inj harrival
  have hloud : ((Session.of player.service).run player.late).service.configuration =
      player.loud.configuration player.toTree := by decide +kernel
  have hlength :
      ((Session.of player.service).run player.late).service.journal.moves.length = 2 := by
    decide +kernel
  refine ⟨hloud ▸ hunbroken, ?_, by decide +kernel, hmoves (by decide +kernel)⟩
  rw [hpath (List.ne_nil_of_length_pos (by rw [hlength]; decide)), hlength]

end Machine

end Statechart
