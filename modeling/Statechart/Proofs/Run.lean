/-
# Statechart.Proofs.Run -- everything that can happen to a machine

A run begins with the initial microstep. It goes on with a microstep for the first waiting event
that fires something, and once the machine has settled, with a configuration that is handed out and
passed in again, in another context, and a microstep for an event from outside. `Machine.Run` keeps
account of what a run has been through; what holds in the beginning and is kept by each of these
steps holds all the time (`Run.invariant`). How many microsteps a call may take plays no part, so
every configuration that calls return is that of some settled run (`exists_run_of_returns`).
-/

import Statechart.Proofs.Active.RoundTrip
import Statechart.Proofs.Step.Preservation
import Statechart.Proofs.Step.Selection

namespace Statechart

variable {γ : Type} {m : Machine γ} {a b : Active} {context : γ} {event : Event}
  {transitions : List Transition} {waiting rest : List Event}

namespace Machine

/-! ## Firing what is selected -/

/-- Some event, in some context, fires certain transitions. -/
def Selects (m : Machine γ) (a : Active) (transitions : List Transition) : Prop :=
  ∃ context event, m.select a context event = .ok transitions

theorem selects_of_firstHandled
    (h : m.firstHandled a context waiting = .ok (some (transitions, rest))) :
    m.Selects a transitions := by
  induction waiting with
  | nil => cases h
  | cons event waiting ih =>
    rw [firstHandled] at h
    cases hs : m.select a context event with
    | error f =>
      rw [hs] at h
      cases h
    | ok fired =>
      rw [hs] at h
      cases fired with
      | nil => exact ih h
      | cons r rs =>
        cases h
        exact ⟨context, event, hs⟩

/-- The targets of some transitions can be followed to an end once these have been left. -/
def Followable (m : Machine γ) (a : Active) (transitions : List Transition) : Prop :=
  ∀ r ∈ transitions, ∀ x ∈ r.targets, m.Grounded (m.left a transitions) m.size x

section

variable (hc : m.WellFormed)
include hc

theorem followable_of_acyclic (ha : m.Sound a) (hacyclic : m.Acyclic a)
    (transitions : List Transition) : m.Followable a transitions := by
  have hleft := Chart.acyclic_left hc (fun _ hn => ha.not_history hn) hacyclic transitions
  exact fun r _ x _ => hc.grounded_of_acyclic hleft x

theorem followable_of_defaults (hdef : m.DefaultsAcyclic) (ha : m.Sound a)
    (hrec : m.RecordsFrom m.Sound a) (transitions : List Transition) :
    m.Followable a transitions := by
  have hstates := hrec.states fun _ hb => hb
  exact followable_of_acyclic hc ha (hc.acyclic_of_defaults hstates hdef) transitions

/-- Something is active below a domain, unless nothing but the root is active at all. -/
theorem exists_below_domain (ha : m.Sound a) {r : Transition} {d : Nat} (hd : m.Domain r d)
    (hr : r.source ∈ a) : (∃ n ∈ a, m.Below n d) ∨ ∀ n ∈ a, n = Tree.root := by
  have hda := ha.mem_of_within hc hr (hd.source_within hc)
  -- a domain that is neither compound nor parallel is the root, and then the only state
  by_cases hk : m.kind d = .compound ∨ m.kind d = .parallel
  · obtain ⟨q, hq, hqa⟩ := ha.exists_region hda hk
    exact Or.inl ⟨q, hqa, hc.inOrder.below_child (Tree.region_child hq)⟩
  · rw [not_or] at hk
    have hroot := hd.compound_or_root.resolve_left hk.1
    subst hroot
    refine Or.inr fun n hn => ?_
    by_contra hne
    obtain ⟨q, hq, -⟩ := hc.inOrder.exists_child_within
      (hc.inOrder.below_root (ha.lt_size hn) hne)
    rw [hc.children_eq_nil hk.1 hk.2] at hq
    exact List.not_mem_nil hq

/-- What is selected are choices of leaves, of which no two would leave a state in common. -/
theorem choices_of_select (hlt : ∀ n ∈ a, n < m.size)
    (h : m.select a context event = .ok transitions) :
    (∀ r ∈ transitions, ∃ l ∈ a.leaves m.toTree, m.Chooses a context event l r) ∧
      transitions.Pairwise (fun r s => ¬ m.Conflict a r s ∧ r ≠ s) := by
  rcases select_cases hc hlt context event with ⟨f, l, herr, -⟩ | ⟨chosen, kept, hok, hg, harb⟩
  · rw [herr] at h
    cases h
  · rw [hok] at h
    cases h
    have hearlier := hg.earlier.sublist harb.sublist
    refine ⟨fun r hr => hg.chosen_by r (harb.sublist.subset hr), ?_⟩
    exact harb.disjoint.and (hearlier.imp fun hrs => hrs.ne)

theorem declares_of_selects (hlt : ∀ n ∈ a, n < m.size) (h : m.Selects a transitions) :
    ∀ r ∈ transitions, m.Declares r := by
  obtain ⟨context, event, hs⟩ := h
  intro r hr
  obtain ⟨l, hl, hcl⟩ := (choices_of_select hc hlt hs).1 r hr
  exact hcl.declares hc (hlt l (Chart.mem_leaves.mp hl).1)

/-- What is selected in a sound set can be fired together. -/
theorem firable_of_selects (ha : m.Sound a) (h : m.Selects a transitions)
    (hfollow : m.Followable a transitions) : m.Firable a transitions := by
  have hlt : ∀ n ∈ a, n < m.size := fun n hn => ha.lt_size hn
  have hdeclared := declares_of_selects hc hlt h
  obtain ⟨context, event, hs⟩ := h
  obtain ⟨hby, hdisjoint⟩ := choices_of_select hc hlt hs
  have hsource : ∀ r ∈ transitions, r.source ∈ a := by
    intro r hr
    obtain ⟨l, hl, hcl⟩ := hby r hr
    exact ha.mem_of_within hc (Chart.mem_leaves.mp hl).1 (hcl.mem hc).1
  refine ⟨hdeclared, hsource, hdisjoint.imp_of_mem ?_, hfollow⟩
  rintro r s hr hs ⟨hdisjoint, hne⟩
  by_cases halone : ∀ n ∈ a, n = Tree.root
  · -- then the root is the only leaf, and both are its choice
    obtain ⟨l, hl, hcl⟩ := hby r hr
    obtain ⟨l', hl', hcl'⟩ := hby s hs
    rw [halone l (Chart.mem_leaves.mp hl).1] at hcl
    rw [halone l' (Chart.mem_leaves.mp hl').1] at hcl'
    exact absurd (hcl.unique hcl') hne
  · refine Chart.apart_of_exits hc (fun n hnr hns => hdisjoint ⟨n, hnr, hns⟩) ?_ ?_
    · exact fun d hd => (exists_below_domain hc ha hd (hsource r hr)).resolve_right halone
    · exact fun d hd => (exists_below_domain hc ha hd (hsource s hs)).resolve_right halone

end

/-! ## Runs -/

/-- Where a run is: what is active, which events wait, and the context of the current call. -/
structure Moment (γ : Type) where
  active : Active
  waiting : List Event
  context : γ

/-- Something that a run has been through. -/
inductive Stage where
  /-- Some transitions have been fired. -/
  | fired (before : Active) (transitions : List Transition)
  /-- A configuration has been handed out and passed in again. -/
  | reloaded (before : Active)

/-- What was active before. -/
def Stage.before : Stage → Active
  | fired before _ | reloaded before => before

/-- None of the waiting events fires anything. -/
def Settled (m : Machine γ) (x : Moment γ) : Prop :=
  m.firstHandled x.active x.context x.waiting = .ok none

/-- The runs of a machine, with the latest stage first. -/
inductive Run (m : Machine γ) : List Stage → Moment γ → Prop
  | begin (context : γ) : Run m [] ⟨m.initialStep.active, m.initialStep.raised, context⟩
  | internal {trace : List Stage} {x : Moment γ} {transitions : List Transition}
      {rest : List Event} : Run m trace x →
      m.firstHandled x.active x.context x.waiting = .ok (some (transitions, rest)) →
      Run m (.fired x.active transitions :: trace)
        ⟨(m.microstep x.active transitions).active,
          rest ++ (m.microstep x.active transitions).raised, x.context⟩
  | reload {trace : List Stage} {x : Moment γ} {a : Active} (context : γ) : Run m trace x →
      m.Settled x → m.resolve (x.active.configuration m.toTree) = .ok a →
      Run m (.reloaded x.active :: trace) ⟨a, [], context⟩
  | external {trace : List Stage} {before : Active} {x : Moment γ} {r : Transition}
      {rs : List Transition} (event : Event) : Run m (.reloaded before :: trace) x →
      m.select x.active x.context event = .ok (r :: rs) →
      Run m (.fired x.active (r :: rs) :: .reloaded before :: trace)
        ⟨(m.microstep x.active (r :: rs)).active, (m.microstep x.active (r :: rs)).raised,
          x.context⟩

section

variable {trace : List Stage} {x : Moment γ} {I : Active → Prop}

/-- What holds in the beginning and is kept by each step holds all the time, as long as the
transitions fired are of the kind for which it is kept. -/
theorem Run.invariant {F : Active → List Transition → Prop} (hbegin : I m.initialStep.active)
    (hfire : ∀ a transitions, I a → m.Selects a transitions → F a transitions →
      I (m.microstep a transitions).active)
    (hreload : ∀ a b, I a → m.resolve (a.configuration m.toTree) = .ok b → I b)
    (h : m.Run trace x)
    (hF : ∀ a transitions, .fired a transitions ∈ trace → I a → F a transitions) :
    I x.active ∧ ∀ s ∈ trace, I s.before := by
  induction h with
  | begin context => exact ⟨hbegin, by simp⟩
  | internal _ hhandled ih =>
    obtain ⟨hx, htrace⟩ := ih fun a ts ha => hF a ts (List.mem_cons_of_mem _ ha)
    exact ⟨hfire _ _ hx (selects_of_firstHandled hhandled) (hF _ _ List.mem_cons_self hx),
      List.forall_mem_cons.mpr ⟨hx, htrace⟩⟩
  | reload context _ _ hres ih =>
    obtain ⟨hx, htrace⟩ := ih fun a ts ha => hF a ts (List.mem_cons_of_mem _ ha)
    exact ⟨hreload _ _ hx hres, List.forall_mem_cons.mpr ⟨hx, htrace⟩⟩
  | external event _ hs ih =>
    obtain ⟨hx, htrace⟩ := ih fun a ts ha => hF a ts (List.mem_cons_of_mem _ ha)
    exact ⟨hfire _ _ hx ⟨_, event, hs⟩ (hF _ _ List.mem_cons_self hx),
      List.forall_mem_cons.mpr ⟨hx, htrace⟩⟩

/-- What is accepted is what there would be without checking. -/
theorem unchecked_of_resolve {configuration : Configuration} (h : m.resolve configuration = .ok a) :
    Active.resolve m.toTree false configuration = .ok a := by
  rw [resolve_eq_ok] at h
  cases hv : m.options.validates with
  | true => exact Active.resolve_unchecked (hv ▸ h)
  | false => exact hv ▸ h

/-- What is accepted with checking is accepted in any case. -/
theorem resolve_of_checked {configuration : Configuration}
    (h : Active.resolve m.toTree true configuration = .ok a) : m.resolve configuration = .ok a := by
  rw [resolve_eq_ok]
  cases m.options.validates with
  | true => exact h
  | false => exact Active.resolve_unchecked h

/-- A sound set that is handed out and passed in again comes back as it was. -/
theorem eq_of_reload (hc : m.WellFormed) (ha : m.Sound a) (hrec : m.RecordsFrom m.Sound a)
    (h : m.resolve (a.configuration m.toTree) = .ok b) : b = a := by
  have hres := resolve_eq_ok.mp h
  rw [hc.resolve_configuration ha (hrec.inside hc fun _ hb => hb)] at hres
  split at hres
  · split at hres
    · cases hres
    · exact (Except.ok.inj hres).symm
  · exact (Except.ok.inj hres).symm

/-- While all targets can be followed to an end, every set is sound and every record one of a sound
set. -/
theorem Run.sound (hc : m.WellFormed) (h : m.Run trace x)
    (hfollow : ∀ a transitions, .fired a transitions ∈ trace →
      m.Sound a ∧ m.RecordsFrom m.Sound a → m.Followable a transitions) :
    (m.Sound x.active ∧ m.RecordsFrom m.Sound x.active) ∧
      ∀ s ∈ trace, m.Sound s.before ∧ m.RecordsFrom m.Sound s.before := by
  refine h.invariant (I := fun a => m.Sound a ∧ m.RecordsFrom m.Sound a) ?_ ?_ ?_ hfollow
  · exact ⟨(Chart.initialStep_legal hc).sound hc, Chart.recordsFrom_initialStep _⟩
  · intro a transitions ⟨ha, hrec⟩ hs hF
    exact ⟨Chart.microstep_sound hc ha (hrec.inside hc fun _ hb => hb)
        (firable_of_selects hc ha hs hF),
      Chart.recordsFrom_microstep hc ha hrec transitions⟩
  · intro a b ⟨ha, hrec⟩ hres
    rw [eq_of_reload hc ha hrec hres]
    exact ⟨ha, hrec⟩

/-- So it is where default targets form no circle. -/
theorem Run.sound_of_acyclic (hc : m.WellFormed) (hdef : m.DefaultsAcyclic) (h : m.Run trace x) :
    (m.Sound x.active ∧ m.RecordsFrom m.Sound x.active) ∧
      ∀ s ∈ trace, m.Sound s.before ∧ m.RecordsFrom m.Sound s.before :=
  h.sound hc fun _ transitions _ hI => followable_of_defaults hc hdef hI.1 hI.2 transitions

/-- Then all targets can be followed to an end. -/
theorem Run.followable (hc : m.WellFormed) (hdef : m.DefaultsAcyclic) (h : m.Run trace x) :
    ∀ a transitions, .fired a transitions ∈ trace → m.Followable a transitions := by
  intro a transitions hmem
  obtain ⟨ha, hrec⟩ := (h.sound_of_acyclic hc hdef).2 _ hmem
  exact followable_of_defaults hc hdef ha hrec transitions

end

/-! ## What calls return -/

/-- The configurations that calls return, each call with the configuration of the one before. -/
inductive Returns (m : Machine γ) : Configuration → Prop
  | initial {context : γ} {arrival : Arrival} : m.initialState context = .ok arrival →
      Returns m arrival.configuration
  | transition {configuration : Configuration} {context : γ} {event : Event}
      {arrival : Arrival} : Returns m configuration →
      m.transition configuration context event = .ok (.transitioned arrival) →
      Returns m arrival.configuration

/-- A call that settles takes its run to where nothing waits. -/
theorem exists_run_of_settle {allowed : Nat} {p q : Progress} {trace : List Stage}
    (h : m.settle context allowed p waiting = .ok q)
    (hrun : m.Run trace ⟨p.active, waiting, context⟩) :
    ∃ trace' x, m.Run trace' x ∧ m.Settled x ∧ x.active = q.active := by
  -- each microstep of the call makes the run one stage longer
  induction allowed generalizing p waiting trace with
  | zero =>
    rw [settle] at h
    split at h
    · cases h
    · rename_i hhandled
      cases h
      exact ⟨trace, _, hrun, hhandled, rfl⟩
    · cases h
  | succ allowed ih =>
    rw [settle] at h
    split at h
    · cases h
    · rename_i hhandled
      cases h
      exact ⟨trace, _, hrun, hhandled, rfl⟩
    · rename_i transitions rest hhandled
      exact ih h (hrun.internal hhandled)

/-- An initial call goes through once what the machine begins with has settled. -/
theorem initialState_eq_ok {arrival : Arrival} : m.initialState context = .ok arrival ↔
    ∃ q, m.begin context = .ok q ∧ arrival = m.arrival q := by
  unfold initialState
  cases m.begin context with
  | error f => simp [Except.map]
  | ok q => simp [Except.map, eq_comm]

/-- Reacting to an event is firing what it selects and settling. -/
theorem react_eq_some {q : Progress} (h : m.react a context event = .ok (some q)) :
    ∃ r rs allowed, m.select a context event = .ok (r :: rs) ∧
      m.settle context allowed (m.advance ⟨a, [], 0⟩ (r :: rs)).1
        (m.advance ⟨a, [], 0⟩ (r :: rs)).2 = .ok q := by
  unfold react at h
  split at h
  · cases h
  · cases h
  · rename_i r rs hs
    split at h
    · cases h
    · rename_i allowed _
      refine ⟨r, rs, allowed, hs, ?_⟩
      cases hsettle : m.settle context allowed (m.advance ⟨a, [], 0⟩ (r :: rs)).1
          (m.advance ⟨a, [], 0⟩ (r :: rs)).2 with
      | error f => simp [hsettle, Except.map] at h
      | ok q' => simpa [hsettle, Except.map] using h

theorem react_eq_none : m.react a context event = .ok none ↔
    m.select a context event = .ok [] := by
  constructor
  · intro h
    unfold react at h
    split at h
    · cases h
    · assumption
    · split at h
      · cases h
      · rename_i r rs _ _ allowed _
        cases hsettle : m.settle context allowed (m.advance ⟨a, [], 0⟩ (r :: rs)).1
          (m.advance ⟨a, [], 0⟩ (r :: rs)).2 <;> simp [hsettle, Except.map] at h
  · intro h
    rw [react, h]

/-- The call that goes through has resolved the configuration passed in and reacted to the event. -/
theorem transition_eq_ok {configuration : Configuration} {arrival : Arrival} :
    m.transition configuration context event = .ok (.transitioned arrival) ↔
      ∃ a q, m.resolve configuration = .ok a ∧ m.react a context event = .ok (some q) ∧
        arrival = m.arrival q := by
  unfold transition
  rw [bind_eq_ok]
  refine exists_congr fun a => ?_
  rw [bind_eq_ok]
  constructor
  · rintro ⟨hres, outcome, hreact, hok⟩
    cases outcome with
    | none => cases hok
    | some q => exact ⟨q, hres, hreact, (Outcome.transitioned.inj (Except.ok.inj hok)).symm⟩
  · rintro ⟨q, hres, hreact, rfl⟩
    exact ⟨hres, some q, hreact, rfl⟩

/-- A call leaves things unchanged exactly if what the configuration describes selects nothing. -/
theorem transition_eq_unchanged {configuration : Configuration} :
    m.transition configuration context event = .ok .unchanged ↔
      ∃ a, m.resolve configuration = .ok a ∧ m.select a context event = .ok [] := by
  unfold transition
  rw [bind_eq_ok]
  refine exists_congr fun a => and_congr_right fun _ => ?_
  rw [← react_eq_none, bind_eq_ok]
  constructor
  · rintro ⟨outcome, hreact, hok⟩
    cases outcome with
    | none => exact hreact
    | some q => cases hok
  · exact fun hreact => ⟨none, hreact, rfl⟩

/-- A configuration that is returned is that of a settled run. -/
theorem exists_run_of_returns {configuration : Configuration} (h : m.Returns configuration) :
    ∃ trace x, m.Run trace x ∧ m.Settled x ∧ configuration = x.active.configuration m.toTree := by
  induction h with
  | @initial context arrival hcall =>
    obtain ⟨q, hbegin, rfl⟩ := initialState_eq_ok.mp hcall
    have hsettle : m.settle context (m.options.maxMicrosteps - 1) ⟨m.initialStep.active,
        m.initialStep.actions, 1⟩ m.initialStep.raised = .ok q := hbegin
    obtain ⟨trace, x, hrun, hsettled, heq⟩ := exists_run_of_settle hsettle (Run.begin context)
    exact ⟨trace, x, hrun, hsettled, by rw [heq]; rfl⟩
  | @transition configuration context event arrival _ hcall ih =>
    obtain ⟨trace, x, hrun, hsettled, rfl⟩ := ih
    obtain ⟨a, q, hres, hreact, rfl⟩ := transition_eq_ok.mp hcall
    obtain ⟨r, rs, allowed, hs, hsettle⟩ := react_eq_some hreact
    have hfired : m.Run (.fired a (r :: rs) :: .reloaded x.active :: trace)
        ⟨(m.microstep a (r :: rs)).active, (m.microstep a (r :: rs)).raised, context⟩ :=
      (hrun.reload context hsettled hres).external event hs
    obtain ⟨trace', x', hrun', hsettled', heq⟩ := exists_run_of_settle hsettle hfired
    exact ⟨trace', x', hrun', hsettled', by rw [heq]; rfl⟩

/-! ## How calls fail -/

theorem firstHandled_error {f : Failure} (h : m.firstHandled a context waiting = .error f) :
    ∃ event, m.select a context event = .error f := by
  induction waiting with
  | nil => cases h
  | cons event waiting ih =>
    rw [firstHandled] at h
    cases hs : m.select a context event with
    | error f' =>
      rw [hs] at h
      cases h
      exact ⟨event, hs⟩
    | ok fired =>
      rw [hs] at h
      cases fired with
      | nil => exact ih h
      | cons r rs => cases h

/-- Handling waiting events refuses no configuration. -/
theorem settle_error {allowed : Nat} {p : Progress} {f : Failure}
    (h : m.settle context allowed p waiting = .error f) (cause : ConfigurationError) :
    f ≠ .invalidConfiguration cause := by
  have hselect : ∀ {p : Progress} {waiting},
      m.firstHandled p.active context waiting = .error f → f ≠ .invalidConfiguration cause := by
    intro p waiting hhandled
    obtain ⟨event, hs⟩ := firstHandled_error hhandled
    obtain ⟨guard, state, cause', rfl⟩ := select_error hs
    exact fun e => by cases e
  induction allowed generalizing p waiting with
  | zero =>
    rw [settle] at h
    split at h
    · rename_i hhandled
      cases h
      exact hselect hhandled
    · cases h
    · cases h
      exact fun e => by cases e
  | succ allowed ih =>
    rw [settle] at h
    split at h
    · rename_i hhandled
      cases h
      exact hselect hhandled
    · cases h
    · exact ih h

theorem begin_error {f : Failure} (h : m.begin context = .error f) (cause : ConfigurationError) :
    f ≠ .invalidConfiguration cause := by
  unfold begin at h
  exact settle_error h cause

/-- Reacting to an event refuses no configuration. -/
theorem react_error {f : Failure} (h : m.react a context event = .error f)
    (cause : ConfigurationError) : f ≠ .invalidConfiguration cause := by
  unfold react at h
  split at h
  · rename_i hs
    cases h
    obtain ⟨guard, state, cause', rfl⟩ := select_error hs
    exact fun e => by cases e
  · cases h
  · split at h
    · cases h
      exact fun e => by cases e
    · rename_i r rs _ _ allowed _
      cases hsettle : m.settle context allowed (m.advance ⟨a, [], 0⟩ (r :: rs)).1
          (m.advance ⟨a, [], 0⟩ (r :: rs)).2 with
      | ok q => simp [hsettle, Except.map] at h
      | error f' =>
        simp only [hsettle, Except.map, Except.error.injEq] at h
        subst h
        exact settle_error hsettle cause

/-- A call refuses a configuration exactly for what resolving it finds. -/
theorem transition_eq_error {configuration : Configuration} {cause : ConfigurationError} :
    m.transition configuration context event = .error (.invalidConfiguration cause) ↔
      Active.resolve m.toTree m.options.validates configuration = .error cause := by
  rw [← resolve_eq_error]
  unfold transition
  cases hres : m.resolve configuration with
  | error f => simp only [bind, Except.bind, Except.error.injEq]
  | ok a =>
    refine ⟨fun h => ?_, fun h => by cases h⟩
    cases hreact : m.react a context event with
    | error f =>
      simp only [hreact, bind, Except.bind, Except.error.injEq] at h
      exact absurd h (react_error hreact cause)
    | ok outcome =>
      cases outcome <;> simp [hreact, bind, Except.bind, pure, Except.pure] at h

/-! ## A run of the player

It is turned up, switched off and switched on again. -/

def player.turnUp : List Transition :=
  [⟨3, "UP", 0, [4], none, none, [], false⟩, ⟨6, "UP", 0, [7], none, none, [], false⟩]

def player.switchOff : List Transition := [⟨1, "POWER", 0, [9], none, none, [], false⟩]

def player.switchOn : List Transition := [⟨9, "POWER", 0, [8], none, none, [], false⟩]

def player.begun : Active := player.initialStep.active

def player.loud : Active := (player.microstep player.begun player.turnUp).active

def player.off : Active := (player.microstep player.loud player.switchOff).active

def player.again : Active := (player.microstep player.off player.switchOn).active

theorem run_player : player.Run
    [.fired player.off player.switchOn, .reloaded player.off,
      .fired player.loud player.switchOff, .reloaded player.loud,
      .fired player.begun player.turnUp, .reloaded player.begun]
    ⟨player.again, (player.microstep player.off player.switchOn).raised, ()⟩ := by
  have begun : player.Run [.reloaded player.begun] ⟨player.begun, [], ()⟩ :=
    (Run.begin ()).reload () (by unfold Settled; decide +kernel) (by decide +kernel)
  have loud : player.Run [.fired player.begun player.turnUp, .reloaded player.begun]
      ⟨player.loud, (player.microstep player.begun player.turnUp).raised, ()⟩ :=
    begun.external (.named "UP") (by decide +kernel)
  have off : player.Run [.fired player.loud player.switchOff, .reloaded player.loud,
      .fired player.begun player.turnUp, .reloaded player.begun]
      ⟨player.off, (player.microstep player.loud player.switchOff).raised, ()⟩ :=
    Run.external (.named "POWER")
      (loud.reload () (by unfold Settled; decide +kernel) (by decide +kernel)) (by decide +kernel)
  exact Run.external (.named "POWER")
    (off.reload () (by unfold Settled; decide +kernel) (by decide +kernel)) (by decide +kernel)

end Machine

end Statechart
