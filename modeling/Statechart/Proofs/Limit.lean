/-
# Statechart.Proofs.Limit -- how many microsteps a call may take

What is fired does not depend on the limit, so a call that goes through does so alike under every
limit that its microsteps do not exceed, and fails for the limit under every other. Nor is there a
limit under which it does not return, as long as no history state is active and following them leads
in no circle (`Machine.limit_transparent`). Checked configurations have none active. What is passed
in unchecked may, and then this state is recorded for itself: that is a circle which nobody passed
in (`Machine.mirror_never_returns`).
-/

import Statechart.Proofs.Chart.Intact
import Statechart.Proofs.Turns

namespace Statechart

namespace Machine

variable {γ : Type} {m : Machine γ} {a : Active} {context : γ} {event : Event} {p q : Progress}
  {waiting : List Event} {fired : List Firing}

/-- The machine under another limit. -/
def withLimit (m : Machine γ) (limit : Nat) : Machine γ :=
  { m with options := { m.options with maxMicrosteps := limit } }

/-! ## Other limits -/

/-- Each thing fired takes a microstep. -/
theorem Settles.microsteps (h : m.Settles context p waiting fired q) :
    q.microsteps = p.microsteps + fired.length := by
  induction h with
  | done _ => rfl
  | @fire p q waiting rest transitions fired _ _ ih =>
    have hone : (m.advance p transitions).1.microsteps = p.microsteps + 1 := rfl
    rw [ih, hone, List.length_cons]
    omega

/-- A call that settles under one limit settles alike under any other that allows for what it fires,
and fails for the limit under one that does not. -/
theorem Settles.settle_withLimit (h : m.Settles context p waiting fired q) (limit allowed : Nat) :
    (m.withLimit limit).settle context allowed p waiting =
      if fired.length ≤ allowed then .ok q else .error (.microstepLimit limit) := by
  have hsame : ∀ a waiting, (m.withLimit limit).firstHandled a context waiting =
      m.firstHandled a context waiting := fun _ _ => firstHandled_options _
  induction h generalizing allowed with
  | done hhandled =>
    have hhandled' := (hsame _ _).trans hhandled
    cases allowed <;> rw [settle, hhandled'] <;> simp
  | @fire p q waiting rest transitions fired hhandled _ ih =>
    have hhandled' := (hsame _ _).trans hhandled
    cases allowed with
    | zero =>
      rw [settle, hhandled']
      rfl
    | succ allowed =>
      rw [settle, hhandled', List.length_cons]
      simp only [Nat.add_le_add_iff_right]
      exact ih allowed

theorem begin_withLimit (h : m.begin context = .ok q) (limit : Nat) :
    (m.withLimit limit).begin context =
      if q.microsteps ≤ max 1 limit then .ok q else .error (.microstepLimit limit) := by
  obtain ⟨fired, hsettles⟩ := exists_settles h
  have hcount : q.microsteps = 1 + fired.length := hsettles.microsteps
  have hiff : q.microsteps ≤ max 1 limit ↔ fired.length ≤ limit - 1 := by omega
  rw [if_congr hiff rfl rfl]
  exact hsettles.settle_withLimit limit (limit - 1)

theorem react_withLimit (h : m.react a context event = .ok (some q)) (limit : Nat) :
    1 ≤ q.microsteps ∧ (m.withLimit limit).react a context event =
      if q.microsteps ≤ limit then .ok (some q) else .error (.microstepLimit limit) := by
  obtain ⟨r, rs, fired, hs, hsettles⟩ := exists_settles_of_react h
  have hcount : q.microsteps = 1 + fired.length := by
    rw [hsettles.microsteps]
    rfl
  refine ⟨by omega, ?_⟩
  have hs' : (m.withLimit limit).select a context event = .ok (r :: rs) :=
    (select_options _).trans hs
  rw [react, hs']
  cases limit with
  | zero =>
    rw [if_neg (by omega)]
    rfl
  | succ limit =>
    have hiff : q.microsteps ≤ limit + 1 ↔ fired.length ≤ limit := by omega
    rw [if_congr hiff rfl rfl]
    have hsettle := hsettles.settle_withLimit (limit + 1) limit
    show ((m.withLimit (limit + 1)).settle context limit (m.advance ⟨a, [], 0⟩ (r :: rs)).1
      (m.advance ⟨a, [], 0⟩ (r :: rs)).2).map some = _
    rw [hsettle]
    split <;> rfl

/-- A machine with another limit is what the description compiles to with that limit. -/
theorem compile_withLimit {d : Description} {guards : Guards γ} {options : Options}
    (hm : d.compile guards options = .ok m) (limit : Nat) :
    d.compile guards { options with maxMicrosteps := limit } = .ok (m.withLimit limit) := by
  rw [Description.compile_of_accepted (Description.violations_of_compile hm),
    Description.compile_eq hm]
  rfl

/-- What an event fires does not exceed the limit. -/
theorem microsteps_le_of_react (h : m.react a context event = .ok (some q)) :
    q.microsteps ≤ m.options.maxMicrosteps := by
  have hown := (react_withLimit h m.options.maxMicrosteps).2
  have hsame : m.withLimit m.options.maxMicrosteps = m := rfl
  rw [hsame, h] at hown
  by_contra hover
  rw [if_neg hover] at hown
  cases hown

theorem transition_withLimit {configuration : Configuration} {arrival : Arrival}
    (h : m.transition configuration context event = .ok (.transitioned arrival)) (limit : Nat) :
    (m.withLimit limit).transition configuration context event =
      if arrival.microsteps ≤ limit then .ok (.transitioned arrival)
      else .error (.microstepLimit limit) := by
  obtain ⟨a, q, hres, hreact, rfl⟩ := transition_eq_ok.mp h
  have hlimit := (react_withLimit hreact limit).2
  have hres' : (m.withLimit limit).resolve configuration = .ok a := hres
  rw [transition, hres']
  show ((m.withLimit limit).react a context event >>= _) = _
  rw [hlimit]
  show _ = if q.microsteps ≤ limit then _ else _
  split <;> rfl

/-- A call that has settled under one limit returns under every other. -/
theorem handle?_withLimit (hc : m.WellFormed) (x : Progress × List Event)
    (h : m.handle? context x.1 x.2 = some (.ok q)) (limit : Nat) :
    (m.withLimit limit).handle? context x.1 x.2 ≠ none := by
  have hsame : ∀ a event, (m.withLimit limit).select a context event = m.select a context event :=
    fun _ _ => select_options _
  induction x using (wellFounded_turn m context).induction with
  | _ x ih =>
    obtain ⟨p, waiting⟩ := x
    cases waiting with
    | nil => simp [handle?_nil]
    | cons event waiting =>
      cases hs : m.select p.active context event with
      | error f =>
        rw [handle?_fail hs] at h
        exact nomatch h
      | ok selected =>
        have hs' := (hsame p.active event).trans hs
        cases selected with
        | nil =>
          rw [handle?_pass hs']
          rw [handle?_pass hs] at h
          exact ih _ (.pass hs) h
        | cons r rs =>
          obtain ⟨hlt, hfree, hnext⟩ := handle?_advance_of_ok hc hs h
          by_cases hlimit : p.microsteps < limit
          · rw [handle?_advance (m := m.withLimit limit) hc hs' hlimit hfree]
            exact ih _ (.fire hs hlt) hnext
          · rw [handle?_exceed hs' (Nat.le_of_not_lt hlimit)]
            exact Option.some_ne_none _

theorem react?_withLimit (hc : m.WellFormed)
    (h : m.react? a context event = some (.ok (some q))) (limit : Nat) :
    (m.withLimit limit).react? a context event ≠ none := by
  obtain ⟨r, rs, -, hs, -⟩ := react_eq_some (react_of_returns hc h)
  rw [react?_fire hs] at h
  obtain ⟨p, hhandle, -⟩ := exists_of_map_eq_ok h
  exact react?_eq_none_iff.not.mpr (handle?_withLimit hc (⟨a, [], 0⟩, [event]) hhandle limit)

theorem transition?_withLimit (hc : m.WellFormed) {configuration : Configuration}
    {arrival : Arrival}
    (h : m.transition? configuration context event = some (.ok (.transitioned arrival)))
    (limit : Nat) : (m.withLimit limit).transition? configuration context event =
      some (if arrival.microsteps ≤ limit then .ok (.transitioned arrival)
        else .error (.microstepLimit limit)) := by
  have hcall := transition_of_returns hc h
  obtain ⟨a, q, hres, hreact, -⟩ := transition_eq_ok.mp hcall
  have hreact? : m.react? a context event = some (.ok (some q)) := by
    rw [← hreact]
    refine react?_eq_of_ne_none hc fun hnone => ?_
    exact nomatch (transition?_eq_none_iff.mpr ⟨a, hres, hnone⟩).symm.trans h
  have hother : (m.withLimit limit).transition? configuration context event ≠ none := by
    rw [ne_eq, transition?_eq_none_iff]
    rintro ⟨b, hres', hnone⟩
    obtain rfl := Except.ok.inj (hres.symm.trans hres')
    exact react?_withLimit hc hreact? limit hnone
  rw [transition?_eq_of_ne_none (m := m.withLimit limit) hc hother,
    transition_withLimit hcall limit]

theorem initialState_withLimit {arrival : Arrival} (h : m.initialState context = .ok arrival)
    (limit : Nat) : (m.withLimit limit).initialState context =
      if arrival.microsteps ≤ max 1 limit then .ok arrival else .error (.microstepLimit limit) := by
  obtain ⟨q, hbegin, rfl⟩ := initialState_eq_ok.mp h
  rw [initialState, begin_withLimit hbegin limit]
  show _ = if q.microsteps ≤ max 1 limit then _ else _
  split <;> rfl

theorem initialState?_withLimit (hc : m.WellFormed) {arrival : Arrival}
    (h : m.initialState? context = some (.ok arrival)) (limit : Nat) :
    (m.withLimit limit).initialState? context =
      some (if arrival.microsteps ≤ max 1 limit then .ok arrival
        else .error (.microstepLimit limit)) := by
  have hcall := initialState_of_returns hc h
  rw [initialState?_eq hc] at h
  obtain ⟨p, hhandle, -⟩ := exists_of_map_eq_ok h
  have hother : (m.withLimit limit).initialState? context ≠ none := by
    rw [ne_eq, initialState?_eq_none_iff (m := m.withLimit limit) hc]
    exact handle?_withLimit hc (_, _) hhandle limit
  rw [initialState?_eq_of_ne_none (m := m.withLimit limit) hc hother,
    initialState_withLimit hcall limit]

theorem transition?_unchanged (hc : m.WellFormed) {configuration : Configuration}
    (h : m.transition? configuration context event = some (.ok .unchanged)) (limit : Nat) :
    (m.withLimit limit).transition? configuration context event = some (.ok .unchanged) := by
  obtain ⟨a, hres, hs⟩ := transition_eq_unchanged.mp (transition_of_returns hc h)
  have hres' : (m.withLimit limit).resolve configuration = .ok a := hres
  have hs' : (m.withLimit limit).select a context event = .ok [] := (select_options _).trans hs
  rw [transition?, hres']
  simp only [react?, hs']
  rfl

/-! ## The limit makes no other difference -/

/-- When calls return, and what the limit has to do with it. -/
structure LimitTransparent (m : Machine γ) : Prop where
  /-- Handling events never ends exactly if it comes to a circle, and so it is with the calls. -/
  handle : ∀ {limit context p waiting}, (m.withLimit limit).handle? context p waiting = none ↔
    ∃ x, Relation.ReflTransGen ((m.withLimit limit).Turn context) (p, waiting) x ∧
      (m.withLimit limit).Circles context x
  initial : ∀ {limit context}, (m.withLimit limit).initialState? context = none ↔
    ∃ x, Relation.ReflTransGen ((m.withLimit limit).Turn context)
      (⟨m.initialStep.active, m.initialStep.actions, 1⟩, m.initialStep.raised) x ∧
      (m.withLimit limit).Circles context x
  external : ∀ {limit configuration context event},
    (m.withLimit limit).transition? configuration context event = none ↔
      ∃ a, m.resolve configuration = .ok a ∧
        ∃ x, Relation.ReflTransGen ((m.withLimit limit).Turn context) (⟨a, [], 0⟩, [event]) x ∧
          (m.withLimit limit).Circles context x
  /-- A call that returns does so with what is defined for it with bounds. -/
  initial_eq : ∀ {limit context result}, (m.withLimit limit).initialState? context = some result →
    (m.withLimit limit).initialState context = result
  external_eq : ∀ {limit configuration context event result},
    (m.withLimit limit).transition? configuration context event = some result →
    (m.withLimit limit).transition configuration context event = result
  /-- It returns under every limit if following history states leads in no circle and none of them
  is active, as in what a machine begins with and in a checked configuration. -/
  initial_returns : m.DefaultsAcyclic → ∀ limit context,
    ∃ result, (m.withLimit limit).initialState? context = some result
  external_returns : ∀ {configuration a}, m.resolve configuration = .ok a → m.Acyclic a →
    (m.options.validates = true ∨ ∀ n ∈ a, (m.kind n).isHistory = false) →
    ∀ limit context event,
      ∃ result, (m.withLimit limit).transition? configuration context event = some result
  /-- What goes through under one limit does so alike under each limit that its microsteps do not
  exceed, and fails for the limit under each other one. -/
  transitioned : ∀ {configuration context event arrival},
    m.transition? configuration context event = some (.ok (.transitioned arrival)) →
    1 ≤ arrival.microsteps ∧ arrival.microsteps ≤ m.options.maxMicrosteps ∧ ∀ limit,
      (m.withLimit limit).transition? configuration context event =
        some (if arrival.microsteps ≤ limit then .ok (.transitioned arrival)
          else .error (.microstepLimit limit))
  unchanged : ∀ {configuration context event},
    m.transition? configuration context event = some (.ok .unchanged) → ∀ limit,
    (m.withLimit limit).transition? configuration context event = some (.ok .unchanged)
  /-- Only the microstep of the initial call is never over the limit. -/
  initialized : ∀ {context arrival}, m.initialState? context = some (.ok arrival) → ∀ limit,
    (m.withLimit limit).initialState? context =
      some (if arrival.microsteps ≤ max 1 limit then .ok arrival
        else .error (.microstepLimit limit))

/-- Handling events comes to an end where no history state that is followed leads in a circle, and
the limit makes no other difference to what a call comes to. -/
theorem limit_transparent {d : Description} {guards : Guards γ} {options : Options}
    (hm : d.compile guards options = .ok m) :
    (∀ limit, d.compile guards { options with maxMicrosteps := limit } =
        .ok (m.withLimit limit)) ∧ m.LimitTransparent := by
  have hc := Description.wellFormed_of_compile hm
  have hcl : ∀ limit, (m.withLimit limit).WellFormed := fun _ => hc
  refine ⟨compile_withLimit hm, ?_⟩
  constructor
  case handle => exact fun {limit _ _ _} => handle?_eq_none_iff (hcl limit) (_, _)
  case initial =>
    intro limit context
    rw [initialState?_eq_none_iff (hcl limit)]
    exact handle?_eq_none_iff (hcl limit) (_, _)
  case external =>
    intro limit configuration context event
    rw [transition?_eq_none_iff]
    refine exists_congr fun a => and_congr_right fun _ => ?_
    rw [react?_eq_none_iff]
    exact handle?_eq_none_iff (hcl limit) (_, _)
  case initial_eq => exact fun {limit _ _} => initialState_of_returns (hcl limit)
  case external_eq => exact fun {limit _ _ _ _} => transition_of_returns (hcl limit)
  case initial_returns =>
    intro hdef limit context
    have hunwound : (m.withLimit limit).Unwound m.initialStep.active :=
      Chart.unwound_initialStep hc hdef
    rw [← Option.ne_none_iff_exists', ne_eq, initialState?_eq_none_iff (hcl limit)]
    exact fun hnone => nomatch hnone.symm.trans (handle?_of_unwound (hcl limit) hunwound)
  case external_returns =>
    intro configuration a hres hacyclic hstates limit context event
    have hunwound : (m.withLimit limit).Unwound a := by
      rcases hstates with hchecks | hstates
      · rw [resolve_eq_ok, hchecks] at hres
        exact unwound_of_resolve hc hres hacyclic
      · exact ⟨hstates, hacyclic⟩
    rw [← Option.ne_none_iff_exists', ne_eq, transition?_eq_none_iff]
    rintro ⟨b, hres', hnone⟩
    obtain rfl := Except.ok.inj (hres.symm.trans hres')
    rw [react?_eq_none_iff] at hnone
    exact nomatch hnone.symm.trans (handle?_of_unwound (hcl limit) hunwound)
  case transitioned =>
    intro configuration context event arrival h
    obtain ⟨a, q, -, hreact, rfl⟩ := transition_eq_ok.mp (transition_of_returns hc h)
    exact ⟨(react_withLimit hreact 0).1, microsteps_le_of_react hreact, transition?_withLimit hc h⟩
  case unchanged => exact fun h limit => transition?_unchanged hc h limit
  case initialized => exact fun h limit => initialState?_withLimit hc h limit

/-! ### A ride that ends

The lift is halted while it goes fast: the cabin is there, and the ride is over in one more
microstep. -/

def lift.fast : Configuration :=
  .ofLeaves ["lift.going.doors.shut", "lift.going.cabin.fast"]

def lift.speeding : Active := ⟨.ofList [0, 2, 3, 4, 7, 9], .empty⟩

/-- Where the lift ends when it is halted. -/
def lift.over : Progress :=
  ⟨⟨.ofList [0, 1], .ofList [(6, .ofList [5])]⟩,
    [.named "-fast", .named "-shut", .named "+open", .named "+there", .named "-there",
      .named "-cabin", .named "-open", .named "-doors", .named "-going", .named "+idle"], 2⟩

/-- Following history states leads in no circle on the way, so the call returns; two microsteps are
enough for it, and one is not. -/
theorem lift_over_within_two :
    lift.resolve lift.fast = .ok lift.speeding ∧ lift.Acyclic lift.speeding ∧
      lift.transition? lift.fast () (.named "HALT") =
        some (.ok (.transitioned (lift.arrival lift.over))) ∧
      (lift.withLimit 2).transition? lift.fast () (.named "HALT") =
        some (.ok (.transitioned (lift.arrival lift.over))) ∧
      (lift.withLimit 1).transition? lift.fast () (.named "HALT") =
        some (.error (.microstepLimit 1)) := by
  have hc := Description.wellFormed_of_compile compile_lift
  have hdef : lift.DefaultsAcyclic := Chart.defaultsAcyclic_of_behaviours hc (by decide +kernel)
  have hresolve : lift.resolve lift.fast = .ok lift.speeding := by decide +kernel
  have hreact : lift.react lift.speeding () (.named "HALT") = .ok (some lift.over) := by
    decide +kernel
  have hacyclic : lift.Acyclic lift.speeding :=
    hc.acyclic_of_defaults (fun h states hs => by cases hs) hdef
  obtain ⟨-, hlimit⟩ := limit_transparent compile_lift
  obtain ⟨result, hresult⟩ := hlimit.external_returns hresolve hacyclic (Or.inl rfl)
    lift.options.maxMicrosteps () (.named "HALT")
  have hcall : lift.transition? lift.fast () (.named "HALT") =
      some (.ok (.transitioned (lift.arrival lift.over))) := by
    rw [← transition_eq_ok.mpr ⟨_, _, hresolve, hreact, rfl⟩]
    exact hresult.trans (congrArg some (hlimit.external_eq hresult).symm)
  obtain ⟨-, -, hother⟩ := hlimit.transitioned hcall
  exact ⟨hresolve, hacyclic, hcall, hother 2, hother 1⟩

end Machine

/-! ### A call that never returns

In a room hangs the image of what was seen there last. Whoever turns away comes to the end of the
hall and sees it again; it is never seen, if it was the image itself that was seen last. -/

/-- A room with an image of itself, and the hall outside. -/
def Description.mirror : Description where
  id := "mirror"
  root := { State.empty with
    initial := some "room"
    states := [
      ("room", { State.empty with
        initial := some "wall"
        states := [
          ("wall", State.empty),
          ("image", { State.empty with history := some .deep })]
        on := .ofList [("TURN", [.target "hall"])] }),
      ("hall", { State.empty with
        initial := some "end"
        states := [("end", { State.empty with kind := some .final })]
        onDone := some [.target "room.image"] })] }

namespace Machine

/-- The mirror, which takes every configuration whose states there are. -/
def mirror : Machine Unit :=
  { Description.mirror.chart with guards := .empty, options := ⟨64, false⟩ }

theorem compile_mirror : Description.mirror.compile .empty ⟨64, false⟩ = .ok mirror :=
  Description.compile_of_accepted (by decide +kernel)

/-- The image itself is seen, and nothing has been recorded. -/
def mirror.gazing : Active := ⟨.ofList [0, 1, 3], .empty⟩

/-- At the end of the hall, with the image recorded for itself. -/
def mirror.turned : Progress := ⟨⟨.ofList [0, 4, 5], .ofList [(3, .ofList [3])]⟩, [], 1⟩

/-- What is passed in is accepted, and neither its records nor the default targets lead in a circle;
but the event raised in the hall is never handled to its end. -/
theorem mirror_never_returns :
    Description.mirror.compile .empty ⟨64, false⟩ = .ok mirror ∧ mirror.DefaultsAcyclic ∧
      mirror.resolve (.ofLeaves ["mirror.room.image"]) = .ok mirror.gazing ∧
      mirror.Acyclic mirror.gazing ∧
      mirror.transition? (.ofLeaves ["mirror.room.image"]) () (.named "TURN") = none := by
  have hc := Description.wellFormed_of_compile compile_mirror
  have hdef : mirror.DefaultsAcyclic := Chart.defaultsAcyclic_of_behaviours hc (by decide +kernel)
  have hresolve : mirror.resolve (.ofLeaves ["mirror.room.image"]) = .ok mirror.gazing := by
    decide +kernel
  have hacyclic : mirror.Acyclic mirror.gazing :=
    hc.acyclic_of_defaults (fun h states hs => by cases hs) hdef
  have hturn : mirror.Turn () (⟨mirror.gazing, [], 0⟩, [.named "TURN"])
      (mirror.turned, [.named "done.state.mirror.hall"]) := by
    have hs : mirror.select mirror.gazing () (.named "TURN") =
        .ok [⟨1, "TURN", 0, [4], none, none, [], false⟩] := by decide +kernel
    have hadvance : mirror.advance ⟨mirror.gazing, [], 0⟩
        [⟨1, "TURN", 0, [4], none, none, [], false⟩] =
        (mirror.turned, [.named "done.state.mirror.hall"]) := by decide +kernel
    have hfire : mirror.Turn () (⟨mirror.gazing, [], 0⟩, [.named "TURN"]) _ :=
      .fire hs (by decide)
    rwa [hadvance] at hfire
  have hcircles : mirror.Circles () (mirror.turned, [.named "done.state.mirror.hall"]) := by
    have hs : mirror.select mirror.turned.active () (.named "done.state.mirror.hall") =
        .ok [⟨4, "done.state.mirror.hall", 0, [3], none, none, [], false⟩] := by decide +kernel
    refine .fire hs (by decide)
      ⟨_, List.mem_cons_self, by decide +kernel, 3, List.mem_cons_self, ?_⟩
    exact ⟨3, .refl, .single ⟨by decide +kernel, by decide +kernel⟩⟩
  refine ⟨compile_mirror, hdef, hresolve, hacyclic, transition?_eq_none_iff.mpr ⟨_, hresolve, ?_⟩⟩
  exact react?_eq_none_iff.mpr (handle?_eq_none hc (.single hturn) hcircles)

end Machine

end Statechart
