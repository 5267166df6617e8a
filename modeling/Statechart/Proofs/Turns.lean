/-
# Statechart.Proofs.Turns -- when a call returns

A call that handles waiting events takes one turn after the other: the first event fires nothing and
is dropped, or fires transitions in a microstep that the limit still allows (`Machine.Turn`). Each
turn uses up a microstep or an event, so there is no endless sequence of turns under any limit
(`wellFounded_turn`).

So a call without bounds returns, with what is defined for it with bounds (`Machine.handle?_eq`),
unless it comes to a turn whose microstep never ends, as it enters a history state that leads in a
circle (`Machine.handle?_eq_none_iff`). While no history state is active and following them leads in
no circle, no turn makes one (`Machine.handle?_of_unwound`).
-/

import Statechart.Proofs.Call
import Statechart.Proofs.Entry.Unbounded

namespace Statechart.Machine

variable {γ : Type} {m : Machine γ} {a : Active} {context : γ} {event : Event} {r : Transition}
  {rs : List Transition} {waiting : List Event} {p : Progress} {f : Failure} {allowed : Nat}

/-! ## One event after the other -/

theorem firstHandled_pass (hs : m.select a context event = .ok []) :
    m.firstHandled a context (event :: waiting) = m.firstHandled a context waiting := by
  rw [firstHandled, hs]

theorem firstHandled_fire (hs : m.select a context event = .ok (r :: rs)) :
    m.firstHandled a context (event :: waiting) = .ok (some (r :: rs, waiting)) := by
  rw [firstHandled, hs]

theorem settle_nil : m.settle context allowed p [] = .ok p := by
  cases allowed <;> rfl

/-- An event that fires nothing is dropped. -/
theorem settle_pass (hs : m.select p.active context event = .ok []) :
    m.settle context allowed p (event :: waiting) = m.settle context allowed p waiting := by
  cases allowed <;> rw [settle, settle, firstHandled_pass hs]

theorem settle_fail (hs : m.select p.active context event = .error f) :
    m.settle context allowed p (event :: waiting) = .error f := by
  cases allowed <;> rw [settle, firstHandled, hs]

/-- An event that fires something does so in a microstep, if one is allowed. -/
theorem settle_fire (hs : m.select p.active context event = .ok (r :: rs)) :
    m.settle context (allowed + 1) p (event :: waiting) =
      m.settle context allowed (m.advance p (r :: rs)).1
        (waiting ++ (m.advance p (r :: rs)).2) := by
  rw [settle, firstHandled_fire hs]

theorem settle_exceed (hs : m.select p.active context event = .ok (r :: rs)) :
    m.settle context 0 p (event :: waiting) =
      .error (.microstepLimit m.options.maxMicrosteps) := by
  rw [settle, firstHandled_fire hs]

theorem handle?_nil : m.handle? context p [] = some (.ok p) := by
  rw [handle?.eq_def]

theorem handle?_pass (hs : m.select p.active context event = .ok []) :
    m.handle? context p (event :: waiting) = m.handle? context p waiting := by
  rw [handle?.eq_def]
  simp only [hs]

theorem handle?_fail (hs : m.select p.active context event = .error f) :
    m.handle? context p (event :: waiting) = some (.error f) := by
  rw [handle?.eq_def]
  simp only [hs]

/-- What an event fires is done in a microstep that may never end. -/
theorem handle?_fire (hs : m.select p.active context event = .ok (r :: rs))
    (hlt : p.microsteps < m.options.maxMicrosteps) : m.handle? context p (event :: waiting) =
      (m.microstep? p.active (r :: rs)).bind fun s => m.handle? context
        ⟨s.active, p.actions ++ s.actions, p.microsteps + 1⟩ (waiting ++ s.raised) := by
  rw [handle?.eq_def]
  simp only [hs, if_neg (Nat.not_lt_of_le (Nat.succ_le_of_lt hlt))]
  rfl

theorem handle?_exceed (hs : m.select p.active context event = .ok (r :: rs))
    (hle : m.options.maxMicrosteps ≤ p.microsteps) : m.handle? context p (event :: waiting) =
      some (.error (.microstepLimit m.options.maxMicrosteps)) := by
  rw [handle?.eq_def]
  simp only [hs, if_pos (Nat.lt_succ_of_le hle)]

/-! ## Turns -/

/-- One turn of a call that handles waiting events. The first event fires nothing, or it fires
transitions in a microstep that the limit allows, and the events raised by that wait behind the
others. -/
inductive Turn (m : Machine γ) (context : γ) :
    Progress × List Event → Progress × List Event → Prop
  | pass {p : Progress} {event : Event} {waiting : List Event} :
      m.select p.active context event = .ok [] → Turn m context (p, event :: waiting) (p, waiting)
  | fire {p : Progress} {event : Event} {waiting : List Event} {r : Transition}
      {rs : List Transition} : m.select p.active context event = .ok (r :: rs) →
      p.microsteps < m.options.maxMicrosteps → Turn m context (p, event :: waiting)
        ((m.advance p (r :: rs)).1, waiting ++ (m.advance p (r :: rs)).2)

/-- The first event that waits fires transitions that enter a circle, in a microstep that the limit
allows. -/
inductive Circles (m : Machine γ) (context : γ) : Progress × List Event → Prop
  | fire {p : Progress} {event : Event} {waiting : List Event} {r : Transition}
      {rs : List Transition} : m.select p.active context event = .ok (r :: rs) →
      p.microsteps < m.options.maxMicrosteps → m.EntersCircle p.active (r :: rs) →
      Circles m context (p, event :: waiting)

/-- Each turn leaves fewer microsteps, or as many and fewer events. -/
theorem Turn.decreases {x y : Progress × List Event} (h : m.Turn context x y) :
    Prod.Lex (· < ·) (· < ·) (m.options.maxMicrosteps - y.1.microsteps, y.2.length)
      (m.options.maxMicrosteps - x.1.microsteps, x.2.length) := by
  cases h with
  | pass _ => exact Prod.Lex.right _ (Nat.lt_succ_self _)
  | @fire p event waiting r rs _ hlt =>
    have hone : (m.advance p (r :: rs)).1.microsteps = p.microsteps + 1 := rfl
    exact Prod.Lex.left _ _ (by simp only [hone]; omega)

/-- There is no endless sequence of turns. -/
theorem wellFounded_turn (m : Machine γ) (context : γ) :
    WellFounded (fun y x => m.Turn context x y) :=
  Subrelation.wf (fun h => h.decreases)
    (InvImage.wf (fun x : Progress × List Event =>
      (m.options.maxMicrosteps - x.1.microsteps, x.2.length))
      (Prod.lex Nat.lt_wfRel Nat.lt_wfRel).wf)

/-! ## Turns that end -/

section

variable (hc : m.WellFormed)
include hc

/-- A microstep that enters no circle ends in what is defined for it. -/
theorem handle?_advance (hs : m.select p.active context event = .ok (r :: rs))
    (hlt : p.microsteps < m.options.maxMicrosteps) (hfree : ¬ m.EntersCircle p.active (r :: rs)) :
    m.handle? context p (event :: waiting) =
      m.handle? context (m.advance p (r :: rs)).1 (waiting ++ (m.advance p (r :: rs)).2) := by
  rw [handle?_fire hs hlt, Chart.microstep?_eq hc hfree]
  rfl

/-- A call that handles events returns unless it comes to a circle. -/
theorem handle?_eq (x : Progress × List Event)
    (hfree : ∀ y, Relation.ReflTransGen (m.Turn context) x y → ¬ m.Circles context y) :
    m.handle? context x.1 x.2 =
      some (m.settle context (m.options.maxMicrosteps - x.1.microsteps) x.1 x.2) := by
  induction x using (wellFounded_turn m context).induction with
  | _ x ih =>
    obtain ⟨p, waiting⟩ := x
    cases waiting with
    | nil => rw [handle?_nil, settle_nil]
    | cons event waiting =>
      cases hs : m.select p.active context event with
      | error f => rw [handle?_fail hs, settle_fail hs]
      | ok selected =>
        cases selected with
        | nil =>
          have hturn : m.Turn context (p, event :: waiting) (p, waiting) := .pass hs
          rw [handle?_pass hs, settle_pass hs]
          exact ih _ hturn fun y hy => hfree y (hy.head hturn)
        | cons r rs =>
          by_cases hlt : p.microsteps < m.options.maxMicrosteps
          · have hturn : m.Turn context (p, event :: waiting)
                ((m.advance p (r :: rs)).1, waiting ++ (m.advance p (r :: rs)).2) := .fire hs hlt
            have hnone : ¬ m.EntersCircle p.active (r :: rs) :=
              fun hcircle => hfree _ .refl (.fire hs hlt hcircle)
            -- one microstep has been taken, and one less is allowed
            have hone : m.options.maxMicrosteps - p.microsteps =
                (m.options.maxMicrosteps - (m.advance p (r :: rs)).1.microsteps) + 1 := by
              show m.options.maxMicrosteps - p.microsteps =
                (m.options.maxMicrosteps - (p.microsteps + 1)) + 1
              omega
            rw [handle?_advance hc hs hlt hnone, hone, settle_fire hs]
            exact ih _ hturn fun y hy => hfree y (hy.head hturn)
          · have hle := Nat.le_of_not_lt hlt
            rw [handle?_exceed hs hle, Nat.sub_eq_zero_of_le hle, settle_exceed hs]

theorem Circles.handle?_eq_none {x : Progress × List Event} (h : m.Circles context x) :
    m.handle? context x.1 x.2 = none := by
  cases h with
  | fire hs hlt hcircle =>
    rw [handle?_fire hs hlt, Chart.microstep?_eq_none hc hcircle]
    rfl

/-- A call that comes to a circle never returns. -/
theorem handle?_eq_none {x y : Progress × List Event}
    (h : Relation.ReflTransGen (m.Turn context) x y) (hy : m.Circles context y) :
    m.handle? context x.1 x.2 = none := by
  induction h using Relation.ReflTransGen.head_induction_on with
  | refl => exact hy.handle?_eq_none hc
  | @head x z hturn _ ih =>
    by_cases hx : m.Circles context x
    · exact hx.handle?_eq_none hc
    · cases hturn with
      | pass hs => rw [handle?_pass hs, ih]
      | fire hs hlt => rw [handle?_advance hc hs hlt fun hcircle => hx (.fire hs hlt hcircle), ih]

theorem handle?_eq_none_iff (x : Progress × List Event) : m.handle? context x.1 x.2 = none ↔
    ∃ y, Relation.ReflTransGen (m.Turn context) x y ∧ m.Circles context y := by
  refine ⟨fun hnone => ?_, fun ⟨_, hxy, hy⟩ => handle?_eq_none hc hxy hy⟩
  by_contra hfree
  rw [handle?_eq hc x fun y hxy hy => hfree ⟨y, hxy, hy⟩] at hnone
  exact nomatch hnone

/-- A microstep of a call that settles is allowed and enters no circle. -/
theorem handle?_advance_of_ok {q : Progress} (hs : m.select p.active context event = .ok (r :: rs))
    (h : m.handle? context p (event :: waiting) = some (.ok q)) :
    p.microsteps < m.options.maxMicrosteps ∧ ¬ m.EntersCircle p.active (r :: rs) ∧
      m.handle? context (m.advance p (r :: rs)).1 (waiting ++ (m.advance p (r :: rs)).2) =
        some (.ok q) := by
  by_cases hlt : p.microsteps < m.options.maxMicrosteps
  · have hfree : ¬ m.EntersCircle p.active (r :: rs) := fun hcircle =>
      nomatch (handle?_eq_none hc .refl (.fire hs hlt hcircle)).symm.trans h
    exact ⟨hlt, hfree, (handle?_advance hc hs hlt hfree).symm.trans h⟩
  · rw [handle?_exceed hs (Nat.le_of_not_lt hlt)] at h
    exact nomatch h

theorem handle?_eq_of_ne_none (h : m.handle? context p waiting ≠ none) :
    m.handle? context p waiting =
      some (m.settle context (m.options.maxMicrosteps - p.microsteps) p waiting) :=
  handle?_eq hc (p, waiting) fun _ hxy hy => h (handle?_eq_none hc hxy hy)

end

/-! ## Turns make no circles -/

section

variable (hc : m.WellFormed)
include hc

theorem not_circles_of_unwound {x : Progress × List Event} (hx : m.Unwound x.1.active) :
    ¬ m.Circles context x := by
  rintro ⟨-, -, hcircle⟩
  exact hx.not_entersCircle hc _ hcircle

theorem Turn.unwound {x y : Progress × List Event} (h : m.Turn context x y)
    (hx : m.Unwound x.1.active) : m.Unwound y.1.active := by
  cases h with
  | pass _ => exact hx
  | fire _ _ => exact hx.microstep hc _

theorem unwound_of_turns {x y : Progress × List Event}
    (h : Relation.ReflTransGen (m.Turn context) x y) (hx : m.Unwound x.1.active) :
    m.Unwound y.1.active := by
  induction h with
  | refl => exact hx
  | tail _ hturn ih => exact hturn.unwound hc ih

theorem handle?_of_unwound (hp : m.Unwound p.active) : m.handle? context p waiting =
    some (m.settle context (m.options.maxMicrosteps - p.microsteps) p waiting) :=
  handle?_eq hc (p, waiting) fun _ hy => not_circles_of_unwound hc (unwound_of_turns hc hy hp)

/-- What a checked configuration describes has no active history states. -/
theorem unwound_of_resolve {configuration : Configuration}
    (h : Active.resolve m.toTree true configuration = .ok a) (hacyclic : m.Acyclic a) :
    m.Unwound a :=
  ⟨fun _ hn => (hc.legal_of_resolve h).not_history hn, hacyclic⟩

end

/-! ## Calls that end -/

/-- What is made of a result that may never come succeeds only if the result does. -/
theorem exists_of_map_eq_ok {α β ε : Type} {x : Option (Except ε α)} {f : α → β} {y : β}
    (h : x.map (fun result => result.map f) = some (.ok y)) : ∃ z, x = some (.ok z) ∧ f z = y := by
  obtain ⟨result, rfl, hresult⟩ := Option.map_eq_some_iff.mp h
  cases result with
  | error e => exact nomatch hresult
  | ok z => exact ⟨z, rfl, Except.ok.inj hresult⟩

/-- The call that enters what the machine begins with goes on by handling what this raises. -/
theorem initialState?_eq (hc : m.WellFormed) : m.initialState? context =
    (m.handle? context ⟨m.initialStep.active, m.initialStep.actions, 1⟩
      m.initialStep.raised).map (fun result => result.map m.arrival) := by
  rw [initialState?, Chart.initialStep?_eq hc]
  rfl

/-- An event from outside that fires something is handled like one that waits. -/
theorem react?_fire (hs : m.select a context event = .ok (r :: rs)) : m.react? a context event =
    (m.handle? context ⟨a, [], 0⟩ [event]).map (fun result => result.map some) := by
  rw [react?, hs]
  by_cases hlt : 0 < m.options.maxMicrosteps
  · rw [handle?_fire hs hlt]
    simp only [if_neg (Nat.not_lt_of_le (Nat.succ_le_of_lt hlt))]
    cases m.microstep? a (r :: rs) <;> rfl
  · rw [handle?_exceed hs (Nat.le_of_not_lt hlt)]
    simp only [if_pos (Nat.lt_succ_of_le (Nat.le_of_not_lt hlt))]
    rfl

theorem react_fire (hs : m.select a context event = .ok (r :: rs)) : m.react a context event =
    (m.settle context m.options.maxMicrosteps ⟨a, [], 0⟩ [event]).map some := by
  rw [react, hs]
  cases hlimit : m.options.maxMicrosteps with
  | zero =>
    rw [settle_exceed hs, hlimit]
    rfl
  | succ allowed => rw [settle_fire hs]; rfl

theorem react?_eq_none_iff : m.react? a context event = none ↔
    m.handle? context ⟨a, [], 0⟩ [event] = none := by
  cases hs : m.select a context event with
  | error f =>
    rw [react?, hs, handle?_fail hs]
    simp
  | ok selected =>
    cases selected with
    | nil =>
      rw [react?, hs, handle?_pass hs, handle?_nil]
      simp
    | cons r rs => rw [react?_fire hs, Option.map_eq_none_iff]

theorem react?_eq_of_ne_none (hc : m.WellFormed) (h : m.react? a context event ≠ none) :
    m.react? a context event = some (m.react a context event) := by
  cases hs : m.select a context event with
  | error f =>
    rw [react?, react, hs]
  | ok selected =>
    cases selected with
    | nil => rw [react?, react, hs]
    | cons r rs =>
      rw [ne_eq, react?_eq_none_iff] at h
      rw [react?_fire hs, react_fire hs, handle?_eq_of_ne_none hc h]
      rfl

theorem react_of_returns (hc : m.WellFormed) {result : Except Failure (Option Progress)}
    (h : m.react? a context event = some result) : m.react a context event = result :=
  Option.some.inj ((react?_eq_of_ne_none hc (by simp [h])).symm.trans h)

theorem transition?_eq_none_iff {configuration : Configuration} :
    m.transition? configuration context event = none ↔
      ∃ a, m.resolve configuration = .ok a ∧ m.react? a context event = none := by
  unfold transition?
  cases m.resolve configuration with
  | error f => simp
  | ok a => simp

theorem transition?_eq_of_ne_none (hc : m.WellFormed) {configuration : Configuration}
    (h : m.transition? configuration context event ≠ none) :
    m.transition? configuration context event =
      some (m.transition configuration context event) := by
  unfold transition? transition
  cases hres : m.resolve configuration with
  | error f => rfl
  | ok a =>
    have hreact : m.react? a context event ≠ none := fun hnone =>
      h (transition?_eq_none_iff.mpr ⟨a, hres, hnone⟩)
    simp only [react?_eq_of_ne_none hc hreact]
    rfl

theorem transition_of_returns (hc : m.WellFormed) {configuration : Configuration}
    {result : Except Failure Outcome}
    (h : m.transition? configuration context event = some result) :
    m.transition configuration context event = result :=
  Option.some.inj ((transition?_eq_of_ne_none hc (by simp [h])).symm.trans h)

theorem initialState?_eq_none_iff (hc : m.WellFormed) : m.initialState? context = none ↔
    m.handle? context ⟨m.initialStep.active, m.initialStep.actions, 1⟩
      m.initialStep.raised = none := by
  rw [initialState?_eq hc, Option.map_eq_none_iff]

theorem initialState?_eq_of_ne_none (hc : m.WellFormed) (h : m.initialState? context ≠ none) :
    m.initialState? context = some (m.initialState context) := by
  rw [ne_eq, initialState?_eq_none_iff hc] at h
  rw [initialState?_eq hc, handle?_eq_of_ne_none hc h]
  rfl

theorem initialState_of_returns (hc : m.WellFormed) {result : Except Failure Arrival}
    (h : m.initialState? context = some result) : m.initialState context = result :=
  Option.some.inj ((initialState?_eq_of_ne_none hc (by simp [h])).symm.trans h)

end Statechart.Machine
