/-
# Statechart.Proofs.Call -- what a call goes through

A call that goes through has fired transitions in one microstep after the other, until none of the
events that waited fired anything. `Machine.Settles` lists what was fired, each time with the set in
which it was selected; what each microstep keeps, the call keeps (`Settles.keeps`).
`Machine.Fires` keeps of this only the sets that follow one another, from that with which a call
begins to that in which it ends (`Ends.exists_fires`).
-/

import Statechart.Proofs.Run

namespace Statechart.Machine

variable {γ : Type} {m : Machine γ} {a : Active} {context : γ} {event : Event}
  {transitions : List Transition} {waiting : List Event} {p q : Progress}
  {configuration : Configuration} {arrival : Arrival}

/-- Some transitions with the set in which they are fired. -/
abbrev Firing := Active × List Transition

/-- From waiting events to where nothing waits that fires anything, with what is fired on the way,
the earliest first. -/
inductive Settles (m : Machine γ) (context : γ) :
    Progress → List Event → List Firing → Progress → Prop
  | done {p : Progress} {waiting : List Event} :
      m.firstHandled p.active context waiting = .ok none → Settles m context p waiting [] p
  | fire {p q : Progress} {waiting rest : List Event} {transitions : List Transition}
      {fired : List Firing} :
      m.firstHandled p.active context waiting = .ok (some (transitions, rest)) →
      Settles m context (m.advance p transitions).1 (rest ++ (m.advance p transitions).2) fired q →
      Settles m context p waiting ((p.active, transitions) :: fired) q

/-- A call that returns has settled. -/
theorem exists_settles {allowed : Nat} (h : m.settle context allowed p waiting = .ok q) :
    ∃ fired, m.Settles context p waiting fired q := by
  induction allowed generalizing p waiting with
  | zero =>
    rw [settle] at h
    split at h
    · cases h
    · rename_i hhandled
      cases h
      exact ⟨[], .done hhandled⟩
    · cases h
  | succ allowed ih =>
    rw [settle] at h
    split at h
    · cases h
    · rename_i hhandled
      cases h
      exact ⟨[], .done hhandled⟩
    · rename_i transitions rest hhandled
      obtain ⟨fired, hsettles⟩ := ih h
      exact ⟨_, .fire hhandled hsettles⟩

/-- What each microstep keeps is kept until the call has settled. -/
theorem Settles.keeps {I : Progress → Prop} {fired : List Firing}
    (h : m.Settles context p waiting fired q) (hp : I p)
    (hfire : ∀ p transitions, (p.active, transitions) ∈ fired → m.Selects p.active transitions →
      I p → I (m.advance p transitions).1) : I q := by
  induction h with
  | done _ => exact hp
  | @fire p q waiting rest transitions fired hhandled _ ih =>
    have hnext := hfire p transitions List.mem_cons_self (selects_of_firstHandled hhandled) hp
    exact ih hnext fun p ts hmem => hfire p ts (List.mem_cons_of_mem _ hmem)

/-- A call that delivers an event has fired what this selects and has settled. -/
theorem exists_settles_of_react (h : m.react a context event = .ok (some q)) :
    ∃ r rs fired, m.select a context event = .ok (r :: rs) ∧
      m.Settles context (m.advance ⟨a, [], 0⟩ (r :: rs)).1 (m.advance ⟨a, [], 0⟩ (r :: rs)).2
        fired q := by
  obtain ⟨r, rs, allowed, hs, hsettle⟩ := react_eq_some h
  obtain ⟨fired, hsettles⟩ := exists_settles hsettle
  exact ⟨r, rs, fired, hs, hsettles⟩

/-! ## The sets in between -/

/-- Microsteps one after the other, each for what some event selects. -/
inductive Fires (m : Machine γ) : Active → List Firing → Active → Prop
  | nil {a : Active} : Fires m a [] a
  | cons {a b : Active} {transitions : List Transition} {fired : List Firing} :
      m.Selects a transitions → Fires m (m.microstep a transitions).active fired b →
      Fires m a ((a, transitions) :: fired) b

theorem Settles.fires {fired : List Firing} (h : m.Settles context p waiting fired q) :
    m.Fires p.active fired q.active := by
  induction h with
  | done _ => exact .nil
  | fire hhandled _ ih => exact .cons (selects_of_firstHandled hhandled) ih

/-- What holds of all sets in between holds of the first. -/
theorem Fires.head {I : Active → Prop} {b : Active} {fired : List Firing} (h : m.Fires a fired b)
    (hall : (∀ f ∈ fired, I f.1) ∧ I b) : I a := by
  cases h with
  | nil => exact hall.2
  | cons _ _ => exact hall.1 _ List.mem_cons_self

/-- What each microstep keeps holds of all sets in between. -/
theorem Fires.keeps {I : Active → Prop} {b : Active} {fired : List Firing} (h : m.Fires a fired b)
    (ha : I a) (hfire : ∀ a transitions, m.Selects a transitions → I a →
      I (m.microstep a transitions).active) : (∀ f ∈ fired, I f.1) ∧ I b := by
  induction h with
  | nil => exact ⟨by simp, ha⟩
  | cons hs _ ih =>
    obtain ⟨hall, hb⟩ := ih (hfire _ _ hs ha)
    exact ⟨List.forall_mem_cons.mpr ⟨ha, hall⟩, hb⟩

/-- All of them are states of the machine with records of such, if the first one is. -/
theorem Fires.known (hc : m.WellFormed) {b : Active} {fired : List Firing} (h : m.Fires a fired b)
    (ha : m.Known a) : m.Known b := by
  refine (h.keeps (I := m.Known) ha fun a transitions hs ha => ?_).2
  exact ha.microstep hc (declares_of_selects hc (fun n hn => ha.lt_size hn) hs)

/-- The set that a call begins with, and where it ends if it goes through. -/
inductive Ends (m : Machine γ) : Active → Progress → Prop
  | initial {context : γ} {q : Progress} : m.begin context = .ok q → Ends m m.initialStep.active q
  | transition {configuration : Configuration} {a : Active} {context : γ} {event : Event}
      {q : Progress} : m.resolve configuration = .ok a →
      m.react a context event = .ok (some q) → Ends m a q

/-- A call leads from the one to the other by microsteps. -/
theorem Ends.exists_fires (h : m.Ends a q) : ∃ fired, m.Fires a fired q.active := by
  cases h with
  | initial hbegin =>
    obtain ⟨fired, hsettles⟩ := exists_settles hbegin
    exact ⟨fired, hsettles.fires⟩
  | transition _ hreact =>
    obtain ⟨r, rs, fired, hs, hsettles⟩ := exists_settles_of_react hreact
    exact ⟨_, .cons ⟨_, _, hs⟩ hsettles.fires⟩

end Statechart.Machine
