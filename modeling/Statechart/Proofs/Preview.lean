/-
# Statechart.Proofs.Preview -- which events move a machine, and which it lists

An event fires nothing exactly if every candidate for it on an active state is refused
(`Machine.select_eq_nil`). A leaf looks only at the states around it, but within every active state
there is a leaf, and it passes a candidate only if that is refused; and where there is a choice,
conflict removal keeps one (`Transition.withoutConflicts_eq_nil`).

The events that a configuration lists are the names with a candidate on an active state
(`Machine.mem_eventNames`), so what is not listed moves nothing, and what is listed moves the
machine if nothing can refuse the candidate (`Machine.nextEvents_previews`).
-/

import Statechart.Proofs.Chart.Intact
import Statechart.Proofs.Run

namespace Statechart

variable {γ : Type} {m : Machine γ} {a : Active} {context : γ} {event : Event} {r : Transition}
  {configuration : Configuration} {n : Nat} {name : String}

/-! ## Conflict removal -/

theorem Contender.contend_ne_nil (t : Tree) (kept : List Contender) (r : Contender) :
    contend t kept r ≠ [] := by
  cases kept with
  | nil => simp [contend]
  | cons s kept =>
    unfold contend
    split <;> simp

/-- Conflict removal leaves nothing only of nothing. -/
theorem Transition.withoutConflicts_eq_nil {t : Tree} {chosen : List Transition} :
    withoutConflicts t a chosen = [] ↔ chosen = [] := by
  constructor
  · intro h
    -- whichever choice is taken in last, something is kept
    rcases List.eq_nil_or_concat chosen with rfl | ⟨before, last, rfl⟩
    · rfl
    · simp only [withoutConflicts, List.concat_eq_append, List.map_append, List.map_cons,
        List.map_nil, List.foldl_append, List.foldl_cons, List.foldl_nil, List.map_eq_nil_iff] at h
      exact absurd h (Contender.contend_ne_nil t _ _)
  · rintro rfl
    rfl

namespace Machine

/-! ## Events without effect -/

theorem decides_eq_false_iff :
    m.decides a context event r = false ↔ m.isEnabled a context event r = .ok false := by
  refine ⟨fun h => ?_, decides_eq_false⟩
  by_contra hnot
  rw [decides_of_not_false hnot] at h
  cases h

/-- A leaf whose search ends at no candidate refuses all of them. -/
theorem decided?_eq_none {l : Nat} : m.decided? a context event l = none ↔
    ∀ n, m.Within l n → ∀ r ∈ m.candidates n event.name,
      m.isEnabled a context event r = .ok false := by
  simp only [decided?, candidatesFrom, List.find?_eq_none, Bool.not_eq_true,
    decides_eq_false_iff, List.mem_flatMap]
  constructor
  · exact fun h n hn r hr => h r ⟨n, hn, hr⟩
  · rintro h r ⟨n, hn, hr⟩
    exact h n hn r hr

/-- An event selects nothing exactly if each leaf refuses all of its candidates. -/
theorem select_eq_nil_iff_leaves (hc : m.WellFormed) (hlt : ∀ n ∈ a, n < m.size) :
    m.select a context event = .ok [] ↔
      ∀ l ∈ a.leaves m.toTree, m.decided? a context event l = none := by
  rcases select_cases hc hlt context event with
    ⟨f, l, herr, hl, ⟨r, hr, -⟩, -⟩ | ⟨chosen, kept, hok, hgathered, harb⟩
  · rw [herr]
    refine ⟨nofun, fun h => ?_⟩
    rw [h l hl] at hr
    cases hr
  · rw [hok, Except.ok.injEq]
    constructor
    · rintro rfl l hl
      by_contra hne
      obtain ⟨r, hr⟩ := Option.ne_none_iff_exists'.mp hne
      cases he : m.isEnabled a context event r with
      | error f => exact hgathered.not_fails l hl f ⟨r, hr, he⟩
      | ok b =>
        cases b with
        | false =>
          have hdecides := List.find?_some hr
          rw [decides_eq_false he] at hdecides
          cases hdecides
        | true =>
          -- what is chosen is kept, or something that wins over it is
          obtain ⟨w, hw, -⟩ := harb.beaten r (hgathered.mem l hl r ⟨hr, he⟩) List.not_mem_nil
          exact absurd hw List.not_mem_nil
    · intro h
      refine List.eq_nil_iff_forall_not_mem.mpr fun r hr => ?_
      obtain ⟨l, hl, hchooses⟩ := hgathered.chosen_by r (harb.sublist.subset hr)
      have hsome := hchooses.1
      rw [h l hl] at hsome
      cases hsome

/-- An event selects nothing exactly if every candidate for it on an active state is refused. -/
theorem select_eq_nil (hc : m.WellFormed) (ha : m.Rooted a) :
    m.select a context event = .ok [] ↔
      ∀ n ∈ a, ∀ r ∈ m.candidates n event.name, m.isEnabled a context event r = .ok false := by
  simp only [select_eq_nil_iff_leaves hc (fun _ => ha.lt_size), decided?_eq_none]
  constructor
  · intro h n hn
    obtain ⟨l, hl, hln⟩ := hc.exists_leaf ha.lt_size hn
    exact h l hl n hln
  · exact fun h l hl n hln => h n (ha.mem_of_within hc (Chart.mem_leaves.mp hl).1 hln)

/-- A call moves nothing exactly if every candidate on an active state is refused. -/
theorem unchanged_iff_refused (hc : m.WellFormed) (ha : m.resolve configuration = .ok a) :
    m.transition configuration context event = .ok .unchanged ↔
      ∀ n ∈ a, ∀ r ∈ m.candidates n event.name, m.isEnabled a context event r = .ok false := by
  rw [transition_eq_unchanged, ← select_eq_nil hc (hc.rooted_of_resolve (resolve_eq_ok.mp ha)), ha]
  simp

/-- A candidate on an active state that nothing can refuse lets its event move something. -/
theorem transition_ne_unchanged (hc : m.WellFormed) (ha : m.resolve configuration = .ok a)
    (hn : n ∈ a) (hr : r ∈ m.candidates n event.name) (hguard : r.guard = none)
    (hin : r.inState = none) : m.transition configuration context event ≠ .ok .unchanged := by
  rw [Ne, unchanged_iff_refused hc ha]
  intro h
  have hfalse := h n hn r hr
  simp [isEnabled, hguard, hin] at hfalse

/-! ## Listed events -/

/-- The names of the events that some states have candidates for, done events left out. -/
def eventNames (m : Machine γ) (a : Active) : SortedSet String :=
  .ofList ((a.states.toList.flatMap m.events).filter (fun e => !Event.isDoneName e))

theorem nextEvents_eq (ha : m.resolve configuration = .ok a) :
    m.nextEvents configuration = .ok (m.eventNames a).toList := by
  unfold nextEvents
  rw [ha]
  rfl

/-- A state lists the events that it has candidates for. -/
theorem Intact.mem_events (h : m.Intact) : name ∈ m.events n ↔ m.candidates n name ≠ [] := by
  refine ⟨h.candidates_ne_nil, fun hne => ?_⟩
  unfold Chart.candidates at hne
  cases hget : (m.behaviour n).on.get? name with
  | none => simp [hget] at hne
  | some rs => exact List.mem_map.mpr ⟨(name, rs), SortedMap.mem_toList.mpr hget, rfl⟩

theorem mem_eventNames (h : m.Intact) : name ∈ m.eventNames a ↔
    Event.isDoneName name = false ∧ ∃ n ∈ a, m.candidates n name ≠ [] := by
  simp only [eventNames, SortedSet.mem_ofList, List.mem_filter, List.mem_flatMap, h.mem_events,
    Bool.not_eq_true']
  exact and_comm

/-- Events whose candidates all give an answer move nothing exactly if none of these is enabled;
conflict removal keeps one of any choices that there are. The events that are listed, in order and
each once, are those with a candidate on an active state, except done events. What else there is
moves nothing, whatever the context and the payload; and what is listed always moves something, or
fails, if a candidate for it has neither a guard nor a state that must be active. -/
theorem nextEvents_previews {d : Description} {guards : Guards γ} {options : Options}
    (hm : d.compile guards options = .ok m) (ha : m.resolve configuration = .ok a) :
    (∀ context event,
        (∀ n ∈ a, ∀ r ∈ m.candidates n event.name, ∀ f, m.isEnabled a context event r ≠ .error f) →
        (m.transition configuration context event = .ok .unchanged ↔
          ¬ ∃ n ∈ a, ∃ r ∈ m.candidates n event.name, m.isEnabled a context event r = .ok true)) ∧
      (∀ chosen, chosen ≠ [] → Transition.withoutConflicts m.toTree a chosen ≠ []) ∧
      ∃ names, m.nextEvents configuration = .ok names ∧ names.Pairwise (· < ·) ∧
        (∀ name, name ∈ names ↔
          Event.isDoneName name = false ∧ ∃ n ∈ a, m.candidates n name ≠ []) ∧
        (∀ name ∉ names, Event.isDoneName name = false → ∀ context payload,
          m.transition configuration context ⟨name, payload⟩ = .ok .unchanged) ∧
        ∀ name ∈ names,
          (∃ n ∈ a, ∃ r ∈ m.candidates n name, r.guard = none ∧ r.inState = none) →
          ∀ context payload,
            m.transition configuration context ⟨name, payload⟩ ≠ .ok .unchanged := by
  have hc := Description.wellFormed_of_compile hm
  have hintact := Description.intact_of_compile hm
  refine ⟨fun context event hanswers => ?_,
    fun _ hne => mt Transition.withoutConflicts_eq_nil.mp hne,
    _, nextEvents_eq ha, (m.eventNames a).ascending, fun name => mem_eventNames hintact, ?_, ?_⟩
  · rw [unchanged_iff_refused hc ha]
    constructor
    · rintro h ⟨n, hn, r, hr, henabled⟩
      rw [h n hn r hr] at henabled
      cases henabled
    · intro hnone n hn r hr
      rcases he : m.isEnabled a context event r with f | _ | _
      · exact absurd he (hanswers n hn r hr f)
      · rfl
      · exact absurd ⟨n, hn, r, hr, he⟩ hnone
  · intro name hname hdone context payload
    rw [unchanged_iff_refused hc ha]
    intro n hn r hr
    exact absurd ((mem_eventNames hintact).mpr ⟨hdone, n, hn, List.ne_nil_of_mem hr⟩) hname
  · rintro name - ⟨n, hn, r, hr, hguard, hin⟩ context payload
    exact transition_ne_unchanged hc ha hn hr hguard hin

/-- The idle lift, from outside. -/
def lift.idle : Configuration := ⟨.ofList ["lift.idle"], .empty⟩

/-- The idle lift can be called and resumed: there is power, and resuming asks for nothing. It
cannot be stopped. -/
theorem lift_listens : lift.nextEvents lift.idle = .ok ["CALL", "RESUME"] ∧
    lift.transition lift.idle () (.named "CALL") ≠ .ok .unchanged ∧
    (∀ payload, lift.transition lift.idle () ⟨"RESUME", payload⟩ ≠ .ok .unchanged) ∧
    ∀ payload, lift.transition lift.idle () ⟨"STOP", payload⟩ = .ok .unchanged := by
  have hidle : lift.resolve lift.idle = .ok ⟨.ofList [0, 1], .empty⟩ := by decide +kernel
  have hlisted : lift.nextEvents lift.idle = .ok ["CALL", "RESUME"] := by decide +kernel
  obtain ⟨hmoves, -, names, hnames, -, -, hother, hfree⟩ := nextEvents_previews compile_lift hidle
  obtain rfl := Except.ok.inj (hlisted.symm.trans hnames)
  refine ⟨hlisted, ?_, fun payload => ?_, fun payload => ?_⟩
  · -- its one candidate is that of the idle state
    have hcall : ∀ n ∈ (SortedSet.ofList [0, 1]).toList, ∀ r ∈ lift.candidates n "CALL",
        lift.isEnabled ⟨.ofList [0, 1], .empty⟩ () (.named "CALL") r = .ok true := by
      decide +kernel
    rw [Ne, hmoves () (.named "CALL") fun n hn r hr f => by rw [hcall n hn r hr]; exact nofun,
      not_not]
    exact ⟨1, by decide +kernel, ⟨1, "CALL", 0, [2], some "powered", some 1, [], false⟩,
      by decide +kernel, by decide +kernel⟩
  · exact hfree "RESUME" (by simp) ⟨1, by decide +kernel,
      ⟨1, "RESUME", 0, [6, 9], none, none, [], false⟩, by decide +kernel, rfl, rfl⟩ () payload
  · exact hother "STOP" (by simp) (by decide +kernel) () payload

end Machine

end Statechart
