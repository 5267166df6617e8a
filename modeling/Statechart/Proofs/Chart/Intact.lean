/-
# Statechart.Proofs.Chart.Intact -- nothing in a compiled machine points astray

A machine is run without looking again at what it was compiled from: every number that it holds is
taken for a state, every name of a guard for a guard that there is. `Machine.Intact` says what may
be taken for granted, kind by kind and transition by transition, and compilation guarantees it
(`Description.intact_of_compile`).
-/

import Statechart.Proofs.Entry.Coherent
import Statechart.Proofs.Sorted.Map

namespace Statechart

/-- What may be taken for granted in a machine. -/
structure Machine.Intact {γ : Type} (m : Machine γ) : Prop where
  /-- Each state has a place and a behaviour. -/
  behaviours_size : m.behaviours.size = m.size
  parent_lt : ∀ {n p}, m.parent? n = some p → p < m.size
  child_lt : ∀ {n q}, q ∈ m.children n → q < m.size
  initial_lt : ∀ {n i}, m.initial? n = some i → i < m.size
  default_lt : ∀ {h x}, m.historyDefault? h = some x → x < m.size
  source_lt : ∀ {n event r}, r ∈ m.candidates n event → r.source < m.size
  target_lt : ∀ {n event r x}, r ∈ m.candidates n event → x ∈ r.targets → x < m.size
  inState_lt : ∀ {n event r x}, r ∈ m.candidates n event → r.inState = some x → x < m.size
  exists_initial : ∀ {n}, m.kind n = .compound → ∃ i ∈ m.regions n, m.initial? n = some i
  regions_ne_nil : ∀ {n}, m.kind n = .parallel → m.regions n ≠ []
  children_eq_nil : ∀ {n}, m.kind n = .atomic ∨ m.kind n = .final ∨ (m.kind n).isHistory = true →
    m.children n = []
  events_eq_nil : ∀ {n}, m.kind n = .final ∨ (m.kind n).isHistory = true → m.events n = []
  root_not_history : (m.kind Tree.root).isHistory = false
  /-- Only history states fall back, and only to states below their parent. -/
  default_below : ∀ {h x}, m.historyDefault? h = some x →
    (m.kind h).isHistory = true ∧ ∃ p, m.parent? h = some p ∧ m.Below x p
  guard_registered : ∀ {n event r guard}, r ∈ m.candidates n event → r.guard = some guard →
    m.guards.contains guard = true
  /-- Every two targets lie in different children of a parallel state. -/
  targets_parted : ∀ {n event r}, r ∈ m.candidates n event → r.targets.Pairwise m.Parted
  candidates_ne_nil : ∀ {n event}, event ∈ m.events n → m.candidates n event ≠ []
  /-- A candidate knows where it is listed. -/
  listed : ∀ {n event} {i : Nat} {r : Transition}, (m.candidates n event)[i]? = some r →
    r.source = n ∧ r.event = event ∧ r.position = i
  /-- Candidates that agree in source, event and position are listed in one place. -/
  listed_once : ∀ {n n' event event'} {i j : Nat} {r s : Transition},
    (m.candidates n event)[i]? = some r → (m.candidates n' event')[j]? = some s →
      r.isSame s = true → n = n' ∧ event = event' ∧ i = j

/-! ## Declarations -/

namespace Tree

variable {t : Tree} {n m : Nat} {s : State}

/-- What an `in` condition means is a state. -/
theorem resolveInState?_lt {reference : String} (h : t.resolveInState? reference = some m)
    (ht : t.InOrder) : m < t.size := by
  unfold resolveInState? at h
  split at h
  · exact resolveReference?_lt h ht
  · exact descend?_lt h ht.size_pos ht

/-- An event without candidates has no entry. -/
theorem candidatesOf_ne_nil : ∀ {event rs}, (t.candidatesOf n s).get? event = some rs →
    rs ≠ [] := by
  refine candidatesOf_induction (I := fun on => ∀ {event rs}, on.get? event = some rs → rs ≠ [])
    ?_ ?_
  · intro event rs h
    cases h
  · intro on e _ ih event rs h
    unfold Tree.addCandidates at h
    split at h
    · exact ih h
    · rename_i hforms
      rw [SortedMap.modify, SortedMap.get?_insert] at h
      split at h
      · obtain rfl := Option.some.inj h
        -- the forms of the declaration are not empty, so neither are the candidates for them
        simpa using fun _ => hforms
      · exact ih h

/-- A state that declares no transitions has no candidates. -/
theorem candidatesOf_eq_empty (h : s.declaresTransitions = false) :
    t.candidatesOf n s = .empty := by
  rw [State.declaresTransitions, Bool.or_eq_false_iff, Bool.not_eq_false', SortedMap.isEmpty,
    List.isEmpty_iff, Option.isSome_eq_false_iff, Option.isNone_iff_eq_none] at h
  simp [candidatesOf, State.declared, h]

end Tree

namespace Description

variable {γ : Type} {d : Description} {guards : Guards γ} {options : Options} {m : Machine γ}
  {n : Nat} {s : State}

theorem size_behaviours (d : Description) : d.chart.behaviours.size = d.tree.size := by
  simp [chart, size_tree, states]

/-- Only compound states begin somewhere. -/
theorem kind_of_initial {i : Nat} (h : d.chart.initial? n = some i) :
    d.tree.kind n = .compound := by
  by_cases hn : n < d.tree.size
  · obtain ⟨s, hs, -⟩ := exists_state hn
    rw [Chart.initial?, behaviour_chart hs, Tree.behaviourOf] at h
    split at h
    · assumption
    · cases h
  · rw [Chart.initial?, behaviour_chart_of_size_le (Nat.le_of_not_lt hn)] at h
    cases h

/-- Final states and history states have no candidates. -/
theorem events_eq_nil_of_accepted {hasGuard : String → Bool} (h : d.violations hasGuard = [])
    (hk : d.tree.kind n = .final ∨ (d.tree.kind n).isHistory = true) : d.chart.events n = [] := by
  have hne : d.tree.kind n ≠ .atomic := by
    rintro he
    simp [he, Kind.isHistory] at hk
  obtain ⟨s, hs, -⟩ := exists_state (lt_size_of_kind_ne hne)
  have hv := structureViolations_eq_nil h hs
  simp only [Tree.structureViolations, List.append_eq_nil_iff] at hv
  have hnone : s.declaresTransitions = false := by
    by_contra hdeclares
    rcases hk with hk | hk
    · simp [hk, hdeclares, Tree.finalViolations] at hv
    · obtain ⟨depth, hdepth⟩ := Kind.exists_depth hk
      cases hp : d.tree.parent? n <;> simp [hdepth, hp, hdeclares, Tree.historyViolations] at hv
  rw [Chart.events, behaviour_chart hs]
  show (d.tree.candidatesOf n s).keys = []
  rw [Tree.candidatesOf_eq_empty hnone]
  rfl

/-- The event of a chart's entry has candidates. -/
theorem candidates_ne_nil_chart {event : String} (h : event ∈ d.chart.events n) :
    d.chart.candidates n event ≠ [] := by
  by_cases hn : n < d.tree.size
  · obtain ⟨s, hs, -⟩ := exists_state hn
    rw [Chart.events, behaviour_chart hs] at h
    rw [Chart.candidates, behaviour_chart hs]
    obtain ⟨⟨event, rs⟩, he, rfl⟩ := List.mem_map.mp h
    have hget := SortedMap.mem_toList.mp he
    have hne := Tree.candidatesOf_ne_nil hget
    rwa [hget, Option.getD_some]
  · rw [Chart.events, behaviour_chart_of_size_le (Nat.le_of_not_lt hn)] at h
    exact absurd h List.not_mem_nil

/-- The guards named by the candidates of an accepted description are there, and their `in`
conditions mean states. -/
theorem conditions_of_accepted {hasGuard : String → Bool} (h : d.violations hasGuard = [])
    {event : String} {r : Transition} (hr : r ∈ d.chart.candidates n event) :
    (∀ guard, r.guard = some guard → hasGuard guard = true) ∧
      ∀ x, r.inState = some x → x < d.tree.size := by
  obtain ⟨i, hi⟩ := List.mem_iff_getElem?.mp hr
  obtain ⟨-, s, spec, hs, hspec, rfl⟩ := candidate_of_getElem? hi
  constructor
  · intro guard hguard
    have hv := transitionViolations_eq_nil h hs hspec
    have hguard : spec.guard = some guard := hguard
    simp only [Tree.transitionViolations, List.append_eq_nil_iff, hguard] at hv
    by_contra hnot
    simp [hnot] at hv
  · intro x hx
    obtain ⟨reference, -, hres⟩ := Option.bind_eq_some_iff.mp hx
    exact Tree.resolveInState?_lt hres d.inOrder

/-- What compiles is intact. -/
theorem intact_of_compile (h : d.compile guards options = .ok m) : m.Intact := by
  have hc := wellFormed_of_compile h
  have haccepted := violations_of_compile h
  obtain rfl := compile_eq h
  exact {
    behaviours_size := size_behaviours d
    parent_lt := fun hp => Tree.lt_size_of_child (hc.inOrder.parent?_eq_some.mp hp)
    child_lt := hc.inOrder.child_lt_size
    initial_lt := fun hi => hc.inOrder.child_lt_size
      (Tree.region_child (hc.initial_region (kind_of_initial hi) hi))
    default_lt := fun hx => (hc.default_below hx).2.choose_spec.2.lt_size
    source_lt := by
      intro n event r hr
      obtain ⟨i, hi⟩ := List.mem_iff_getElem?.mp hr
      rw [hc.source_eq hr]
      exact (candidate_of_getElem? hi).1
    target_lt := hc.target_lt
    inState_lt := fun hr hx => (conditions_of_accepted haccepted hr).2 _ hx
    exists_initial := hc.exists_initial
    regions_ne_nil := hc.regions_ne_nil
    children_eq_nil := by
      rintro n hk
      refine hc.children_eq_nil ?_ ?_ <;> rintro he <;> simp [he, Kind.isHistory] at hk
    events_eq_nil := events_eq_nil_of_accepted haccepted
    root_not_history := hc.root_not_history
    default_below := by
      intro h x hx
      obtain ⟨hk, p, hp, hbelow⟩ := hc.default_below hx
      exact ⟨hk, p, hc.inOrder.parent?_child hp, hbelow⟩
    guard_registered := fun hr hguard => (conditions_of_accepted haccepted hr).1 _ hguard
    targets_parted := fun hr => (hc.targets_apart hr).imp_of_mem fun hx hy hxy =>
      hc.parted_of_areApart (hc.target_lt hr hx) (hc.target_lt hr hy) hxy
    candidates_ne_nil := candidates_ne_nil_chart
    listed := fun hi => ⟨hc.source_eq (List.mem_of_getElem? hi),
      hc.event_eq (List.mem_of_getElem? hi), hc.position_eq hi⟩
    listed_once := by
      intro n n' event event' i j r s hi hj hsame
      simp only [Transition.isSame, Bool.and_eq_true, decide_eq_true_eq] at hsame
      rw [hc.source_eq (List.mem_of_getElem? hi), hc.event_eq (List.mem_of_getElem? hi),
        hc.position_eq hi, hc.source_eq (List.mem_of_getElem? hj),
        hc.event_eq (List.mem_of_getElem? hj), hc.position_eq hj] at hsame
      exact ⟨hsame.1.1, hsame.1.2, hsame.2⟩ }

/-! ## A lift -/

/-- A state with a key, which reports when it is entered and when it is left. -/
def reporting (key : String) (s : State) : String × State :=
  (key, { s with entry := [.named ("+" ++ key)], exit := [.named ("-" ++ key)] })

/-- A lift that goes when it is called, if there is power. It ends a ride when the cabin is there,
and resumes a ride that was stopped with the doors as they were. -/
def lift : Description where
  id := "lift"
  root := { State.empty with
    initial := some "idle"
    entry := [.named "+lift"]
    exit := [.named "-lift"]
    states := [
      reporting "idle" { State.empty with on := .ofList [
        ("CALL", [.detailed { TransitionSpec.empty with
          targets := ["going"], guard := some "powered", inState := some "idle" }]),
        ("RESUME", [.detailed { TransitionSpec.empty with
          targets := ["going.doors.before", "going.cabin.fast"] }])] },
      reporting "going" { State.empty with
        kind := some .parallel
        states := [
          reporting "doors" { State.empty with
            initial := some "shut"
            states := [
              reporting "shut" { State.empty with on := .ofList [("HALT", [.target "open"])] },
              reporting "open" { State.empty with on := .ofList [("GO", [.target "shut"])] },
              ("before", { State.empty with
                history := some .shallow, target := some "shut" })] },
          reporting "cabin" { State.empty with
            initial := some "slow"
            onDone := some [.target "#lift.idle"]
            states := [
              reporting "slow" { State.empty with on := .ofList [("GO", [.target "fast"])] },
              reporting "fast" { State.empty with on := .ofList [("HALT", [.target "there"])] },
              reporting "there" { State.empty with kind := some .final }] }]
        on := .ofList [("STOP", [.target "idle"])] }] }

end Description

namespace Machine

/-- The lift with power. -/
def lift : Machine Unit :=
  { Description.lift.chart with
    guards := .ofList [("powered", ⟨fun _ _ => .ok true⟩)], options := .standard }

theorem compile_lift :
    Description.lift.compile (.ofList [("powered", ⟨fun _ _ => .ok true⟩)]) .standard = .ok lift :=
  Description.compile_of_accepted (by decide +kernel)

/-- A call of the lift is guarded by a guard that there is; what a ride is resumed with lies in
different regions, and the history state among it falls back to a state beside it. -/
theorem lift_intact : (∃ r ∈ lift.candidates 1 "CALL", r.inState = some 1 ∧ 1 < lift.size ∧
      r.guard = some "powered" ∧ lift.guards.contains "powered" = true) ∧
    (∃ r ∈ lift.candidates 1 "RESUME", r.targets = [6, 9] ∧ r.targets.Pairwise lift.Parted) ∧
    ∃ p, lift.historyDefault? 6 = some 4 ∧ lift.parent? 6 = some p ∧ lift.Below 4 p := by
  have hintact := Description.intact_of_compile compile_lift
  have hcall : ⟨1, "CALL", 0, [2], some "powered", some 1, [], false⟩ ∈
      lift.candidates 1 "CALL" := by decide +kernel
  have hresume : ⟨1, "RESUME", 0, [6, 9], none, none, [], false⟩ ∈
      lift.candidates 1 "RESUME" := by decide +kernel
  have hdefault : lift.historyDefault? 6 = some 4 := by decide +kernel
  obtain ⟨-, p, hp, hbelow⟩ := hintact.default_below hdefault
  exact ⟨⟨_, hcall, rfl, hintact.inState_lt hcall rfl, rfl, hintact.guard_registered hcall rfl⟩,
    ⟨_, hresume, rfl, hintact.targets_parted hresume⟩, p, hdefault, hp, hbelow⟩

end Machine

end Statechart
