/-
# Statechart.Proofs.Chart.WellFormed -- what compilation guarantees

A chart is walked without further checks, so everything rests on the form that a description must
have to be compiled: states begin in children of their own, parallel states have regions, history
states fall back to states beside or below them, ids name one state each, and the candidates for an
event are listed on their source by position. `Chart.WellFormed` collects this, and a description
that breaks no rule has a well-formed chart (`Description.wellFormed_of_compile`).
-/

import Statechart.Proofs.Sorted.Map
import Statechart.Proofs.Tree.Layout

namespace Statechart

/-- The form of a chart that everything else relies on. -/
structure Chart.WellFormed (c : Chart) : Prop where
  inOrder : c.toTree.InOrder
  root_not_history : (c.kind Tree.root).isHistory = false
  /-- A compound state begins in a child of its own. -/
  exists_initial : ∀ {n}, c.kind n = .compound → ∃ i ∈ c.regions n, c.initial? n = some i
  regions_ne_nil : ∀ {n}, c.kind n = .parallel → c.regions n ≠ []
  children_eq_nil : ∀ {n}, c.kind n ≠ .compound → c.kind n ≠ .parallel → c.children n = []
  /-- Only history states fall back, and only to states below their parent. -/
  default_below : ∀ {h x}, c.historyDefault? h = some x →
    (c.kind h).isHistory = true ∧ ∃ p, h ∈ c.children p ∧ c.Below x p
  lookup?_id : ∀ {n}, n < c.size → c.lookup? (c.id n) = some n
  source_eq : ∀ {n event r}, r ∈ c.candidates n event → r.source = n
  event_eq : ∀ {n event r}, r ∈ c.candidates n event → r.event = event
  position_eq : ∀ {n event i} {r : Transition}, (c.candidates n event)[i]? = some r → r.position = i
  target_lt : ∀ {n event r x}, r ∈ c.candidates n event → x ∈ r.targets → x < c.size
  /-- Every two targets lie in different regions of one parallel state. -/
  targets_apart : ∀ {n event r}, r ∈ c.candidates n event →
    r.targets.Pairwise (fun a b => c.areApart a b = true)

/-- What a state does is listed, unless it does nothing. -/
theorem Chart.behaviour_cases (c : Chart) (n : Nat) : c.behaviour n ∈ c.behaviours.toList ∨
    c.behaviour n = ⟨none, none, .empty, [], []⟩ := by
  unfold Chart.behaviour
  cases h : c.behaviours[n]? with
  | none => exact Or.inr rfl
  | some b => exact Or.inl (Array.mem_toList_iff.mpr (Array.mem_of_getElem? h))

/-- It is enough to look at the default targets that are listed. -/
theorem Chart.forall_historyDefault {c : Chart} {P : Nat → Prop}
    (h : ∀ b ∈ c.behaviours.toList, ∀ x ∈ b.historyDefault, P x) :
    ∀ {n}, ∀ x ∈ c.historyDefault? n, P x := by
  intro n x hx
  rcases c.behaviour_cases n with hb | hb
  · exact h _ hb x hx
  · simp [historyDefault?, hb] at hx

/-- It is enough to look at the candidates that are listed. -/
theorem Chart.forall_candidates {c : Chart} {P : Transition → Prop}
    (h : ∀ b ∈ c.behaviours.toList, ∀ e ∈ b.on.toList, ∀ r ∈ e.2, P r) :
    ∀ {n event}, ∀ r ∈ c.candidates n event, P r := by
  intro n event r hr
  unfold candidates at hr
  rcases c.behaviour_cases n with hb | hb
  · cases hget : (c.behaviour n).on.get? event with
    | none => simp [hget] at hr
    | some rs =>
      rw [hget, Option.getD_some] at hr
      exact h _ hb _ (SortedMap.mem_toList.mpr hget) r hr
  · simp [hb] at hr

/-! ## Kinds -/

theorem Kind.exists_depth {k : Kind} (h : k.isHistory = true) : ∃ depth, k = .history depth := by
  cases k with
  | history depth => exact ⟨depth, rfl⟩
  | atomic | compound | parallel | final => exact absurd h Bool.false_ne_true

namespace Chart.WellFormed

variable {c : Chart} (hc : c.WellFormed) {m n q : Nat}
include hc

/-- A state with children is compound or parallel. -/
theorem kind_of_child (h : q ∈ c.children n) : c.kind n = .compound ∨ c.kind n = .parallel := by
  by_contra hk
  rw [not_or] at hk
  rw [hc.children_eq_nil hk.1 hk.2] at h
  exact List.not_mem_nil h

theorem not_history_of_child (h : q ∈ c.children n) : (c.kind n).isHistory = false := by
  rcases hc.kind_of_child h with h | h <;> rw [h] <;> rfl

/-- A child with a state inside that is no history state is a region. -/
theorem region_of_within (hq : q ∈ c.children n) (hm : c.Within m q)
    (hk : (c.kind m).isHistory = false) : q ∈ c.regions n := by
  refine Tree.mem_regions.mpr ⟨hq, ?_⟩
  rcases Tree.within_iff.mp hm with rfl | hbelow
  · exact hk
  · obtain ⟨b, hb, -⟩ := hc.inOrder.exists_child_within hbelow
    exact hc.not_history_of_child hb

theorem initial_region (hk : c.kind n = .compound) (hi : c.initial? n = some q) :
    q ∈ c.regions n := by
  obtain ⟨i, hreg, hi'⟩ := hc.exists_initial hk
  rw [hi] at hi'
  exact Option.some.inj hi' ▸ hreg

end Chart.WellFormed

/-! ## Names -/

theorem not_mem_taken_of_repeatedNames {taken names : List String}
    (h : repeatedNames taken names = []) : ∀ x ∈ names, x ∉ taken := by
  induction names generalizing taken with
  | nil => simp
  | cons name rest ih =>
    rw [repeatedNames, List.append_eq_nil_iff] at h
    intro x hx
    rcases List.mem_cons.mp hx with rfl | hx
    · intro hmem
      simp [hmem] at h
    · exact fun hmem => ih h.2 x hx (List.mem_cons_of_mem name hmem)

namespace Tree

variable {t : Tree} {n m : Nat}

/-- No name of a place is taken before, nor by another place. -/
theorem names_of_nameViolations {taken : List String} {places : List Place}
    (h : t.nameViolations taken places = []) :
    (∀ p ∈ places, ∀ x ∈ p.names, x ∉ taken) ∧
      places.Pairwise (fun p q => ∀ x ∈ q.names, x ∉ p.names) := by
  induction places generalizing taken with
  | nil => simp
  | cons p rest ih =>
    rw [nameViolations, List.append_eq_nil_iff, List.append_eq_nil_iff] at h
    obtain ⟨hfree, hdistinct⟩ := ih h.2
    have hp := not_mem_taken_of_repeatedNames h.1.2
    refine ⟨fun q hq x hx => ?_, List.pairwise_cons.mpr ⟨fun q hq x hx => ?_, hdistinct⟩⟩
    · rcases List.mem_cons.mp hq with rfl | hq
      · exact hp x hx
      · exact fun hmem => hfree q hq x hx (List.mem_append_right p.names hmem)
    · exact fun hmem => hfree q hq x hx (List.mem_append_left taken hmem)

theorem mem_names {p : Place} {name : String} :
    name ∈ p.names ↔ p.id = name ∨ p.label = some name := by
  unfold Place.names
  cases p.label with
  | none => simp [eq_comm]
  | some label =>
    by_cases hlabel : label = p.id
    · subst hlabel
      simp [eq_comm]
    · simp [hlabel, eq_comm]

theorem lookup?_lt {name : String} (h : t.lookup? name = some n) : n < t.size :=
  (Array.findIdx?_eq_some_iff_getElem.mp h).1

/-- Where names tell places apart, each of them is looked up to the state that has it. -/
theorem lookup?_eq_some_of_pairwise {name : String}
    (h : t.places.toList.Pairwise (fun p q => ∀ x ∈ q.names, x ∉ p.names)) :
    t.lookup? name = some n ↔ n < t.size ∧ name ∈ (t.place n).names := by
  have hplace : ∀ hn : n < t.size, t.place n = t.places[n] := fun hn => by
    simp [place, place?, Array.getElem?_eq_getElem hn]
  rw [lookup?, Array.findIdx?_eq_some_iff_getElem]
  constructor
  · rintro ⟨hn, hname, -⟩
    exact ⟨hn, by simpa [hplace hn] using hname⟩
  · rintro ⟨hn, hname⟩
    rw [hplace hn] at hname
    -- none before has it among its names
    refine ⟨hn, by simpa using hname, fun j hj => ?_⟩
    have hjn := List.pairwise_iff_getElem.mp h j n (Nat.lt_trans hj hn) hn hj
    simpa using hjn name hname

theorem lookup?_id_of_pairwise
    (h : t.places.toList.Pairwise (fun p q => ∀ x ∈ q.names, x ∉ p.names)) (hn : n < t.size) :
    t.lookup? (t.id n) = some n :=
  (lookup?_eq_some_of_pairwise h).mpr ⟨hn, mem_names.mpr (Or.inl rfl)⟩

/-! ## References -/

theorem descend?_lt {keys : List String} (h : t.descend? n keys = some m) (hn : n < t.size)
    (ht : t.InOrder) : m < t.size := by
  induction keys generalizing n with
  | nil =>
    cases h
    exact hn
  | cons key keys ih =>
    rw [descend?, List.foldlM_cons] at h
    obtain ⟨c, hc, h⟩ := Option.bind_eq_some_iff.mp h
    exact ih h (ht.child_lt_size (List.mem_of_find?_eq_some hc))

theorem resolveReference?_lt {reference : List Char} (h : t.resolveReference? reference = some m)
    (ht : t.InOrder) : m < t.size := by
  unfold resolveReference? at h
  split at h
  · rename_i k hk
    cases h
    exact lookup?_lt hk
  · obtain ⟨parts, -, h⟩ := Option.bind_eq_some_iff.mp h
    obtain ⟨k, hk, h⟩ := Option.bind_eq_some_iff.mp h
    exact descend?_lt h (lookup?_lt hk) ht

/-- What a target means is a state. -/
theorem resolveTarget?_lt {target : String} (h : t.resolveTarget? n target = some m)
    (hn : n < t.size) (ht : t.InOrder) : m < t.size := by
  unfold resolveTarget? at h
  split at h
  · exact resolveReference?_lt h ht
  · exact descend?_lt h hn ht
  · refine descend?_lt h ?_ ht
    cases hp : t.parent? n with
    | none => exact hn
    | some p => exact lt_size_of_child (ht.parent?_eq_some.mp hp)

/-! ## Candidates -/

theorem areAllApart_iff {l : List Nat} :
    t.areAllApart l = true ↔ l.Pairwise (fun a b => t.areApart a b = true) := by
  induction l with
  | nil => simp [areAllApart]
  | cons a rest ih => simp [areAllApart, ih]

/-- The declarations of a state for an event. -/
def Declares (t : Tree) (n : Nat) (s : State) (event : String) (spec : TransitionSpec) : Prop :=
  ∃ e ∈ s.declared (t.id n), e.1 = event ∧ ∃ form ∈ e.2, form.spec = spec

/-- Candidates that are listed under their event by position, each from a declaration. -/
def Lists (t : Tree) (n : Nat) (s : State) (on : SortedMap String (List Transition)) : Prop :=
  ∀ event i r, ((on.get? event).getD [])[i]? = some r →
    ∃ spec, t.Declares n s event spec ∧ r = t.candidate n event i spec

theorem Lists.addCandidates {s : State} {on : SortedMap String (List Transition)}
    (h : t.Lists n s on) {e : String × List TransitionForm} (he : e ∈ s.declared (t.id n)) :
    t.Lists n s (t.addCandidates n on e.1 e.2) := by
  unfold Tree.addCandidates
  split
  · exact h
  · intro event i r hr
    rw [SortedMap.modify, SortedMap.get?_insert] at hr
    by_cases hev : event = e.1
    · subst hev
      rw [if_pos rfl, Option.getD_some] at hr
      -- new candidates come behind those that are listed, and are numbered on from there
      by_cases hi : i < ((on.get? e.1).getD []).length
      · rw [List.getElem?_append_left hi] at hr
        exact h e.1 i r hr
      · rw [List.getElem?_append_right (Nat.le_of_not_lt hi), List.getElem?_mapIdx] at hr
        obtain ⟨form, hform, rfl⟩ := Option.map_eq_some_iff.mp hr
        refine ⟨form.spec, ⟨e, he, rfl, form, List.mem_of_getElem? hform, rfl⟩, ?_⟩
        rw [Nat.add_sub_cancel' (Nat.le_of_not_lt hi)]
    · rw [if_neg hev] at hr
      exact h event i r hr

/-- What holds of no candidates and is kept by the declarations of one event more holds of all
candidates of a state. -/
theorem candidatesOf_induction {s : State} {I : SortedMap String (List Transition) → Prop}
    (hempty : I .empty)
    (hadd : ∀ on, ∀ e ∈ s.declared (t.id n), I on → I (t.addCandidates n on e.1 e.2)) :
    I (t.candidatesOf n s) := by
  have key : ∀ l : List (String × List TransitionForm), (∀ e ∈ l, e ∈ s.declared (t.id n)) →
      ∀ on, I on → I (l.foldl (fun on e => t.addCandidates n on e.1 e.2) on) := by
    intro l
    induction l with
    | nil => exact fun _ _ h => h
    | cons e l ih =>
      intro hl on h
      exact ih (fun e' he' => hl e' (List.mem_cons_of_mem e he')) _
        (hadd on e (hl e List.mem_cons_self) h)
  exact key _ (fun _ he => he) _ hempty

theorem lists_candidatesOf (t : Tree) (n : Nat) (s : State) : t.Lists n s (t.candidatesOf n s) := by
  refine candidatesOf_induction ?_ fun on e he h => h.addCandidates he
  intro event i r hr
  simp at hr

end Tree

/-! ## Compilation -/

namespace Description

variable {γ : Type} {d : Description} {guards : Guards γ} {options : Options} {m : Machine γ}

theorem violations_of_compile (h : d.compile guards options = .ok m) :
    d.violations guards.contains = [] := by
  unfold compile at h
  split at h
  · assumption
  · exact absurd h (by simp)

theorem compile_of_accepted (h : d.violations guards.contains = []) :
    d.compile guards options = .ok { d.chart with guards, options } := by
  rw [compile, h]

theorem compile_eq (h : d.compile guards options = .ok m) :
    m = { d.chart with guards, options } := by
  unfold compile at h
  split at h
  · exact (Except.ok.inj h).symm
  · exact absurd h (by simp)

variable {n : Nat} {s : State}

theorem behaviour_chart (hs : d.states[n]? = some s) :
    d.chart.behaviour n = d.tree.behaviourOf n s := by
  simp [Chart.behaviour, chart, hs]

theorem behaviour_chart_of_size_le (hn : d.tree.size ≤ n) :
    d.chart.behaviour n = ⟨none, none, .empty, [], []⟩ := by
  have hs : d.states[n]? = none := by
    rw [states, List.getElem?_map, List.getElem?_eq_none (by rwa [← size_tree])]
    rfl
  simp [Chart.behaviour, chart, hs]

theorem structureViolations_eq_nil {hasGuard : String → Bool} (h : d.violations hasGuard = [])
    (hs : d.states[n]? = some s) : d.tree.structureViolations n s = [] := by
  simp only [violations, List.append_eq_nil_iff, List.flatten_eq_nil_iff] at h
  refine h.1.2 _ (List.mem_of_getElem? (i := n) ?_)
  rw [List.getElem?_mapIdx, hs]
  rfl

theorem allTransitionViolations_eq_nil {hasGuard : String → Bool}
    (h : d.violations hasGuard = []) (hs : d.states[n]? = some s) :
    d.tree.allTransitionViolations hasGuard n s = [] := by
  simp only [violations, List.append_eq_nil_iff, List.flatten_eq_nil_iff] at h
  refine h.2 _ (List.mem_of_getElem? (i := n) ?_)
  rw [List.getElem?_mapIdx, hs]
  rfl

theorem nameViolations_eq_nil {hasGuard : String → Bool} (h : d.violations hasGuard = []) :
    d.tree.nameViolations [] d.tree.places.toList = [] := by
  simp only [violations, List.append_eq_nil_iff] at h
  exact h.1.1.2

theorem exists_state (hn : n < d.tree.size) :
    ∃ s, d.states[n]? = some s ∧ d.tree.kind n = s.effectiveKind ∧
      (s.states.isEmpty = true → d.tree.children n = []) := by
  obtain ⟨s, hs, hkind, hch, -⟩ := exists_block hn
  refine ⟨s, hs, hkind, fun hempty => ?_⟩
  rw [hch, childNumbers_eq_nil]
  exact List.isEmpty_iff.mp hempty

theorem lt_size_of_kind_ne (h : d.tree.kind n ≠ .atomic) : n < d.tree.size := by
  by_contra hn
  rw [Tree.kind, Tree.place_of_size_le (Nat.le_of_not_lt hn)] at h
  exact h rfl

section Accepted

variable {hasGuard : String → Bool} (h : d.violations hasGuard = [])
include h

theorem exists_initial_of_accepted (hk : d.tree.kind n = .compound) :
    ∃ i ∈ d.tree.regions n, d.chart.initial? n = some i := by
  obtain ⟨s, hs, -⟩ := exists_state (lt_size_of_kind_ne (by rw [hk]; exact nofun))
  have hv := structureViolations_eq_nil h hs
  simp only [Tree.structureViolations, hk, List.append_eq_nil_iff, Tree.initialViolations] at hv
  cases hi : s.initial with
  | none => simp [hi] at hv
  | some key =>
    cases hc : d.tree.initialChild? n key with
    | none => simp [hi, hc] at hv
    | some i =>
      obtain ⟨hfind, hhist⟩ := Option.filter_eq_some_iff.mp hc
      refine ⟨i, Tree.mem_regions.mpr ⟨List.mem_of_find?_eq_some hfind, by simpa using hhist⟩, ?_⟩
      simp [Chart.initial?, behaviour_chart hs, Tree.behaviourOf, hk, hi, hc]

theorem regions_ne_nil_of_accepted (hk : d.tree.kind n = .parallel) : d.tree.regions n ≠ [] := by
  obtain ⟨s, hs, -⟩ := exists_state (lt_size_of_kind_ne (by rw [hk]; exact nofun))
  have hv := structureViolations_eq_nil h hs
  simp only [Tree.structureViolations, hk, List.append_eq_nil_iff] at hv
  intro hnil
  simp [hnil] at hv

theorem children_eq_nil_of_accepted (hc : d.tree.kind n ≠ .compound)
    (hp : d.tree.kind n ≠ .parallel) : d.tree.children n = [] := by
  by_cases hn : n < d.tree.size
  · obtain ⟨s, hs, -, hch⟩ := exists_state hn
    -- each other kind reports children as a violation
    have hv := structureViolations_eq_nil h hs
    apply hch
    simp only [Tree.structureViolations, List.append_eq_nil_iff] at hv
    by_contra hne
    cases hk : d.tree.kind n with
    | atomic => simp [hk, hne] at hv
    | compound => exact hc hk
    | parallel => exact hp hk
    | final => simp [hk, hne, Tree.finalViolations] at hv
    | history depth =>
      cases hpar : d.tree.parent? n <;> simp [hk, hne, Tree.historyViolations, hpar] at hv
  · exact Tree.children_of_size_le (Nat.le_of_not_lt hn)

theorem root_not_history_of_accepted : (d.tree.kind Tree.root).isHistory = false := by
  obtain ⟨s, hs, -⟩ := exists_state d.inOrder.size_pos
  have hv := structureViolations_eq_nil h hs
  simp only [Tree.structureViolations, List.append_eq_nil_iff] at hv
  cases hk : d.tree.kind Tree.root with
  | history depth =>
    have hpar := d.inOrder.parent?_root
    rw [Tree.root] at hk hpar
    simp [hk, Tree.historyViolations, hpar] at hv
  | atomic | compound | parallel | final => rfl

/-- No declaration of a state is at fault. -/
theorem transitionViolations_eq_nil (hs : d.states[n]? = some s) {event : String}
    {spec : TransitionSpec} (hspec : d.tree.Declares n s event spec) :
    d.tree.transitionViolations hasGuard n event spec = [] := by
  obtain ⟨e, he, rfl, form, hform, rfl⟩ := hspec
  have hv := allTransitionViolations_eq_nil h hs
  rw [Tree.allTransitionViolations, List.flatMap_eq_nil_iff] at hv
  exact List.flatMap_eq_nil_iff.mp (hv e he) form hform

theorem areAllApart_of_declares (hs : d.states[n]? = some s) {event : String}
    {spec : TransitionSpec} (hspec : d.tree.Declares n s event spec) :
    d.tree.areAllApart (d.tree.resolvedTargets n spec) = true := by
  have hv := transitionViolations_eq_nil h hs hspec
  simp only [Tree.transitionViolations, List.append_eq_nil_iff] at hv
  by_contra hapart
  simp [hapart] at hv

end Accepted

/-- A default target is kept only below the parent of its history state. -/
theorem default_below_chart {x : Nat} (h : d.chart.historyDefault? n = some x) :
    (d.tree.kind n).isHistory = true ∧ ∃ p, n ∈ d.tree.children p ∧ d.tree.Below x p := by
  by_cases hn : n < d.tree.size
  · obtain ⟨s, hs, -⟩ := exists_state hn
    rw [Chart.historyDefault?, behaviour_chart hs] at h
    simp only [Tree.behaviourOf] at h
    split at h
    · rename_i depth p hk hp
      obtain ⟨-, hbelow⟩ := Option.filter_eq_some_iff.mp h
      exact ⟨by rw [hk]; rfl, p, d.inOrder.parent?_eq_some.mp hp, Tree.isBelow_iff.mp hbelow⟩
    · exact absurd h (by simp)
  · rw [Chart.historyDefault?, behaviour_chart_of_size_le (Nat.le_of_not_lt hn)] at h
    exact absurd h (by simp)

/-- A candidate of a chart comes from a declaration on its state. -/
theorem candidate_of_getElem? {event : String} {i : Nat} {r : Transition}
    (h : (d.chart.candidates n event)[i]? = some r) :
    n < d.tree.size ∧ ∃ s spec, d.states[n]? = some s ∧ d.tree.Declares n s event spec ∧
      r = d.tree.candidate n event i spec := by
  by_cases hn : n < d.tree.size
  · obtain ⟨s, hs, -⟩ := exists_state hn
    rw [Chart.candidates, behaviour_chart hs] at h
    obtain ⟨spec, hspec, hr⟩ := d.tree.lists_candidatesOf n s event i r h
    exact ⟨hn, s, spec, hs, hspec, hr⟩
  · rw [Chart.candidates, behaviour_chart_of_size_le (Nat.le_of_not_lt hn)] at h
    exact absurd h (by simp)

theorem wellFormed_of_accepted {hasGuard : String → Bool} (h : d.violations hasGuard = []) :
    d.chart.WellFormed where
  inOrder := d.inOrder
  root_not_history := root_not_history_of_accepted h
  exists_initial := exists_initial_of_accepted h
  regions_ne_nil := regions_ne_nil_of_accepted h
  children_eq_nil := children_eq_nil_of_accepted h
  default_below := default_below_chart
  lookup?_id :=
    Tree.lookup?_id_of_pairwise (Tree.names_of_nameViolations (nameViolations_eq_nil h)).2
  source_eq := by
    intro n event r hr
    obtain ⟨i, hi⟩ := List.mem_iff_getElem?.mp hr
    obtain ⟨-, s, spec, -, -, rfl⟩ := candidate_of_getElem? hi
    rfl
  event_eq := by
    intro n event r hr
    obtain ⟨i, hi⟩ := List.mem_iff_getElem?.mp hr
    obtain ⟨-, s, spec, -, -, rfl⟩ := candidate_of_getElem? hi
    rfl
  position_eq := by
    intro n event i r hi
    obtain ⟨-, s, spec, -, -, rfl⟩ := candidate_of_getElem? hi
    rfl
  target_lt := by
    intro n event r x hr hx
    obtain ⟨i, hi⟩ := List.mem_iff_getElem?.mp hr
    obtain ⟨hn, s, spec, -, -, rfl⟩ := candidate_of_getElem? hi
    obtain ⟨target, -, hres⟩ := List.mem_filterMap.mp hx
    exact Tree.resolveTarget?_lt hres hn d.inOrder
  targets_apart := by
    intro n event r hr
    obtain ⟨i, hi⟩ := List.mem_iff_getElem?.mp hr
    obtain ⟨-, s, spec, hs, hspec, rfl⟩ := candidate_of_getElem? hi
    exact Tree.areAllApart_iff.mp (areAllApart_of_declares h hs hspec)

/-- What compiles has a well-formed chart. -/
theorem wellFormed_of_compile (h : d.compile guards options = .ok m) : m.toChart.WellFormed := by
  have hc : m.toChart = d.chart := by rw [compile_eq h]
  rw [hc]
  exact wellFormed_of_accepted (violations_of_compile h)

/-! ## A small machine -/

/-- A player that is off, or on with a volume and a screen. At low volume it has a way of its own to
be switched off; on again, it has the volume and the screen that it had. -/
def player : Description where
  id := "player"
  root := { State.empty with
    initial := some "on"
    states := [
      ("on", { State.empty with
        kind := some .parallel
        states := [
          ("volume", { State.empty with
            initial := some "low"
            states := [
              ("low", { State.empty with on := .ofList [("POWER", [.target "#player.off"]),
                ("UP", [.target "high"])] }),
              ("high", State.empty)] }),
          ("screen", { State.empty with
            initial := some "dim"
            states := [
              ("dim", { State.empty with on := .ofList [("UP", [.target "bright"])] }),
              ("bright", State.empty)] }),
          ("memory", { State.empty with history := some .deep })]
        on := .ofList [("POWER", [.target "off"])] }),
      ("off", { State.empty with on := .ofList [("POWER", [.target "on.memory"])] })] }

end Description

/-- The player as a machine without guards. -/
def Machine.player : Machine Unit :=
  { Description.player.chart with guards := .empty, options := .standard }

theorem Machine.compile_player : Description.player.compile .empty .standard = .ok player :=
  Description.compile_of_accepted (by decide +kernel)

end Statechart
