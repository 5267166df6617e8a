/-
# Statechart.Proofs.Validation -- checking accepts exactly the legal configurations

`Chart.Admissible` says what a configuration must be like without saying how it is read: which
states its names stand for, that with what is around them the leaves make a legal set, and where the
recorded states lie. Checking accepts just such configurations (`Machine.checked_iff_admissible`).
It looks for less than legality: that each active state has what it needs below follows from leaves
being atomic or final, and that all around is active from how the set is made.

Checking makes no other difference: a call with a configuration that is not admissible is refused,
and any other call is what it is without checking (`Machine.RefusedUnless`).
-/

import Statechart.Proofs.Snapshot
import Statechart.Proofs.Value.Agreement

namespace Statechart

/-! ## Names -/

/-- In what compiles a name is looked up to the state that answers to it. -/
theorem Description.lookup?_eq_some_iff {γ : Type} {d : Description} {guards : Guards γ}
    {options : Options} {m : Machine γ} (hm : d.compile guards options = .ok m) {name : String}
    {n : Nat} : m.lookup? name = some n ↔ m.Answers n name := by
  rw [compile_eq hm]
  exact (wellNamed_of_accepted (violations_of_compile hm)).lookup?_eq_some

namespace Chart

variable {c : Chart} {a : Active} {configuration : Configuration} {l n : Nat} {name : String}

/-! ## Admissible configurations -/

/-- The states that a configuration names as leaves, with all states around them. -/
def Named (c : Chart) (configuration : Configuration) (n : Nat) : Prop :=
  ∃ name ∈ configuration.leaves, ∃ l, c.Answers l name ∧ c.Within l n

/-- There are leaves, all of them atomic or final; with the states around them they make one child
of each compound state and all regions of each parallel one; and records are held for history
states, of states below their parents. -/
structure Admissible (c : Chart) (configuration : Configuration) : Prop where
  exists_leaf : ∃ name, name ∈ configuration.leaves
  leaf : ∀ name ∈ configuration.leaves, ∃ l, c.Answers l name ∧ (c.kind l).isLeaf = true
  record : ∀ name states, configuration.recorded? name = some states →
    ∃ h p, c.Answers h name ∧ (c.kind h).isHistory = true ∧ h ∈ c.children p ∧
      ∀ name ∈ states, ∃ x, c.Answers x name ∧ c.Below x p
  exists_unique : ∀ n, c.Named configuration n → c.kind n = .compound →
    ∃! q, q ∈ c.regions n ∧ c.Named configuration q
  region : ∀ n q, c.Named configuration n → c.kind n = .parallel → q ∈ c.regions n →
    c.Named configuration q

section

variable (hc : c.WellFormed) (hnames : ∀ {name n}, c.lookup? name = some n ↔ c.Answers n name)
include hnames

theorem number_eq (h : c.Answers n name) : c.number name = n := by
  rw [number, hnames.mpr h]
  rfl

/-- What a configuration describes is what it names. -/
theorem mem_iff_named {checks : Bool}
    (h : Active.resolve c.toTree checks configuration = .ok a) :
    n ∈ a ↔ c.Named configuration n := by
  obtain ⟨-, leaves, hleaves, records, -, rfl, -⟩ := Active.resolve_eq_ok.mp h
  obtain ⟨number, hnumber, rfl⟩ := mapM_eq_ok_iff_exists.mp hleaves
  have hfound := fun name hname => (Active.resolveLeaf_eq_ok.mp (hnumber name hname)).1
  rw [Active.mem_iff, SortedSet.mem_ofList, List.mem_flatMap, Named]
  constructor
  · rintro ⟨l, hl, hln⟩
    obtain ⟨name, hname, rfl⟩ := List.mem_map.mp hl
    exact ⟨name, hname, _, hnames.mp (hfound name hname), hln⟩
  · rintro ⟨name, hname, l, hl, hln⟩
    have heq := hfound name hname
    rw [hnames.mpr hl] at heq
    exact ⟨number name, List.mem_map.mpr ⟨name, hname, rfl⟩, Option.some.inj heq ▸ hln⟩

include hc

/-- What is accepted is admissible. -/
theorem admissible_of_resolve (h : Active.resolve c.toTree true configuration = .ok a) :
    c.Admissible configuration := by
  have ha := hc.legal_of_resolve h
  have hmem : ∀ {n}, n ∈ a ↔ c.Named configuration n := mem_iff_named hnames h
  obtain ⟨hne, leaves, hleaves, records, hrecords, -, -⟩ := Active.resolve_eq_ok.mp h
  obtain ⟨number, hnumber, rfl⟩ := mapM_eq_ok_iff_exists.mp hleaves
  obtain ⟨entry, hentry, rfl⟩ := mapM_eq_ok_iff_exists.mp hrecords
  refine ⟨?_, fun name hname => ?_, fun name states hs => ?_, fun n hn hk => ?_,
    fun n q hn hk hq => ?_⟩
  · rw [SortedSet.isEmpty, List.isEmpty_eq_false_iff] at hne
    exact List.exists_mem_of_ne_nil _ hne
  · obtain ⟨hfound, hleaf⟩ := Active.resolveLeaf_eq_ok.mp (hnumber name hname)
    exact ⟨number name, hnames.mp hfound, hleaf rfl⟩
  · obtain ⟨hfound, hk, p, hp, states', hstates, -⟩ :=
      Active.resolveRecord_eq_ok.mp (hentry _ (SortedMap.mem_toList.mpr hs))
    refine ⟨_, p, hnames.mp hfound, hk, hc.inOrder.parent?_eq_some.mp hp, fun x hx => ?_⟩
    obtain ⟨state, hstate, -⟩ := mapM_eq_ok_iff_exists.mp hstates
    obtain ⟨hfound, hbelow⟩ := Active.resolveRecorded_eq_ok.mp (hstate x hx)
    exact ⟨state x, hnames.mp hfound, hbelow rfl⟩
  · simpa only [hmem] using ha.exists_unique (hmem.mpr hn) hk
  · exact hmem.mp (ha.region_mem (hmem.mpr hn) hk hq)

/-- What an admissible configuration names is legal. -/
theorem Admissible.legal (h : c.Admissible configuration)
    (hmem : ∀ {n}, n ∈ a ↔ c.Named configuration n) : c.Legal a where
  root_mem := by
    obtain ⟨name, hname⟩ := h.exists_leaf
    obtain ⟨l, hl, -⟩ := h.leaf name hname
    exact hmem.mpr ⟨name, hname, l, hl, hc.inOrder.within_root hl.1⟩
  lt_size := by
    intro n hn
    obtain ⟨name, -, l, hl, hln⟩ := hmem.mp hn
    exact hc.inOrder.lt_size_of_within hln hl.1
  parent_mem := by
    intro n p hn hp
    obtain ⟨name, hname, l, hl, hln⟩ := hmem.mp hn
    have hlp := hc.inOrder.within_trans hln (hc.inOrder.below_child hp).within
    exact hmem.mpr ⟨name, hname, l, hl, hlp⟩
  not_history := by
    intro n hn
    obtain ⟨name, hname, l, hl, hln⟩ := hmem.mp hn
    -- a state that is named is a leaf or has one below it
    rcases Tree.within_iff.mp hln with rfl | hbelow
    · obtain ⟨k, hk, hleaf⟩ := h.leaf name hname
      rw [← number_eq hnames hl, number_eq hnames hk]
      cases hkind : c.kind k <;> simp_all [Kind.isLeaf, Kind.isHistory]
    · obtain ⟨q, hq, -⟩ := hc.inOrder.exists_child_within hbelow
      exact hc.not_history_of_child hq
  exists_unique := by
    intro n hn hk
    simpa only [hmem] using h.exists_unique n (hmem.mp hn) hk
  region_mem := fun hn hk hq => hmem.mpr (h.region _ _ (hmem.mp hn) hk hq)

/-- What is admissible is accepted. -/
theorem Admissible.exists_resolve (h : c.Admissible configuration) :
    ∃ a, Active.resolve c.toTree true configuration = .ok a := by
  have hlookup : ∀ {name n}, c.Answers n name → c.lookup? name = some (c.number name) :=
    fun hn => by rw [number_eq hnames hn, hnames.mpr hn]
  have hleaves : configuration.leaves.toList.mapM (Active.resolveLeaf c.toTree true) =
      .ok (configuration.leaves.toList.map c.number) := by
    refine mapM_eq_ok fun name hname => ?_
    obtain ⟨l, hl, hk⟩ := h.leaf name hname
    exact Active.resolveLeaf_eq_ok.mpr ⟨hlookup hl, fun _ => by rwa [number_eq hnames hl]⟩
  have hrecords : configuration.history.toList.mapM (Active.resolveRecord c.toTree true) =
      .ok (configuration.history.toList.map
        (fun e => (c.number e.1, SortedSet.ofList (e.2.toList.map c.number)))) := by
    refine mapM_eq_ok fun e he => ?_
    obtain ⟨k, p, hk, hhist, hp, hstates⟩ := h.record e.1 e.2 (SortedMap.mem_toList.mp he)
    have hkp := hc.inOrder.parent?_child hp
    rw [← number_eq hnames hk] at hhist hkp
    refine Active.resolveRecord_eq_ok.mpr ⟨hlookup hk, hhist, p, hkp, _, ?_, rfl⟩
    refine mapM_eq_ok fun name hname => ?_
    obtain ⟨x, hx, hbelow⟩ := hstates name hname
    exact Active.resolveRecorded_eq_ok.mpr ⟨hlookup hx, fun _ => by rwa [number_eq hnames hx]⟩
  refine ⟨_, Active.resolve_eq_ok.mpr ⟨?_, _, hleaves, _, hrecords, rfl, fun _ => ?_⟩⟩
  · obtain ⟨name, hname⟩ := h.exists_leaf
    rw [SortedSet.isEmpty, List.isEmpty_eq_false_iff]
    exact List.ne_nil_of_mem hname
  · refine hc.fault?_eq_none (h.legal hc hnames fun {n} => ?_)
    rw [Active.mem_iff, SortedSet.mem_ofList, List.mem_flatMap]
    constructor
    · rintro ⟨l, hl, hln⟩
      obtain ⟨name, hname, rfl⟩ := List.mem_map.mp hl
      obtain ⟨l, hl, -⟩ := h.leaf name hname
      exact ⟨name, hname, l, hl, number_eq hnames hl ▸ hln⟩
    · rintro ⟨name, hname, l, hl, hln⟩
      exact ⟨c.number name, List.mem_map.mpr ⟨name, hname, rfl⟩, (number_eq hnames hl).symm ▸ hln⟩

end

end Chart

namespace Machine

variable {γ : Type} {m : Machine γ} {a : Active} {context : γ} {event : Event}
  {configuration : Configuration}

/-! ## With checking and without -/

/-- The machine with checking or without. -/
def withChecks (m : Machine γ) (checks : Bool) : Machine γ :=
  { m with options := { m.options with validates := checks } }

/-- Checking plays no part once a configuration has been resolved. -/
theorem settle_withChecks (checks : Bool) (allowed : Nat) (p : Progress) (waiting : List Event) :
    (m.withChecks checks).settle context allowed p waiting =
      m.settle context allowed p waiting := by
  have hsame : ∀ a waiting, (m.withChecks checks).firstHandled a context waiting =
      m.firstHandled a context waiting := fun _ _ => firstHandled_options _
  induction allowed generalizing p waiting with
  | zero =>
    rw [settle, settle, hsame]
    rfl
  | succ allowed ih =>
    rw [settle, settle, hsame]
    simp only [ih]
    rfl

theorem react_withChecks (checks : Bool) :
    (m.withChecks checks).react a context event = m.react a context event := by
  have hsame : (m.withChecks checks).select a context event = m.select a context event :=
    select_options _
  rw [react, react, hsame]
  simp only [settle_withChecks]
  rfl

theorem initialState_withChecks (checks : Bool) :
    (m.withChecks checks).initialState context = m.initialState context := by
  rw [initialState, initialState, begin, begin]
  simp only [settle_withChecks]
  rfl

/-- A machine with checking or without is what the description compiles to with that option. -/
theorem compile_withChecks {d : Description} {guards : Guards γ} {options : Options}
    (hm : d.compile guards options = .ok m) (checks : Bool) :
    d.compile guards { options with validates := checks } = .ok (m.withChecks checks) := by
  rw [Description.compile_of_accepted (Description.violations_of_compile hm),
    Description.compile_eq hm]
  rfl

/-- One outcome is the other under a condition, and else a refusal of the configuration. -/
def RefusedUnless {β : Type} (condition : Prop) (checked unchecked : Except Failure β) : Prop :=
  (condition → checked = unchecked) ∧
    (¬ condition → ∃ cause, checked = .error (.invalidConfiguration cause))

/-- What is done with a configuration once it has been resolved makes no difference. -/
theorem RefusedUnless.bind {α β : Type} {condition : Prop} {checked unchecked : Except Failure α}
    (h : RefusedUnless condition checked unchecked) (k : α → Except Failure β) :
    RefusedUnless condition (checked >>= k) (unchecked >>= k) := by
  refine ⟨fun hcond => by rw [h.1 hcond], fun hcond => ?_⟩
  obtain ⟨cause, herror⟩ := h.2 hcond
  exact ⟨cause, by rw [herror]; rfl⟩

theorem transition_withChecks (checks : Bool) :
    (m.withChecks checks).transition configuration context event =
      (m.withChecks checks).resolve configuration >>= fun a => m.resume a context event := by
  unfold transition resume
  simp only [react_withChecks]
  rfl

/-- Checking refuses just what is not admissible, and changes nothing else. -/
theorem refusedUnless_resolve
    (haccepts : (∃ a, Active.resolve m.toTree true configuration = .ok a) ↔
      m.Admissible configuration) :
    RefusedUnless (m.Admissible configuration) ((m.withChecks true).resolve configuration)
      ((m.withChecks false).resolve configuration) := by
  refine ⟨fun hadmissible => ?_, fun hadmissible => ?_⟩
  · obtain ⟨a, ha⟩ := haccepts.mpr hadmissible
    have hchecked : (m.withChecks true).resolve configuration = .ok a := resolve_eq_ok.mpr ha
    rw [hchecked]
    exact (resolve_eq_ok.mpr (Active.resolve_unchecked ha)).symm
  · cases hres : Active.resolve m.toTree true configuration with
    | ok a => exact absurd (haccepts.mp ⟨a, hres⟩) hadmissible
    | error cause => exact ⟨cause, resolve_eq_error.mpr hres⟩

/-- Checking accepts exactly the legal configurations. A configuration resolves with checking if and
only if it is admissible. What it resolves to is then legal, with the named states as its leaves,
and is what it resolves to without checking. So switching checking on refuses the configurations
that are not admissible and makes no other difference to a call. -/
theorem checked_iff_admissible {d : Description} {guards : Guards γ} {options : Options}
    (hm : d.compile guards options = .ok m) :
    (∀ configuration, (∃ a, Active.resolve m.toTree true configuration = .ok a) ↔
        m.Admissible configuration) ∧
      (∀ configuration a, Active.resolve m.toTree true configuration = .ok a →
        m.Legal a ∧ (∀ n, n ∈ a ↔ m.Named configuration n) ∧
          (∀ l, l ∈ a.leaves m.toTree ↔ ∃ name ∈ configuration.leaves, m.Answers l name) ∧
          Active.resolve m.toTree false configuration = .ok a) ∧
      (∀ checks, d.compile guards { options with validates := checks } =
        .ok (m.withChecks checks)) ∧
      (∀ configuration,
        (∀ context event, RefusedUnless (m.Admissible configuration)
          ((m.withChecks true).transition configuration context event)
          ((m.withChecks false).transition configuration context event)) ∧
        RefusedUnless (m.Admissible configuration)
          ((m.withChecks true).nextEvents configuration)
          ((m.withChecks false).nextEvents configuration) ∧
        (∀ path, RefusedUnless (m.Admissible configuration)
          ((m.withChecks true).isActiveAt configuration path)
          ((m.withChecks false).isActiveAt configuration path)) ∧
        RefusedUnless (m.Admissible configuration)
          ((m.withChecks true).isDone configuration)
          ((m.withChecks false).isDone configuration) ∧
        RefusedUnless (m.Admissible configuration)
          ((m.withChecks true).stateValue configuration)
          ((m.withChecks false).stateValue configuration)) ∧
      ∀ context, (m.withChecks true).initialState context =
        (m.withChecks false).initialState context := by
  have hc := Description.wellFormed_of_compile hm
  have hnames : ∀ {name n}, m.lookup? name = some n ↔ m.Answers n name :=
    Description.lookup?_eq_some_iff hm
  have haccepts : ∀ configuration, (∃ a, Active.resolve m.toTree true configuration = .ok a) ↔
      m.Admissible configuration := fun configuration =>
    ⟨fun ⟨a, ha⟩ => Chart.admissible_of_resolve hc hnames ha, fun h => h.exists_resolve hc hnames⟩
  refine ⟨haccepts, fun configuration a ha => ⟨hc.legal_of_resolve ha, fun n => ?_, fun l => ?_,
    Active.resolve_unchecked ha⟩, compile_withChecks hm, fun configuration => ?_, fun context => ?_⟩
  · exact Chart.mem_iff_named hnames ha
  · simp only [hc.mem_leaves_iff_of_resolve ha, hnames]
  · have hresolve := refusedUnless_resolve (haccepts configuration)
    refine ⟨fun context event => ?_, hresolve.bind _, fun path => hresolve.bind _,
      hresolve.bind _, hresolve.bind _⟩
    rw [transition_withChecks, transition_withChecks]
    exact hresolve.bind _
  · rw [initialState_withChecks, initialState_withChecks]

/-- The player may be on at low volume with a dim screen, whatever it remembers of the screen, but
not with a volume alone. -/
theorem player_admissible :
    player.Admissible ⟨.ofList ["player.on.volume.low", "player.on.screen.dim"],
        SortedMap.empty.insert "player.on.memory" (.ofList ["player.on.screen.bright"])⟩ ∧
      ¬ player.Admissible (.ofLeaves ["player.on.volume.low"]) := by
  obtain ⟨haccepts, -⟩ := checked_iff_admissible compile_player
  have hwhole : Active.resolve player.toTree true
      ⟨.ofList ["player.on.volume.low", "player.on.screen.dim"],
        SortedMap.empty.insert "player.on.memory" (.ofList ["player.on.screen.bright"])⟩ =
      .ok ⟨.ofList [0, 1, 2, 3, 5, 6], SortedMap.empty.insert 8 (.ofList [7])⟩ := by decide +kernel
  have hpart : Active.resolve player.toTree true (.ofLeaves ["player.on.volume.low"]) =
      .error (.missingRegion "player.on" "screen") := by decide +kernel
  refine ⟨(haccepts _).mp ⟨_, hwhole⟩, fun h => ?_⟩
  obtain ⟨a, ha⟩ := (haccepts _).mpr h
  rw [hpart] at ha
  cases ha

end Machine

end Statechart
