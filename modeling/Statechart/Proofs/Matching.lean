/-
# Statechart.Proofs.Matching -- two ways to match a path against what is active

A dotted path can be looked up in the value of a configuration, where it has to be among what the
paths to the active leaves begin with, or in the machine, where it has to lead by keys to an active
state. With the empty segments left out both find the same: around an active state everything is
active, and within it there is a leaf (`WellFormed.hasPath_value_iff`, `WellFormed.isActiveAt_iff`).

A service keeps the value of its configuration, whatever is done with it (`Service.keeps_value`), so
it finds a path without empty segments exactly if the machine does (`Service.matching_agrees`).
-/

import Statechart.Proofs.Resumption
import Statechart.Proofs.Tree.Keys
import Statechart.Proofs.Value.Paths

namespace Statechart

/-! ## Paths to active states -/

namespace Chart

variable {c : Chart} {a : Active} {path : String} {q : List String}

/-- The keys that lead to active states, as a tree. -/
def keyTree (c : Chart) (a : Active) : KeyTree :=
  .ofPaths (((a.leaves c.toTree).map c.relativePath).map Path.keys)

theorem value_eq_keyTree : a.value c.toTree = (c.keyTree a).value := rfl

theorem ordered_keyTree : (c.keyTree a).Ordered := KeyTree.ordered_ofPaths _

namespace WellFormed

variable (hc : c.WellFormed) (hk : c.Keyed)
include hc hk

/-- Every active state counts, since within it there is a leaf. -/
theorem has_keyTree (ha : ∀ {n}, n ∈ a → n < c.size) :
    (c.keyTree a).Has q ↔ q = [] ∨ ∃ n ∈ a, q <+: c.keyPath n := by
  have hkeys : ∀ l ∈ a.leaves c.toTree, Path.keys (c.relativePath l) = c.keyPath l := fun l hl =>
    hk.keys_relativePath hc.inOrder (ha (mem_leaves.mp hl).1)
  simp only [keyTree, KeyTree.has_ofPaths, List.mem_map, exists_exists_and_eq_and]
  refine or_congr_right ⟨?_, ?_⟩
  · rintro ⟨l, hl, hpre⟩
    exact ⟨l, (mem_leaves.mp hl).1, hkeys l hl ▸ hpre⟩
  · rintro ⟨n, hn, hpre⟩
    obtain ⟨l, hl, hln⟩ := hc.exists_leaf ha hn
    exact ⟨l, hl, hkeys l hl ▸ hpre.trans (hc.inOrder.keyPath_prefix hln)⟩

/-- What lies around active states adds nothing to the value. -/
theorem value_surrounded (ha : ∀ {n}, n ∈ a → n < c.size) :
    (c.surrounded a).value c.toTree = a.value c.toTree := by
  have hsurrounded : ∀ {n}, n ∈ c.surrounded a → n < c.size := by
    intro n hn
    obtain ⟨i, hi, hin⟩ := mem_surrounded.mp hn
    exact hc.inOrder.lt_size_of_within hin (ha hi)
  rw [value_eq_keyTree, value_eq_keyTree]
  refine congrArg KeyTree.value (ordered_keyTree.ext ordered_keyTree fun q => ?_)
  rw [has_keyTree hc hk hsurrounded, has_keyTree hc hk ha]
  refine or_congr_right ⟨?_, ?_⟩
  · rintro ⟨n, hn, hpre⟩
    obtain ⟨i, hi, hin⟩ := mem_surrounded.mp hn
    exact ⟨i, hi, hpre.trans (hc.inOrder.keyPath_prefix hin)⟩
  · rintro ⟨n, hn, hpre⟩
    exact ⟨n, mem_surrounded.mpr ⟨n, hn, Tree.within_self _ n⟩, hpre⟩

/-- A path is found in the value exactly if its keys, of which there must be some, are those to an
active state. -/
theorem hasPath_value_iff (ha : c.Rooted a) : (a.value c.toTree).hasPath path = true ↔
    Path.keys path ≠ [] ∧ ∃ n ∈ a, c.keyPath n = Path.keys path := by
  have htree : (a.value c.toTree).tree = c.keyTree a := StateValue.tree_value ordered_keyTree
  have hordered : (a.value c.toTree).Ordered := StateValue.ordered_value ordered_keyTree
  have hplain : ∀ q, (a.value c.toTree).tree.Has q → ∀ k ∈ q, Path.Plain k := by
    intro q hq k hkq
    rw [htree, has_keyTree hc hk ha.lt_size] at hq
    rcases hq with rfl | ⟨n, hn, hpre⟩
    · cases hkq
    · exact hk.plain_of_mem_keyPath hc.inOrder (ha.lt_size hn) k (hpre.subset hkq)
  rw [StateValue.hasPath_iff hordered hplain, htree, has_keyTree hc hk ha.lt_size]
  refine and_congr_right fun hne => ?_
  rw [or_iff_right hne]
  constructor
  · rintro ⟨n, hn, hpre⟩
    obtain ⟨p, hp, heq⟩ := (hc.inOrder.prefix_keyPath_iff (ha.lt_size hn)).mp hpre
    exact ⟨p, ha.mem_of_within hc hn hp, heq⟩
  · rintro ⟨n, hn, heq⟩
    exact ⟨n, hn, heq ▸ List.prefix_refl _⟩

/-- A path leads to an active state exactly if its segments are the keys to one. -/
theorem findPath?_any_iff (ha : ∀ {n}, n ∈ a → n < c.size) :
    (c.findPath? path).any (fun n => decide (n ∈ a)) = true ↔
      ∃ n ∈ a, c.keyPath n = Path.segments path := by
  rw [Option.any_eq_true]
  simp only [decide_eq_true_eq]
  constructor
  · rintro ⟨n, hfind, hn⟩
    exact ⟨n, hn, (hk.findPath?_eq_some hc.inOrder (ha hn)).mp hfind⟩
  · rintro ⟨n, hn, heq⟩
    exact ⟨n, (hk.findPath?_eq_some hc.inOrder (ha hn)).mpr heq, hn⟩

/-- With its empty segments left out, a path leads to an active state exactly if it is found in the
value. -/
theorem findPath?_keys (ha : c.Rooted a) :
    (c.findPath? (Path.join (Path.keys path))).any (fun n => decide (n ∈ a)) =
      (a.value c.toTree).hasPath path := by
  rw [Bool.eq_iff_iff, hasPath_value_iff hc hk ha, findPath?_any_iff hc hk ha.lt_size]
  by_cases hne : Path.keys path = []
  · -- nothing remains but one empty segment, and that is no key
    rw [hne]
    refine ⟨fun ⟨n, hn, heq⟩ => ?_, fun h => absurd rfl h.1⟩
    have hempty : "" ∈ c.keyPath n := by rw [heq]; decide
    exact absurd rfl (hk.plain_of_mem_keyPath hc.inOrder (ha.lt_size hn) _ hempty).ne_empty
  · rw [Path.segments_join (fun k hk => Path.plain_of_mem_keys hk) hne, and_iff_right hne]

end WellFormed

end Chart

/-! ## What services keep -/

variable {γ ε : Type} {m : Machine γ} {s : Service γ ε} {event : Event} {env : ε}
  {configuration : Configuration} {a : Active} {q : Progress}

theorem Machine.stateValue_eq_ok {v : StateValue} : m.stateValue configuration = .ok v ↔
    ∃ a, m.resolve configuration = .ok a ∧ v = a.value m.toTree := by
  rw [stateValue, bind_eq_ok]
  simp only [pure, Except.pure, Except.ok.injEq, eq_comm]

namespace Service

/-- A service of a machine has the value of its configuration, if that is accepted. -/
structure Renders (m : Machine γ) (s : Service γ ε) : Prop where
  machine_eq : s.machine = m
  value_eq : ∀ v, m.stateValue s.configuration = .ok v → v = s.value

/-- A result that has moved the machine has led to where a call ends. -/
def Arrives (m : Machine γ) (r : StepResult γ) : Prop :=
  ∀ event arrival context, r = .transitioned event arrival context →
    ∃ a q, m.Ends a q ∧ arrival = m.arrival q

theorem arrives_of_run {r : StepResult γ} (h : s.run event env (m.arrival q) = .ok r)
    (hends : m.Ends a q) : Arrives m r := by
  rintro event' arrival context rfl
  obtain ⟨context', -, heq⟩ := run_eq_ok.mp h
  cases heq
  exact ⟨a, q, hends, rfl⟩

section

variable (hc : m.WellFormed) (hk : m.Keyed)
include hc hk

/-- The value that a call returns is that of its configuration. -/
theorem value_of_ends (hends : m.Ends a q) {v : StateValue}
    (h : m.stateValue (m.arrival q).configuration = .ok v) : v = (m.arrival q).value := by
  obtain ⟨fired, hfires⟩ := hends.exists_fires
  have hknown := hfires.known hc (hends.known hc).1
  obtain ⟨b, hb, rfl⟩ := Machine.stateValue_eq_ok.mp h
  have hback := Machine.unchecked_of_resolve hb
  rw [Machine.resolve_arrival hc hknown] at hback
  rw [← Except.ok.inj hback]
  exact hc.value_surrounded hk hknown.lt_size

theorem keeps_value : Session.Keeps (Renders m (ε := ε)) (Arrives m) where
  register := fun kind executor h => ⟨h.machine_eq, h.value_eq⟩
  step := by
    rintro s event env r h hstep
    rcases step_eq_ok.mp hstep with ⟨-, rfl⟩ | ⟨arrival, htransition, hrun⟩
    · exact fun _ _ _ heq => by cases heq
    · rw [h.machine_eq] at htransition
      obtain ⟨b, q, hres, hreact, rfl⟩ := Machine.transition_eq_ok.mp htransition
      exact arrives_of_run hrun (.transition hres hreact)
  restart := by
    rintro s env r h hrestart
    obtain ⟨arrival, hinitial, hrun⟩ := restart_eq_ok.mp hrestart
    rw [h.machine_eq] at hinitial
    obtain ⟨q, hbegin, rfl⟩ := Machine.initialState_eq_ok.mp hinitial
    exact arrives_of_run hrun (.initial hbegin)
  commit := by
    rintro s r now h hr
    cases r with
    | unchanged event => exact h
    | transitioned event arrival context =>
      obtain ⟨a, q, hends, rfl⟩ := hr _ _ _ rfl
      exact ⟨h.machine_eq, fun v hv => value_of_ends hc hk hends hv⟩

end

/-- A service that has just been started or resumed. -/
def Begun (m : Machine γ) (s : Service γ ε) : Prop :=
  (∃ context, start? m context = .ok s) ∨
    ∃ configuration context journal, resume m configuration context journal = .ok s

theorem Begun.renders (hc : m.WellFormed) (hk : m.Keyed) (h : Begun m s) : Renders m s := by
  rcases h with ⟨context, hstart⟩ | ⟨configuration, context, journal, hresume⟩
  · obtain ⟨arrival, hinitial, rfl⟩ := start?_eq_ok.mp hstart
    obtain ⟨q, hbegin, rfl⟩ := Machine.initialState_eq_ok.mp hinitial
    exact ⟨rfl, fun v hv => value_of_ends hc hk (.initial hbegin) hv⟩
  · obtain ⟨a, hres, rfl⟩ := resume_eq_ok.mp hresume
    refine ⟨rfl, fun v hv => ?_⟩
    obtain ⟨b, hb, rfl⟩ := Machine.stateValue_eq_ok.mp hv
    rw [hres] at hb
    rw [Except.ok.inj hb]

/-- The two ways to match a path agree. For a configuration that is accepted, a path is found in its
value exactly if the machine finds it with the empty segments left out, and neither finds one of
which nothing remains; so for a path without empty segments they are the same. A service that has
been started or resumed has, whatever has been done with it, the value of its configuration, if this
is accepted, and then finds a path without empty segments exactly if the machine does. -/
theorem matching_agrees {d : Description} {guards : Guards γ} {options : Options}
    (hm : d.compile guards options = .ok m) :
    (∀ configuration a, m.resolve configuration = .ok a →
        ∃ v, m.stateValue configuration = .ok v ∧
          (∀ path, m.isActiveAt configuration (Path.join (Path.keys path)) =
            .ok (v.hasPath path)) ∧
          (∀ path, Path.keys path = [] → v.hasPath path = false ∧
            m.isActiveAt configuration (Path.join (Path.keys path)) = .ok false) ∧
          ∀ path, "" ∉ Path.segments path →
            m.isActiveAt configuration path = .ok (v.hasPath path)) ∧
      ∀ (ε : Type) (s : Service γ ε), Begun m s → ∀ deeds t,
        ((Session.of s).run deeds).service = t → ∀ a, m.resolve t.configuration = .ok a →
          m.stateValue t.configuration = .ok t.value ∧
            ∀ path, "" ∉ Path.segments path →
              m.isActiveAt t.configuration path = .ok (t.hasPath path) := by
  have hc := Description.wellFormed_of_compile hm
  have hk := Description.keyed_of_compile hm
  have hagree : ∀ configuration a, m.resolve configuration = .ok a → ∀ path,
      m.isActiveAt configuration (Path.join (Path.keys path)) =
        .ok ((a.value m.toTree).hasPath path) := by
    intro configuration a ha path
    rw [Machine.isActiveAt, ha,
      ← hc.findPath?_keys hk (hc.rooted_of_resolve (Machine.resolve_eq_ok.mp ha))]
    rfl
  have hwhole : ∀ configuration a, m.resolve configuration = .ok a → ∀ path,
      "" ∉ Path.segments path →
        m.isActiveAt configuration path = .ok ((a.value m.toTree).hasPath path) := by
    intro configuration a ha path hpath
    have hjoined := hagree configuration a ha path
    rwa [Path.keys_eq_segments hpath, Path.join_segments] at hjoined
  refine ⟨fun configuration a ha => ⟨_, Machine.stateValue_eq_ok.mpr ⟨a, ha, rfl⟩,
    hagree configuration a ha, fun path hnone => ?_, hwhole configuration a ha⟩, ?_⟩
  · have hfalse : (a.value m.toTree).hasPath path = false := by simp [StateValue.hasPath, hnone]
    exact ⟨hfalse, hfalse ▸ hagree configuration a ha path⟩
  · rintro ε s hbegun deeds t rfl a ha
    have hrenders := (Session.keeps_run (keeps_value hc hk) (hbegun.renders hc hk) deeds).1
    have hvalue := Machine.stateValue_eq_ok.mpr ⟨a, ha, rfl⟩
    have heq := hrenders.value_eq _ hvalue
    rw [heq] at hvalue
    refine ⟨hvalue, fun path hpath => ?_⟩
    rw [Service.hasPath, ← heq]
    exact hwhole _ a ha path hpath

end Service

namespace Machine

/-- The screen of the player that is on is found in its value also by a path with empty segments,
which the machine does not find; without them both find it. Where no segment remains, nothing is
found. After the evening the service finds what the machine does. -/
theorem player_matches : ∃ v, player.stateValue player.start.configuration = .ok v ∧
    v.hasPath "on..screen." = true ∧
    player.isActiveAt player.start.configuration "on..screen." = .ok false ∧
    player.isActiveAt player.start.configuration "on.screen" = .ok true ∧
    v.hasPath ".." = false ∧
    player.isActiveAt player.kept.configuration "off" = .ok (player.kept.hasPath "off") := by
  obtain ⟨hpaths, hservices⟩ := Service.matching_agrees compile_player
  have hbegun : player.resolve player.start.configuration = .ok player.begun := by decide +kernel
  obtain ⟨v, hv, hfound, hnone, -⟩ := hpaths player.start.configuration player.begun hbegun
  have hon : player.isActiveAt player.start.configuration
      (Path.join (Path.keys "on..screen.")) = .ok true := by decide +kernel
  rw [hfound, Except.ok.injEq] at hon
  have hoff : player.resolve player.kept.configuration = .ok player.off := by decide +kernel
  obtain ⟨-, hkept⟩ := hservices Unit player.service (Or.inl ⟨(), start_player⟩) player.evening
    player.kept rfl player.off hoff
  exact ⟨v, hv, hon, by decide +kernel, by decide +kernel, (hnone ".." (by decide +kernel)).1,
    hkept "off" (by decide +kernel)⟩

end Machine

end Statechart
