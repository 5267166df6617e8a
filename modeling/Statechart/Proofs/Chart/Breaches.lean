/-
# Statechart.Proofs.Chart.Breaches -- the errors of a description are the rules it breaks

The passes over a description run one after the other whatever is wrong with it: names are taken
along in a walk over all states, and states are looked up where keys and names may be ambiguous and
parents of the wrong kind. Each pass is counted by itself (`Tree.count_nameViolations`,
`Description.count_structureViolations`, `Chart.count_transitionViolations`), and together they
report exactly the breaches of the rules (`Description.reports_violations`).
-/

import Mathlib.Data.List.Count
import Mathlib.Data.List.Forall2
import Mathlib.Data.List.Nodup
import Statechart.Proofs.Chart.Rules
import Statechart.Proofs.Lists

namespace Statechart

/-! ## Counting -/

open Classical in
/-- A list without repetitions is counted by membership. -/
theorem count_eq_ite {l : List Violation} (hl : l.Nodup) {P : Violation → Prop}
    (h : ∀ v, v ∈ l ↔ P v) (v : Violation) : l.count v = if P v then 1 else 0 := by
  rw [hl.count]
  simp only [h]

theorem count_single (v w : Violation) : [w].count v = if v = w then 1 else 0 := by
  by_cases h : v = w
  · simp [h]
  · simp [h, Ne.symm h]

/-- A rule that is checked by itself reports at most one error. -/
theorem count_unless (c : Prop) [Decidable c] (v w : Violation) :
    (if c then [] else [w]).count v = if ¬ c ∧ v = w then 1 else 0 := by
  by_cases hc : c <;> simp [hc, count_single]

/-! ## Names -/

/-- Repetitions depend only on which names are taken. -/
theorem repeatedNames_congr {taken taken' : List String} (h : ∀ x, x ∈ taken ↔ x ∈ taken')
    (names : List String) : repeatedNames taken names = repeatedNames taken' names := by
  induction names generalizing taken taken' with
  | nil => rfl
  | cons name names ih =>
    have htail : ∀ x, x ∈ name :: taken ↔ x ∈ name :: taken' := by simp [h]
    rw [repeatedNames, repeatedNames, ih htail]
    simp [h]

theorem repeatedNames_append (taken names names' : List String) :
    repeatedNames taken (names ++ names') =
      repeatedNames taken names ++ repeatedNames (names ++ taken) names' := by
  induction names generalizing taken with
  | nil => rfl
  | cons name names ih =>
    have hmem : ∀ x, x ∈ names ++ name :: taken ↔ x ∈ name :: names ++ taken := by
      simp only [List.mem_append, List.mem_cons]
      grind
    rw [List.cons_append, repeatedNames, repeatedNames, ih, List.append_assoc,
      repeatedNames_congr hmem]

/-- A name is reported each time it comes, but for the first time if it is not taken. -/
theorem count_repeatedNames (taken names : List String) (x : String) :
    (repeatedNames taken names).count (.duplicateId x) =
      if x ∈ taken then names.count x else names.count x - 1 := by
  induction names generalizing taken with
  | nil => simp [repeatedNames]
  | cons name names ih =>
    rw [repeatedNames, List.count_append, ih, List.count_cons]
    -- the first time that a name comes, it is taken from then on
    by_cases hx : name = x
    · subst hx
      by_cases ht : name ∈ taken
      · simp [ht, Nat.add_comm]
      · simp [ht]
    · have hne : x ≠ name := fun e => hx e.symm
      by_cases ht : name ∈ taken <;> simp [ht, hx, hne]

theorem eq_duplicateId_of_mem_repeatedNames {taken names : List String} {v : Violation}
    (h : v ∈ repeatedNames taken names) : ∃ x, v = .duplicateId x := by
  induction names generalizing taken with
  | nil => simp [repeatedNames] at h
  | cons name names ih =>
    rw [repeatedNames, List.mem_append] at h
    rcases h with h | h
    · exact ⟨name, by grind⟩
    · exact ih h

theorem count_names (p : Place) (x : String) :
    p.names.count x = if p.id = x ∨ p.label = some x ∧ x ≠ p.id then 1 else 0 := by
  rw [Place.names]
  cases hl : p.label with
  | none => simp [List.count_singleton]
  | some a =>
    by_cases ha : a = p.id
    · simp only [ha, if_true, List.count_singleton]
      grind
    · simp only [ha, if_false, List.count_cons, List.count_nil]
      grind

namespace Tree

/-- The keys and the names are checked independently of each other. -/
theorem count_nameViolations (t : Tree) (taken : List String) (places : List Place)
    (v : Violation) :
    (t.nameViolations taken places).count v =
      (places.flatMap t.keyViolations).count v +
        (repeatedNames taken (places.flatMap Place.names)).count v := by
  induction places generalizing taken with
  | nil => rfl
  | cons p places ih =>
    rw [nameViolations, List.flatMap_cons, List.flatMap_cons, repeatedNames_append]
    simp only [List.count_append, ih]
    omega

theorem mem_keyViolations {t : Tree} (ht : t.InOrder) {n : Nat} {v : Violation} :
    v ∈ t.keyViolations (t.place n) ↔ t.KeyBreach n v := by
  have hkey : isValidKey (t.key n) = false ↔
      t.key n = "" ∨ '.' ∈ (t.key n).toList ∨ '#' ∈ (t.key n).toList := by
    rw [isValidKey]
    grind
  simp only [KeyBreach, ← hkey, ← ht.parent?_eq_some, parent?]
  unfold keyViolations
  cases (t.place n).parent with
  | none => simp
  | some p => cases h : isValidKey (t.key n) <;> simp_all [key]

theorem nodup_keyViolations (t : Tree) (p : Place) : (t.keyViolations p).Nodup := by
  unfold keyViolations
  grind

end Tree

/-! ## Structure -/

theorem declaresTransitions_iff (s : State) :
    s.declaresTransitions = true ↔ s.on ≠ .empty ∨ s.onDone ≠ none := by
  rw [State.declaresTransitions, Bool.or_eq_true, Bool.not_eq_true', ← Bool.not_eq_true,
    SortedMap.isEmpty_iff, Option.isSome_iff_ne_none]

namespace Tree

section Members

variable {t : Tree} {n : Nat} {s : State} {v : Violation}

theorem mem_strayInitial :
    v ∈ t.strayInitial n s ↔ t.kind n ≠ .compound ∧ t.kind n ≠ .parallel ∧
      ∃ key, s.initial = some key ∧ v = .unknownInitial (t.id n) key := by
  unfold strayInitial
  cases t.kind n <;> cases s.initial <;> simp

theorem mem_initialViolations :
    v ∈ t.initialViolations n s ↔ s.initial = none ∧ v = .missingInitial (t.id n) ∨
      ∃ key, s.initial = some key ∧ ¬ (t.initialChild? n key).isSome ∧
        v = .unknownInitial (t.id n) key := by
  unfold initialViolations
  cases s.initial with
  | none => simp
  | some key => cases h : t.initialChild? n key <;> simp [h]

theorem mem_finalViolations :
    v ∈ t.finalViolations n s ↔ s.states ≠ [] ∧ v = .invalidFinal (t.id n) .children ∨
      s.declaresTransitions = true ∧ v = .invalidFinal (t.id n) .transitions := by
  rw [finalViolations, List.mem_append]
  cases s.states <;> cases s.declaresTransitions <;> simp

theorem mem_defaultViolations {p : Nat} :
    v ∈ t.defaultViolations n p s ↔ ∃ target, s.target = some target ∧
      (t.resolveTarget? n target = none ∧
          v = .unresolvedTarget (t.id n) Violation.historyDefaultEvent target ∨
        ∃ m, t.resolveTarget? n target = some m ∧ ¬ t.Below m p ∧
          v = .invalidHistory (t.id n) .outsideParent) := by
  unfold defaultViolations
  cases s.target with
  | none => simp
  | some target =>
    cases h : t.resolveTarget? n target with
    | none => simp [h]
    | some m => by_cases hb : t.Below m p <;> simp_all [← isBelow_iff]

theorem mem_historyViolations {p : Nat} (hp : t.parent? n = some p) :
    v ∈ t.historyViolations n s ↔ s.states ≠ [] ∧ v = .invalidHistory (t.id n) .children ∨
      s.declaresTransitions = true ∧ v = .invalidHistory (t.id n) .transitions ∨
      v ∈ t.defaultViolations n p s := by
  rw [historyViolations, hp]
  simp only [List.mem_append, or_assoc]
  cases s.states <;> cases s.declaresTransitions <;> simp

end Members

theorem nodup_historyViolations (t : Tree) (n : Nat) (s : State) :
    (t.historyViolations n s).Nodup := by
  rw [historyViolations]
  cases t.parent? n with
  | none => exact List.nodup_singleton _
  | some p =>
    have hdefault : (t.defaultViolations n p s).Nodup := by
      unfold defaultViolations
      grind
    have hchildren : ∀ v ∈ t.defaultViolations n p s, v ≠ .invalidHistory (t.id n) .children ∧
        v ≠ .invalidHistory (t.id n) .transitions := by
      intro v hv
      obtain ⟨target, -, ⟨-, rfl⟩ | ⟨m, -, -, rfl⟩⟩ := mem_defaultViolations.mp hv <;> simp
    cases s.states <;> cases s.declaresTransitions <;> simp [hdefault] <;> grind

/-- No two errors about the structure of a state are the same. -/
theorem nodup_structureViolations (t : Tree) (n : Nat) (s : State) :
    (t.structureViolations n s).Nodup := by
  unfold structureViolations strayInitial
  cases t.kind n with
  | compound =>
    rw [List.nil_append, initialViolations]
    grind
  | parallel => grind
  | atomic => cases s.initial <;> grind
  | final =>
    rw [finalViolations]
    cases s.initial <;> cases s.states <;> cases s.declaresTransitions <;> simp
  | history depth =>
    -- an initial state is no concern of the rules for history states
    cases s.initial with
    | none => exact t.nodup_historyViolations n s
    | some key =>
      refine List.nodup_cons.mpr ⟨fun h => ?_, t.nodup_historyViolations n s⟩
      cases hp : t.parent? n with
      | none => simp [historyViolations, hp] at h
      | some p => simp [mem_historyViolations hp, mem_defaultViolations] at h

section Structure

variable {d : Description} {n : Nat} {v : Violation}

theorem exists_parent_of_history (hroot : (d.tree.kind root).isHistory = false)
    (hn : n < d.tree.size) (hk : (d.tree.kind n).isHistory = true) :
    ∃ p, d.tree.parent? n = some p := by
  have hne : n ≠ root := by
    rintro rfl
    rw [hk] at hroot
    exact absurd hroot (by simp)
  obtain ⟨p, hp⟩ := d.inOrder.exists_parent hne hn
  exact ⟨p, d.inOrder.parent?_child hp⟩

theorem mem_structureViolations_of_history (hroot : (d.tree.kind root).isHistory = false)
    (hn : n < d.tree.size) {s : State} (hk : (d.tree.kind n).isHistory = true)
    (hv : ∀ p, n ∈ d.tree.children p →
      s.states ≠ [] ∧ v = .invalidHistory (d.tree.id n) .children ∨
        s.declaresTransitions = true ∧ v = .invalidHistory (d.tree.id n) .transitions ∨
        v ∈ d.tree.defaultViolations n p s) :
    v ∈ d.tree.structureViolations n s := by
  obtain ⟨p, hp⟩ := exists_parent_of_history hroot hn hk
  have hv := (mem_historyViolations hp).mpr (hv p (d.inOrder.parent?_eq_some.mp hp))
  obtain ⟨depth, hdepth⟩ := Kind.exists_depth hk
  rw [structureViolations, hdepth]
  exact List.mem_append_right _ hv

/-- Only what a declaration does wrong is reported about its structure. -/
theorem structureBreach_of_mem (hroot : (d.tree.kind root).isHistory = false)
    (hn : n < d.tree.size) (h : v ∈ d.tree.structureViolations n (d.declaration n)) :
    d.tree.StructureBreach n (d.declaration n) v := by
  have hkind := (Description.place_declaration hn).2
  rw [structureViolations, List.mem_append, mem_strayInitial] at h
  rcases h with ⟨hc, hp, key, hi, rfl⟩ | h
  · exact .strayInitial (hkind ▸ hc) (hkind ▸ hp) hi
  -- what else is reported comes from the check for the kind of the state
  cases hk : d.tree.kind n with
  | compound =>
    rw [hk] at h hkind
    obtain ⟨hi, rfl⟩ | ⟨key, hi, hnone, rfl⟩ := mem_initialViolations.mp h
    · exact .missingInitial hkind.symm hi
    · refine .unknownInitial hkind.symm hi fun c hc => ?_
      by_contra hh
      exact hnone ((Description.isSome_initialChild? hn key).mpr ⟨c, hc, by simpa using hh⟩)
  | parallel =>
    rw [hk] at h hkind
    by_cases hr : d.tree.regions n = []
    · obtain rfl : v = _ := by simpa [hr] using h
      exact .emptyParallel hkind.symm ((Description.regions_eq_nil hn).mp hr)
    · simp [hr] at h
  | atomic =>
    rw [hk] at h hkind
    by_cases hs : (d.declaration n).states = []
    · simp [hs] at h
    · obtain rfl : v = _ := by simpa [hs] using h
      exact .unexpectedChildren hkind.symm hs
  | final =>
    rw [hk] at h hkind
    obtain ⟨hs, rfl⟩ | ⟨ht, rfl⟩ := mem_finalViolations.mp h
    · exact .finalChildren hkind.symm hs
    · exact .finalTransitions hkind.symm ((declaresTransitions_iff _).mp ht)
  | history depth =>
    have hh : (d.tree.kind n).isHistory = true := by rw [hk]; rfl
    obtain ⟨p, hp⟩ := exists_parent_of_history hroot hn hh
    rw [hk] at h
    rw [hkind] at hh
    obtain ⟨hs, rfl⟩ | ⟨ht, rfl⟩ | hdefault := (mem_historyViolations hp).mp h
    · exact .historyChildren hh hs
    · exact .historyTransitions hh ((declaresTransitions_iff _).mp ht)
    · obtain ⟨target, htarget, ⟨hnone, rfl⟩ | ⟨m, hm, hb, rfl⟩⟩ := mem_defaultViolations.mp hdefault
      · exact .unresolvedDefault hh htarget hnone
      · exact .outsideParent hh htarget hm (d.inOrder.parent?_eq_some.mp hp) hb

/-- All that a declaration does wrong is reported about its structure. -/
theorem mem_structureViolations_of_breach (hroot : (d.tree.kind root).isHistory = false)
    (hn : n < d.tree.size) (h : d.tree.StructureBreach n (d.declaration n) v) :
    v ∈ d.tree.structureViolations n (d.declaration n) := by
  have hkind := (Description.place_declaration hn).2
  have hhistory := mem_structureViolations_of_history (v := v) (s := d.declaration n) hroot hn
  rw [hkind] at hhistory
  cases h with
  | missingInitial hk hi =>
    rw [structureViolations, hkind, hk]
    exact List.mem_append_right _ (mem_initialViolations.mpr (.inl ⟨hi, rfl⟩))
  | unknownInitial hk hi hall =>
    rw [structureViolations, hkind, hk]
    refine List.mem_append_right _ (mem_initialViolations.mpr (.inr ⟨_, hi, ?_, rfl⟩))
    rw [Description.isSome_initialChild? hn]
    rintro ⟨c, hc, hfalse⟩
    exact absurd (hall c hc) (by simp [hfalse])
  | strayInitial hc hp hi =>
    exact List.mem_append_left _ (mem_strayInitial.mpr ⟨hkind ▸ hc, hkind ▸ hp, _, hi, rfl⟩)
  | emptyParallel hk hall =>
    have hr := (Description.regions_eq_nil hn).mpr hall
    simp [structureViolations, hkind, hk, hr]
  | unexpectedChildren hk hs => simp [structureViolations, hkind, hk, hs]
  | finalChildren hk hs =>
    rw [structureViolations, hkind, hk]
    exact List.mem_append_right _ (mem_finalViolations.mpr (.inl ⟨hs, rfl⟩))
  | finalTransitions hk ht =>
    have ht := (declaresTransitions_iff _).mpr ht
    rw [structureViolations, hkind, hk]
    exact List.mem_append_right _ (mem_finalViolations.mpr (.inr ⟨ht, rfl⟩))
  | historyChildren hk hs => exact hhistory hk fun _ _ => .inl ⟨hs, rfl⟩
  | historyTransitions hk ht =>
    exact hhistory hk fun _ _ => .inr (.inl ⟨(declaresTransitions_iff _).mpr ht, rfl⟩)
  | unresolvedDefault hk hs hr =>
    exact hhistory hk fun _ _ =>
      .inr (.inr (mem_defaultViolations.mpr ⟨_, hs, .inl ⟨hr, rfl⟩⟩))
  | outsideParent hk hs hr hq hb =>
    refine hhistory hk fun p hp => .inr (.inr (mem_defaultViolations.mpr ⟨_, hs, .inr ?_⟩))
    obtain rfl := d.inOrder.parent_unique hq hp
    exact ⟨_, hr, hb, rfl⟩

end Structure

end Tree

/-! ## Transitions -/

namespace Chart

variable {c : Chart} {n : Nat} {spec : TransitionSpec}

/-- The targets that resolve are checked against the regions they lie in. -/
theorem areAllApart_resolvedTargets (ht : c.InOrder) (hn : n < c.size) :
    c.areAllApart (c.resolvedTargets n spec) = true ↔
      (spec.targets.filterMap (c.resolveTarget? n)).Pairwise c.Parted := by
  have hlt : ∀ x ∈ c.resolvedTargets n spec, x < c.size := fun x hx => by
    obtain ⟨target, -, hres⟩ := List.mem_filterMap.mp hx
    exact Tree.resolveTarget?_lt hres hn ht
  rw [Tree.areAllApart_iff]
  exact List.Pairwise.iff_of_mem fun hx hy => areApart_iff ht (hlt _ hx) (hlt _ hy)

open Classical in
/-- What is reported about a transition is what it does wrong, as often as it does. -/
theorem count_transitionViolations (ht : c.InOrder) (hn : n < c.size) (hasGuard : String → Bool)
    (event : String) (spec : TransitionSpec) (v : Violation) :
    (c.transitionViolations hasGuard n event spec).count v =
      c.transitionBreaches hasGuard n event spec v := by
  simp only [Tree.transitionViolations, transitionBreaches, List.count_append]
  congr 1
  · congr 1
    · congr 1
      · rw [List.count, List.countP_map, List.countP_filter]
        exact List.countP_congr fun target _ => by
          simp only [Function.comp_apply, Bool.and_eq_true, beq_iff_eq, Option.isNone_iff_eq_none,
            decide_eq_true_eq]
          grind
      · rw [count_unless]
        simp only [areAllApart_resolvedTargets ht hn]
    · cases spec.guard with
      | none => simp
      | some guard => simp [count_unless]
  · cases spec.inState with
    | none => simp
    | some reference => simp [count_unless]

end Chart

/-! ## All errors -/

namespace Description

variable {d : Description} {hasGuard : String → Bool}

theorem count_keyViolations (d : Description) (v : Violation) :
    (d.tree.places.toList.flatMap d.tree.keyViolations).count v =
      d.countStates (fun n _ => d.tree.KeyBreach n v) := by
  classical
  rw [places_eq, List.flatMap_map]
  exact count_flatMap_eq_countP fun n _ =>
    count_eq_ite (d.tree.nodup_keyViolations _) (fun _ => Tree.mem_keyViolations d.inOrder) v

theorem count_claims (d : Description) (name : String) :
    (d.tree.places.toList.flatMap Place.names).count name =
      d.countStates (fun n s => d.tree.Claims n s name) := by
  classical
  rw [places_eq, List.flatMap_map]
  refine count_flatMap_eq_countP fun n hn => ?_
  rw [count_names, (place_declaration (List.mem_range.mp hn)).1]
  exact if_congr Iff.rfl rfl rfl

theorem count_repeatedClaims (d : Description) (v : Violation) :
    (repeatedNames [] (d.tree.places.toList.flatMap Place.names)).count v = d.surplusClaims v := by
  by_cases hv : ∃ name, v = .duplicateId name
  · obtain ⟨name, rfl⟩ := hv
    rw [count_repeatedNames, if_neg List.not_mem_nil, count_claims, surplusClaims]
  · rw [List.count_eq_zero.mpr (mt eq_duplicateId_of_mem_repeatedNames hv)]
    cases v with
    | duplicateId name => exact absurd ⟨name, rfl⟩ hv
    | _ => rfl

theorem kind_root (d : Description) : d.tree.kind Tree.root = d.root.effectiveKind := by
  have hkind : d.tree.kind Tree.root = (d.declaration Tree.root).effectiveKind :=
    (place_declaration d.inOrder.size_pos).2
  rw [hkind, declaration_root]

theorem count_structureViolations (hroot : d.root.effectiveKind.isHistory = false)
    (v : Violation) :
    (d.states.mapIdx (fun n s => d.tree.structureViolations n s)).flatten.count v =
      d.countStates (fun n s => d.tree.StructureBreach n s v) := by
  classical
  rw [← kind_root] at hroot
  rw [mapIdx_states, ← List.flatMap_def]
  refine count_flatMap_eq_countP fun n hn => ?_
  have hn := List.mem_range.mp hn
  refine count_eq_ite (d.tree.nodup_structureViolations n _) (fun v => ?_) v
  exact ⟨Tree.structureBreach_of_mem hroot hn, Tree.mem_structureViolations_of_breach hroot hn⟩

/-- Compilation reports the breaches of all rules. -/
theorem reports_violations (hroot : d.root.effectiveKind.isHistory = false)
    (hasGuard : String → Bool) : d.Reports hasGuard (d.violations hasGuard) := by
  refine ⟨(if d.id = "" then [.missingMachineId] else []) ++
      d.tree.nameViolations [] d.tree.places.toList ++
      (d.states.mapIdx (fun n s => d.tree.structureViolations n s)).flatten,
    d.transitions.map (fun e => d.tree.transitionViolations hasGuard e.1 e.2.1 e.2.2),
    ?_, fun v => ?_, ?_⟩
  · rw [violations, mapIdx_states (f := fun n s => d.tree.allTransitionViolations hasGuard n s),
      ← List.flatMap_def, ← List.flatMap_def, transitions]
    simp only [List.flatMap_assoc, List.flatMap_map]
    rfl
  · have hid : (if d.id = "" then [Violation.missingMachineId] else []).count v =
        if d.id = "" ∧ v = .missingMachineId then 1 else 0 := by
      by_cases h : d.id = "" <;> simp [h, count_single]
    rw [List.count_append, List.count_append, Tree.count_nameViolations, hid,
      count_keyViolations, count_repeatedClaims, count_structureViolations hroot, stateBreaches]
    omega
  · rw [List.forall₂_map_right_iff, List.forall₂_same]
    intro e he v
    have hn : e.1 < d.tree.size := by
      simp only [transitions, List.mem_flatMap, List.mem_map, List.mem_range] at he
      obtain ⟨n, hn, -, -, -, -, rfl⟩ := he
      exact hn
    exact d.chart.count_transitionViolations d.inOrder hn hasGuard e.2.1 e.2.2 v

/-- What is reported is a breach of a rule. -/
theorem Reports.mem_iff {errors : List Violation} (h : d.Reports hasGuard errors) {v : Violation} :
    v ∈ errors ↔ d.stateBreaches v ≠ 0 ∨
      ∃ e ∈ d.transitions, d.chart.transitionBreaches hasGuard e.1 e.2.1 e.2.2 v ≠ 0 := by
  obtain ⟨earlier, blocks, rfl, hstates, hblocks⟩ := h
  have hlater : (∃ block ∈ blocks, v ∈ block) ↔ ∃ e ∈ d.transitions,
      d.chart.transitionBreaches hasGuard e.1 e.2.1 e.2.2 v ≠ 0 := by
    generalize d.transitions = declared at hblocks ⊢
    induction hblocks with
    | nil => simp
    | cons hblock _ ih =>
      simp only [List.mem_cons, exists_eq_or_imp, ih, ← hblock, ne_eq, List.count_eq_zero, not_not]
  rw [List.mem_append, List.mem_flatten, hlater, ← hstates, ne_eq, List.count_eq_zero, not_not]

/-- Nothing is reported if and only if no rule is broken. -/
theorem Reports.eq_nil_iff {errors : List Violation} (h : d.Reports hasGuard errors) :
    errors = [] ↔ d.Sound hasGuard := by
  rw [List.eq_nil_iff_forall_not_mem]
  simp only [h.mem_iff, Sound, not_or, not_exists, not_and, ne_eq, not_not]

section Reported

variable {errors : List Violation} (h : d.Reports hasGuard errors)
include h

end Reported

variable {γ : Type}

/-- The list of errors is complete and exact. A description becomes a machine if it breaks no rule;
otherwise each breach of a rule is reported once, whatever other rules are broken, and nothing else
is; the errors of transitions stand in the order of their declarations. -/
theorem compile_reports_breaches (d : Description) (hroot : d.root.effectiveKind.isHistory = false)
    (guards : Guards γ) (options : Options) :
    ((∃ m, d.compile guards options = .ok m) ↔ d.Sound guards.contains) ∧
      ∀ errors, d.compile guards options = .error errors → d.Reports guards.contains errors := by
  have hreports := reports_violations hroot guards.contains
  refine ⟨?_, fun errors herrors => ?_⟩
  · rw [← hreports.eq_nil_iff]
    exact ⟨fun ⟨m, hm⟩ => violations_of_compile hm, fun h => ⟨_, compile_of_accepted h⟩⟩
  · unfold compile at herrors
    split at herrors
    · exact absurd herrors (by simp)
    · exact Except.error.inj herrors ▸ hreports

/-! ## A draft -/

/-- A draft in which almost everything is wrong: it has no id and begins nowhere, two of its states
share their key and their label, and some of its targets are in conflict or missing. -/
def draft : Description where
  id := ""
  root := { State.empty with
    states := [
      ("a.b", { State.empty with label := some "shared", initial := some "x" }),
      ("a.b", { State.empty with
        label := some "shared"
        on := .ofList [("GO", [.target "lost", .detailed
          { TransitionSpec.empty with
            targets := ["#shared", "lost", "end", "lost"]
            guard := some "ready"
            inState := some "lost" }])]
        onDone := some [.target ".lost"] }),
      ("end", { State.empty with
        kind := some .final
        states := [("c", State.empty)]
        onDone := some [] }),
      ("past", { State.empty with history := some .deep, target := some "lost" })] }

/-- All that is wrong with the draft. -/
def draft.errors : List Violation := [
  .missingMachineId,
  .invalidKey "" "a.b",
  .invalidKey "" "a.b",
  .duplicateId ".a.b",
  .duplicateId "shared",
  .missingInitial "",
  .unknownInitial ".a.b" "x",
  .invalidFinal ".end" .children,
  .invalidFinal ".end" .transitions,
  .unresolvedTarget ".past" Violation.historyDefaultEvent "lost",
  .unresolvedTarget ".a.b" "GO" "lost",
  .unresolvedTarget ".a.b" "GO" "lost",
  .unresolvedTarget ".a.b" "GO" "lost",
  .conflictingTargets ".a.b" "GO" ["#shared", "lost", "end", "lost"],
  .unknownGuard ".a.b" "GO" "ready",
  .unresolvedInState ".a.b" "GO" "lost",
  .unresolvedTarget ".a.b" "done.state..a.b" ".lost"]

theorem compile_draft :
    draft.compile (.empty : Guards Unit) .standard = .error draft.errors := by
  have h : draft.violations (SortedMap.empty : Guards Unit).contains = draft.errors := by
    decide +kernel
  rw [compile, h]
  rfl

theorem draft_reports_breaches :
    draft.root.effectiveKind.isHistory = false ∧
      draft.compile (.empty : Guards Unit) .standard = .error draft.errors ∧
      ¬ draft.Sound (SortedMap.empty : Guards Unit).contains ∧
      draft.Reports (SortedMap.empty : Guards Unit).contains draft.errors := by
  obtain ⟨hok, herror⟩ := compile_reports_breaches draft rfl (.empty : Guards Unit) .standard
  refine ⟨rfl, compile_draft, fun hsound => ?_, herror draft.errors compile_draft⟩
  obtain ⟨m, hm⟩ := hok.mpr hsound
  rw [compile_draft] at hm
  exact nomatch hm

end Description

end Statechart
