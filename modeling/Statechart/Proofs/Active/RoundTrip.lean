/-
# Statechart.Proofs.Active.RoundTrip -- configurations come back as they were

A configuration names the leaves of the active states and what history states have recorded.
Resolving the configuration of any set yields these records and, with the leaves, everything around
the states of the set (`resolve_configuration_of_known`). A set that holds everything around its
states comes back as it was, so a sound one does, unless it is found at fault
(`resolve_configuration`); this never happens to a legal one (`fault?_eq_none`), and to every other
one it does (`legal_iff_resolve`).
-/

import Statechart.Proofs.Active.Accepted

namespace Statechart.Chart

variable {c : Chart} {a : Active} {h n p : Nat}

/-! ## What is named comes back -/

/-- The state that answers to an id that is known. -/
def number (c : Chart) (id : String) : Nat := (c.lookup? id).getD Tree.root

theorem mem_idsOf {states : SortedSet Nat} {id : String} :
    id ∈ Active.idsOf c.toTree states ↔ ∃ n ∈ states, c.id n = id := by
  rw [Active.idsOf, SortedSet.mem_ofList, List.mem_map]
  rfl

theorem mem_leaves_configuration {id : String} :
    id ∈ (a.configuration c.toTree).leaves ↔ ∃ l ∈ a.leaves c.toTree, c.id l = id := by
  rw [Active.configuration, SortedSet.mem_ofList, List.mem_map]

/-- The active states with everything around them. -/
def surrounded (c : Chart) (a : Active) : Active :=
  { a with states := .ofList (a.states.toList.flatMap c.lineage) }

@[simp] theorem mem_surrounded : n ∈ c.surrounded a ↔ ∃ m ∈ a, c.Within m n := by
  rw [surrounded, Active.mem_iff, SortedSet.mem_ofList, List.mem_flatMap]
  rfl

namespace WellFormed

variable (hc : c.WellFormed)
include hc

theorem number_id (hn : n < c.size) : c.number (c.id n) = n := by
  rw [number, hc.lookup?_id hn]
  rfl

/-- A set of states comes back from its ids. -/
theorem ofList_number_idsOf {states : SortedSet Nat} (h : ∀ n ∈ states, n < c.size) :
    SortedSet.ofList ((Active.idsOf c.toTree states).toList.map c.number) = states := by
  refine SortedSet.ext fun n => ?_
  rw [SortedSet.mem_ofList, List.mem_map]
  constructor
  · rintro ⟨id, hid, rfl⟩
    obtain ⟨m, hm, rfl⟩ := mem_idsOf.mp hid
    rwa [hc.number_id (h m hm)]
  · intro hn
    exact ⟨c.id n, mem_idsOf.mpr ⟨n, hn, rfl⟩, hc.number_id (h n hn)⟩

/-- The entry of a record by id comes back as that by number. -/
theorem resolveRecord_id {states : SortedSet Nat} {checks : Bool}
    (hk : (c.kind h).isHistory = true) (hlt : ∀ x ∈ states, x < c.size)
    (hbelow : checks = true → ∀ p, h ∈ c.children p → ∀ x ∈ states, c.Below x p) :
    Active.resolveRecord c.toTree checks (c.id h, Active.idsOf c.toTree states) =
      .ok (h, states) := by
  obtain ⟨p, hp⟩ := hc.exists_parent_of_history hk
  refine Active.resolveRecord_eq_ok.mpr
    ⟨hc.lookup?_id (hc.inOrder.child_lt_size hp), hk, p, hc.inOrder.parent?_child hp, _, ?_,
      (hc.ofList_number_idsOf hlt).symm⟩
  refine mapM_eq_ok fun id hid => ?_
  obtain ⟨n, hn, rfl⟩ := mem_idsOf.mp hid
  rw [hc.number_id (hlt n hn)]
  exact Active.resolveRecorded_eq_ok.mpr
    ⟨hc.lookup?_id (hlt n hn), fun hchecks => hbelow hchecks p hp n hn⟩

/-! ### Leaves -/

/-- A set that holds everything around its states stays as it is, and no other one does. -/
theorem surrounded_eq_iff :
    c.surrounded a = a ↔ ∀ {n p}, n ∈ a → n ∈ c.children p → p ∈ a := by
  constructor
  · intro heq n p hn hp
    rw [← heq, mem_surrounded]
    exact ⟨n, hn, (hc.inOrder.below_child hp).within⟩
  · intro hparent
    refine Active.ext (fun n => ?_) fun _ => rfl
    rw [mem_surrounded]
    constructor
    · rintro ⟨m, hm, hmn⟩
      exact hc.mem_of_within hparent hm hmn
    · intro hn
      exact ⟨n, hn, Tree.within_self _ n⟩

section

variable (hlt : ∀ {n}, n ∈ a → n < c.size) {checks : Bool}
include hlt

/-- The leaves of a configuration are found. -/
theorem mapM_resolveLeaf
    (hleaf : checks = true → ∀ l ∈ a.leaves c.toTree, (c.kind l).isLeaf = true) :
    (a.configuration c.toTree).leaves.toList.mapM (Active.resolveLeaf c.toTree checks) =
      .ok ((a.configuration c.toTree).leaves.toList.map c.number) := by
  refine mapM_eq_ok fun id hid => ?_
  obtain ⟨l, hl, rfl⟩ := mem_leaves_configuration.mp hid
  have hsize := hlt (mem_leaves.mp hl).1
  rw [hc.number_id hsize]
  exact Active.resolveLeaf_eq_ok.mpr
    ⟨hc.lookup?_id hsize, fun hchecks => hleaf hchecks l hl⟩

/-- The leaves with what is around them are all active states with what is around these. -/
theorem ofList_lineage : SortedSet.ofList
    (((a.configuration c.toTree).leaves.toList.map c.number).flatMap c.lineage) =
      (c.surrounded a).states := by
  refine SortedSet.ext fun n => ?_
  rw [SortedSet.mem_ofList, List.mem_flatMap, ← Active.mem_iff, mem_surrounded]
  constructor
  · rintro ⟨l, hl, hln⟩
    obtain ⟨id, hid, rfl⟩ := List.mem_map.mp hl
    obtain ⟨m, hm, rfl⟩ := mem_leaves_configuration.mp hid
    rw [hc.number_id (hlt (mem_leaves.mp hm).1)] at hln
    exact ⟨m, (mem_leaves.mp hm).1, hln⟩
  · rintro ⟨m, hm, hmn⟩
    obtain ⟨l, hl, hlm⟩ := hc.exists_leaf hlt hm
    have hid := mem_leaves_configuration.mpr ⟨l, hl, rfl⟩
    refine ⟨l, List.mem_map.mpr ⟨c.id l, hid, ?_⟩, hc.inOrder.within_trans hlm hmn⟩
    exact hc.number_id (hlt (mem_leaves.mp hl).1)

theorem leaves_configuration_ne_nil (hn : n ∈ a) :
    (a.configuration c.toTree).leaves.isEmpty = false := by
  obtain ⟨l, hl, -⟩ := hc.exists_leaf hlt hn
  have hmem := mem_leaves_configuration.mpr ⟨l, hl, rfl⟩
  rw [SortedSet.isEmpty, List.isEmpty_eq_false_iff]
  exact List.ne_nil_of_mem hmem

end

/-! ### Records -/

section

variable (hrec : c.RecordsKnown a) {checks : Bool}
include hrec

theorem lt_size_of_recorded {states : SortedSet Nat} (hs : (h, states) ∈ a.history.toList) :
    h < c.size := by
  obtain ⟨hk, -⟩ := hrec h states (SortedMap.mem_toList.mp hs)
  obtain ⟨p, hp⟩ := hc.exists_parent_of_history hk
  exact hc.inOrder.child_lt_size hp

/-- An entry of the history of a configuration is an entry of the records by id. -/
theorem mem_history_configuration {e : String × SortedSet String} :
    e ∈ (a.configuration c.toTree).history.toList ↔
      ∃ f ∈ a.history.toList, (c.id f.1, Active.idsOf c.toTree f.2) = e := by
  rw [Active.configuration, SortedMap.mem_toList_ofList, List.mem_map]
  intro e he f hf heq
  obtain ⟨⟨h, states⟩, hs, rfl⟩ := List.mem_map.mp he
  obtain ⟨⟨h', states'⟩, hs', rfl⟩ := List.mem_map.mp hf
  -- ids tell history states apart, and a history state has one record
  have hh : h = h' := by
    rw [← hc.number_id (hc.lt_size_of_recorded hrec hs),
      ← hc.number_id (hc.lt_size_of_recorded hrec hs')]
    exact congrArg c.number heq
  subst hh
  have hstates := SortedMap.mem_toList.mp hs
  rw [SortedMap.mem_toList.mp hs'] at hstates
  rw [Option.some.inj hstates]

/-- The records of a configuration are found. -/
theorem mapM_resolveRecord (hbelow : checks = true → c.RecordsBelow a) :
    (a.configuration c.toTree).history.toList.mapM (Active.resolveRecord c.toTree checks) =
      .ok ((a.configuration c.toTree).history.toList.map
        (fun e => (c.number e.1, SortedSet.ofList (e.2.toList.map c.number)))) := by
  refine mapM_eq_ok fun e he => ?_
  obtain ⟨⟨h, states⟩, hs, rfl⟩ := (hc.mem_history_configuration hrec).mp he
  have hget := SortedMap.mem_toList.mp hs
  obtain ⟨hk, hlt⟩ := hrec h states hget
  rw [hc.number_id (hc.lt_size_of_recorded hrec hs), hc.ofList_number_idsOf hlt]
  exact hc.resolveRecord_id hk hlt fun hchecks p hp => hbelow hchecks h states p hget hp

/-- They are the records there were. -/
theorem ofList_records : SortedMap.ofList ((a.configuration c.toTree).history.toList.map
    (fun e => (c.number e.1, SortedSet.ofList (e.2.toList.map c.number)))) = a.history := by
  have hmem : ∀ e, e ∈ (a.configuration c.toTree).history.toList.map
      (fun e => (c.number e.1, SortedSet.ofList (e.2.toList.map c.number))) ↔
        e ∈ a.history.toList := by
    have hback : ∀ f ∈ a.history.toList, (c.number (c.id f.1),
        SortedSet.ofList ((Active.idsOf c.toTree f.2).toList.map c.number)) = f := by
      rintro ⟨h, states⟩ hs
      obtain ⟨-, hlt⟩ := hrec h states (SortedMap.mem_toList.mp hs)
      rw [hc.number_id (hc.lt_size_of_recorded hrec hs), hc.ofList_number_idsOf hlt]
    intro e
    rw [List.mem_map]
    constructor
    · rintro ⟨e, he, rfl⟩
      obtain ⟨f, hf, rfl⟩ := (hc.mem_history_configuration hrec).mp he
      exact (hback f hf).symm ▸ hf
    · intro he
      exact ⟨_, (hc.mem_history_configuration hrec).mpr ⟨e, he, rfl⟩, hback e he⟩
  refine SortedMap.ext_entries fun e => ?_
  rw [SortedMap.mem_toList_ofList, hmem]
  rintro ⟨h, states⟩ he ⟨h', states'⟩ hf heq
  have hs := SortedMap.mem_toList.mp ((hmem _).mp he)
  have hs' := SortedMap.mem_toList.mp ((hmem _).mp hf)
  simp only at heq
  subst heq
  rw [hs] at hs'
  exact Option.some.inj hs'

end

/-! ### Configurations -/

/-- The configuration of a set resolves to the set with everything around its states, unless
checking finds a fault in that. -/
theorem resolve_configuration_of_known (hlt : ∀ {n}, n ∈ a → n < c.size) (hn : n ∈ a)
    (hrec : c.RecordsKnown a) {checks : Bool}
    (hchecks : checks = true → (∀ l ∈ a.leaves c.toTree, (c.kind l).isLeaf = true) ∧
      c.RecordsBelow a) :
    Active.resolve c.toTree checks (a.configuration c.toTree) =
      match (c.surrounded a).fault? c.toTree with
      | some e => if checks then .error e else .ok (c.surrounded a)
      | none => .ok (c.surrounded a) := by
  rw [Active.resolve, hc.leaves_configuration_ne_nil hlt hn,
    hc.mapM_resolveLeaf hlt fun h => (hchecks h).1,
    hc.mapM_resolveRecord hrec fun h => (hchecks h).2]
  have heq : (⟨.ofList (((a.configuration c.toTree).leaves.toList.map c.number).flatMap
      c.lineage), .ofList ((a.configuration c.toTree).history.toList.map
        (fun e => (c.number e.1, SortedSet.ofList (e.2.toList.map c.number))))⟩ : Active) =
      c.surrounded a := by
    rw [hc.ofList_lineage hlt, hc.ofList_records hrec]
    rfl
  cases hfault : (c.surrounded a).fault? c.toTree <;>
    simp only [Bool.false_eq_true, if_false, bind, Except.bind, heq, hfault]

/-- The configuration of a sound set resolves to that set, unless checking finds a fault in it. -/
theorem resolve_configuration (ha : c.Sound a) (hrec : c.RecordsInside a) (checks : Bool) :
    Active.resolve c.toTree checks (a.configuration c.toTree) =
      match a.fault? c.toTree with
      | some e => if checks then .error e else .ok a
      | none => .ok a := by
  have heq := hc.surrounded_eq_iff.mpr ha.parent_mem
  have hres := hc.resolve_configuration_of_known ha.lt_size ha.root_mem hrec.known
    fun _ : checks = true => ⟨fun l hl => ha.isLeaf_of_leaf hl, hc.recordsBelow_of_inside hrec⟩
  rwa [heq] at hres

theorem resolve_configuration_unchecked (ha : c.Sound a) (hrec : c.RecordsInside a) :
    Active.resolve c.toTree false (a.configuration c.toTree) = .ok a := by
  rw [hc.resolve_configuration ha hrec]
  split <;> rfl

/-- No fault is found in a legal set. -/
theorem fault?_eq_none (ha : c.Legal a) : a.fault? c.toTree = none := by
  refine List.findSome?_eq_none_iff.mpr fun n hn => ?_
  rw [← SortedSet.mem_iff, ← Active.mem_iff] at hn
  unfold Active.faultAt?
  split
  · rename_i hk
    refine if_neg (Nat.not_lt_of_le ?_)
    -- two active children of a compound state are one
    have hnodup : ((c.regions n).filter (fun q => decide (q ∈ a))).Nodup :=
      ((hc.inOrder.nodup_children n).filter _).filter _
    refine length_le_one hnodup fun q hq p hp => ?_
    rw [List.mem_filter, decide_eq_true_eq] at hq hp
    exact ha.unique hk (Tree.region_child hq.1) (Tree.region_child hp.1) hq.2 hp.2
  · rename_i hk
    rw [Option.map_eq_none_iff, List.find?_eq_none]
    intro q hq
    simpa using ha.region_mem hn hk hq
  all_goals rfl

/-- The configuration of a legal set resolves to it, checked or not, if its records are of states
below the parents of their history states. -/
theorem resolve_legal (ha : c.Legal a) (hknown : c.RecordsKnown a) (hbelow : c.RecordsBelow a)
    (checks : Bool) : Active.resolve c.toTree checks (a.configuration c.toTree) = .ok a := by
  have hres := hc.resolve_configuration_of_known ha.lt_size ha.root_mem hknown
    fun _ : checks = true => ⟨fun l hl => (ha.sound hc).isLeaf_of_leaf hl, hbelow⟩
  rwa [hc.surrounded_eq_iff.mpr ha.parent_mem, hc.fault?_eq_none ha] at hres

/-- Just the legal sets come back when they are checked. -/
theorem legal_iff_resolve (hknown : c.RecordsKnown a) (hbelow : c.RecordsBelow a) : c.Legal a ↔
    Active.resolve c.toTree true (a.configuration c.toTree) = .ok a :=
  ⟨fun ha => hc.resolve_legal ha hknown hbelow true, fun h => hc.legal_of_resolve h⟩

end WellFormed

end Statechart.Chart
