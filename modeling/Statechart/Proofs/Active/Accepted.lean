/-
# Statechart.Proofs.Active.Accepted -- what an accepted configuration describes

A configuration that resolves names only states of the machine. What it describes is active with
everything around it, and its records are held for history states (`rooted_of_resolve`,
`recordsKnown_of_resolve`). Where configurations are checked it describes a legal set, with records
below the parents of their history states (`legal_of_resolve`, `recordsBelow_of_resolve`). Checking
refuses configurations and changes none (`Active.resolve_unchecked`).
-/

import Statechart.Active.Resolution
import Statechart.Proofs.Active.Legal
import Statechart.Proofs.Entry.Goals
import Statechart.Proofs.Lists

namespace Statechart

/-! ## How resolving succeeds -/

namespace Active

variable {t : Tree} {checks : Bool} {a : Active} {configuration : Configuration} {id : String}
  {h n parent : Nat} {states : SortedSet Nat}

theorem find_eq_ok : find t id = .ok n ↔ t.lookup? id = some n := by
  unfold find
  cases t.lookup? id <;> simp

theorem resolveLeaf_eq_ok : resolveLeaf t checks id = .ok n ↔
    t.lookup? id = some n ∧ (checks = true → (t.kind n).isLeaf = true) := by
  unfold resolveLeaf
  rw [bind_eq_ok]
  simp only [find_eq_ok]
  constructor
  · rintro ⟨k, hk, hif⟩
    split at hif
    · cases hif
    · rename_i htest
      obtain rfl := Except.ok.inj hif
      exact ⟨hk, fun hchecks => by simpa [hchecks] using htest⟩
  · rintro ⟨hn, hleaf⟩
    refine ⟨n, hn, if_neg ?_⟩
    cases checks <;> simp_all

theorem resolveRecorded_eq_ok {history : String} :
    resolveRecorded t checks history parent id = .ok n ↔
      t.lookup? id = some n ∧ (checks = true → t.Below n parent) := by
  unfold resolveRecorded
  rw [bind_eq_ok]
  simp only [find_eq_ok]
  constructor
  · rintro ⟨k, hk, hif⟩
    split at hif
    · cases hif
    · rename_i htest
      obtain rfl := Except.ok.inj hif
      exact ⟨hk, fun hchecks => by simpa [hchecks] using htest⟩
  · rintro ⟨hn, hbelow⟩
    refine ⟨n, hn, if_neg ?_⟩
    cases checks <;> simp_all

theorem resolveRecord_eq_ok {e : String × SortedSet String} :
    resolveRecord t checks e = .ok (h, states) ↔
      t.lookup? e.1 = some h ∧ (t.kind h).isHistory = true ∧ ∃ parent, t.parent? h = some parent ∧
        ∃ l, e.2.toList.mapM (resolveRecorded t checks e.1 parent) = .ok l ∧
          states = .ofList l := by
  unfold resolveRecord
  rw [bind_eq_ok]
  simp only [find_eq_ok]
  constructor
  · rintro ⟨k, hk, hmatch⟩
    split at hmatch
    · rename_i depth parent hkind hparent
      obtain ⟨l, hl, hmatch⟩ := bind_eq_ok.mp hmatch
      obtain ⟨rfl, rfl⟩ := Prod.mk.inj (Except.ok.inj hmatch)
      exact ⟨hk, by rw [hkind]; rfl, parent, hparent, l, hl, rfl⟩
    · cases hmatch
  · rintro ⟨hh, hkind, parent, hparent, l, hl, rfl⟩
    obtain ⟨depth, hdepth⟩ := Kind.exists_depth hkind
    refine ⟨h, hh, ?_⟩
    simp only [hdepth, hparent]
    exact bind_eq_ok.mpr ⟨l, hl, rfl⟩

/-- Resolving succeeds if there are leaves, all names are found and, where configurations are
checked, no fault is. -/
theorem resolve_eq_ok : resolve t checks configuration = .ok a ↔
    configuration.leaves.isEmpty = false ∧
      ∃ leaves, configuration.leaves.toList.mapM (resolveLeaf t checks) = .ok leaves ∧
        ∃ records, configuration.history.toList.mapM (resolveRecord t checks) = .ok records ∧
          a = ⟨.ofList (leaves.flatMap t.lineage), .ofList records⟩ ∧
            (checks = true → a.fault? t = none) := by
  unfold resolve
  cases hempty : configuration.leaves.isEmpty with
  | true => simp
  | false =>
    rw [if_neg Bool.false_ne_true, bind_eq_ok]
    simp only [bind_eq_ok, true_and]
    refine exists_congr fun leaves => and_congr_right fun _ => exists_congr fun records =>
      and_congr_right fun _ => ?_
    constructor
    · intro hmatch
      split at hmatch
      · rename_i e he
        split at hmatch
        · cases hmatch
        · rename_i hchecks
          obtain rfl := Except.ok.inj hmatch
          exact ⟨rfl, fun hc => absurd hc hchecks⟩
      · rename_i hnone
        obtain rfl := Except.ok.inj hmatch
        exact ⟨rfl, fun _ => hnone⟩
    · rintro ⟨rfl, hfault⟩
      split
      · rename_i e he
        refine if_neg fun hchecks => ?_
        rw [hfault hchecks] at he
        cases he
      · rfl

/-- Checking changes nothing about a configuration that it accepts. -/
theorem resolve_unchecked (h : resolve t true configuration = .ok a) :
    resolve t false configuration = .ok a := by
  obtain ⟨hne, leaves, hleaves, records, hrecords, rfl, -⟩ := resolve_eq_ok.mp h
  refine resolve_eq_ok.mpr ⟨hne, leaves, ?_, records, ?_, rfl, by simp⟩
  · refine mapM_mono hleaves fun id _ n hn => ?_
    exact resolveLeaf_eq_ok.mpr ⟨(resolveLeaf_eq_ok.mp hn).1, by simp⟩
  · refine mapM_mono hrecords fun e _ f hf => ?_
    obtain ⟨hh, hkind, parent, hparent, l, hl, hstates⟩ := resolveRecord_eq_ok.mp hf
    refine resolveRecord_eq_ok.mpr ⟨hh, hkind, parent, hparent, l, ?_, hstates⟩
    refine mapM_mono hl fun id _ n hn => ?_
    exact resolveRecorded_eq_ok.mpr ⟨(resolveRecorded_eq_ok.mp hn).1, by simp⟩

end Active

/-! ## What is described -/

namespace Chart

variable {c : Chart} {checks : Bool} {a : Active} {configuration : Configuration} {n q : Nat}

/-- A described state lies around a leaf that is named, which checking finds to be one. -/
theorem exists_named_leaf (h : Active.resolve c.toTree checks configuration = .ok a)
    (hn : n ∈ a) : ∃ l < c.size, c.Within l n ∧ (∀ m, c.Within l m → m ∈ a) ∧
      (checks = true → (c.kind l).isLeaf = true) := by
  obtain ⟨-, leaves, hleaves, records, -, rfl, -⟩ := Active.resolve_eq_ok.mp h
  have hmem : ∀ m, m ∈ (⟨.ofList (leaves.flatMap c.lineage), .ofList records⟩ : Active) ↔
      ∃ l ∈ leaves, c.Within l m := by
    intro m
    rw [Active.mem_iff, SortedSet.mem_ofList, List.mem_flatMap]
    rfl
  obtain ⟨l, hl, hln⟩ := (hmem n).mp hn
  obtain ⟨id, -, hid⟩ := exists_of_mapM_eq_ok hleaves l hl
  obtain ⟨hlookup, hleaf⟩ := Active.resolveLeaf_eq_ok.mp hid
  exact ⟨l, Tree.lookup?_lt hlookup, hln, fun m hm => (hmem m).mpr ⟨l, hl, hm⟩, hleaf⟩

/-- A described record is one that is named, and checking finds it where it must be. -/
theorem exists_named_record (h : Active.resolve c.toTree checks configuration = .ok a)
    {states : SortedSet Nat} (hr : a.recorded? n = some states) :
    (c.kind n).isHistory = true ∧ ∃ parent, c.parent? n = some parent ∧ ∀ x ∈ states,
      x < c.size ∧ (checks = true → c.Below x parent) := by
  obtain ⟨-, leaves, -, records, hrecords, rfl, -⟩ := Active.resolve_eq_ok.mp h
  obtain ⟨e, -, he⟩ := exists_of_mapM_eq_ok hrecords _ (SortedMap.mem_of_get?_ofList hr)
  obtain ⟨-, hkind, parent, hparent, l, hl, rfl⟩ := Active.resolveRecord_eq_ok.mp he
  refine ⟨hkind, parent, hparent, fun x hx => ?_⟩
  obtain ⟨id, -, hid⟩ := exists_of_mapM_eq_ok hl x (SortedSet.mem_ofList.mp hx)
  obtain ⟨hlookup, hbelow⟩ := Active.resolveRecorded_eq_ok.mp hid
  exact ⟨Tree.lookup?_lt hlookup, hbelow⟩

theorem recordsKnown_of_resolve (h : Active.resolve c.toTree checks configuration = .ok a) :
    c.RecordsKnown a := by
  intro k states hr
  obtain ⟨hkind, parent, -, hstates⟩ := exists_named_record h hr
  exact ⟨hkind, fun x hx => (hstates x hx).1⟩

/-- Where nothing is at fault, of two active children of a compound state one is the other, and
all regions of an active parallel state are active. -/
theorem children_of_fault?_eq_none (h : a.fault? c.toTree = none) (hn : n ∈ a) :
    (c.kind n = .compound → ∀ p ∈ c.regions n, ∀ q ∈ c.regions n, p ∈ a → q ∈ a → p = q) ∧
      (c.kind n = .parallel → ∀ q ∈ c.regions n, q ∈ a) := by
  have hat : a.faultAt? c.toTree n = none := List.findSome?_eq_none_iff.mp h n hn
  unfold Active.faultAt? at hat
  constructor
  · intro hk p hp q hq hpa hqa
    have hlength : ((c.regions n).filter (fun q => decide (q ∈ a))).length ≤ 1 := by
      simpa [hk] using hat
    exact eq_of_length_le_one hlength (by simp [hp, hpa]) (by simp [hq, hqa])
  · intro hk q hq
    simp only [hk, Option.map_eq_none_iff, List.find?_eq_none, decide_eq_true_eq,
      Decidable.not_not] at hat
    exact hat q hq

namespace WellFormed

variable (hc : c.WellFormed)
include hc

/-- All states of a configuration that is accepted are states of the machine. -/
theorem lt_size_of_resolve (h : Active.resolve c.toTree checks configuration = .ok a) :
    ∀ n ∈ a, n < c.size := by
  intro n hn
  obtain ⟨l, hl, hln, -⟩ := exists_named_leaf h hn
  exact hc.inOrder.lt_size_of_within hln hl

/-- A described set holds everything around its states. -/
theorem rooted_of_resolve (h : Active.resolve c.toTree checks configuration = .ok a) :
    c.Rooted a where
  root_mem := by
    obtain ⟨hne, leaves, hleaves, records, -, rfl, -⟩ := Active.resolve_eq_ok.mp h
    have hsome : leaves ≠ [] := by
      rintro rfl
      rw [SortedSet.isEmpty, List.isEmpty_eq_false_iff] at hne
      exact hne (List.forall₂_nil_right_iff.mp (mapM_eq_ok_iff.mp hleaves))
    obtain ⟨l, hl⟩ := List.exists_mem_of_ne_nil leaves hsome
    obtain ⟨id, -, hid⟩ := exists_of_mapM_eq_ok hleaves l hl
    have hlt := Tree.lookup?_lt (Active.resolveLeaf_eq_ok.mp hid).1
    rw [Active.mem_iff, SortedSet.mem_ofList]
    exact List.mem_flatMap.mpr ⟨l, hl, hc.inOrder.within_root hlt⟩
  lt_size := fun hn => hc.lt_size_of_resolve h _ hn
  parent_mem := by
    intro n p hn hp
    obtain ⟨l, -, hln, hall, -⟩ := exists_named_leaf h hn
    exact hall p (hc.inOrder.within_trans hln (hc.inOrder.below_child hp).within)

/-- A set described by a checked configuration is legal. -/
theorem legal_of_resolve (h : Active.resolve c.toTree true configuration = .ok a) :
    c.Legal a := by
  have hrooted := hc.rooted_of_resolve h
  have hfault : a.fault? c.toTree = none := by
    obtain ⟨-, _, -, _, -, -, hfault⟩ := Active.resolve_eq_ok.mp h
    exact hfault rfl
  -- a state that is not a leaf has one below it that is named, and so an active child
  have hinner : ∀ {n}, n ∈ a → (c.kind n).isLeaf = true ∨ ∃ q ∈ c.regions n, q ∈ a := by
    intro n hn
    obtain ⟨l, -, hln, hall, hleaf⟩ := exists_named_leaf h hn
    by_cases hne : l = n
    · exact Or.inl (hne ▸ hleaf rfl)
    · obtain ⟨q, hq, hlq⟩ := hc.inOrder.exists_child_within (hln.below_of_ne hne)
      refine Or.inr ⟨q, hc.region_of_within hq hlq ?_, hall q hlq⟩
      have hl := hleaf rfl
      cases hk : c.kind l <;> simp_all [Kind.isLeaf, Kind.isHistory]
  refine ⟨hrooted.root_mem, hrooted.lt_size, hrooted.parent_mem, ?_, ?_, ?_⟩
  · intro n hn
    rcases hinner hn with hleaf | ⟨q, hq, -⟩
    · cases hk : c.kind n <;> simp_all [Kind.isLeaf, Kind.isHistory]
    · exact hc.not_history_of_child (Tree.region_child hq)
  · intro n hn hk
    rcases hinner hn with hleaf | ⟨q, hq, hqa⟩
    · rw [hk] at hleaf
      exact absurd hleaf Bool.false_ne_true
    · refine ⟨q, ⟨hq, hqa⟩, fun p hp => ?_⟩
      exact (children_of_fault?_eq_none hfault hn).1 hk p hp.1 q hq hp.2 hqa
  · intro n q hn hk hq
    exact (children_of_fault?_eq_none hfault hn).2 hk q hq

/-- The records of a checked configuration lie below the parents of their history states. -/
theorem recordsBelow_of_resolve (h : Active.resolve c.toTree true configuration = .ok a) :
    c.RecordsBelow a := by
  intro k states p hr hp x hx
  obtain ⟨-, parent, hparent, hstates⟩ := exists_named_record h hr
  rw [hc.inOrder.parent?_child hp] at hparent
  rw [Option.some.inj hparent]
  exact (hstates x hx).2 rfl

end WellFormed

end Chart

end Statechart
