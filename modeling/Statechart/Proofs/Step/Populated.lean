/-
# Statechart.Proofs.Step.Populated -- empty records that are not followed

A record that holds no states leaves a history state standing for nothing, so a microstep that
follows it need not keep a set sound. Where none is followed, the same happens without the empty
records (`mem_microstep_filled`), and so two children of a compound state are all that can get in
the way of a legal set (`microstep_legal_iff_of_populated`).
-/

import Statechart.Proofs.Entry.Local
import Statechart.Proofs.Step.Preservation

namespace Statechart

/-- A set without its empty records. -/
def Active.filled (a : Active) : Active :=
  { a with history := a.history.filter fun e => !e.2.isEmpty }

namespace Chart

variable {c : Chart} {a b : Active} {transitions : List Transition} {h n x : Nat}

theorem recorded?_filled {states : SortedSet Nat} : a.filled.recorded? h = some states ↔
    a.recorded? h = some states ∧ ∃ n, n ∈ states := by
  have hsome : (!states.isEmpty) = true ↔ ∃ n, n ∈ states := by
    rw [Bool.not_eq_true', SortedSet.isEmpty, List.isEmpty_eq_false_iff_exists_mem]
    rfl
  rw [← hsome]
  exact SortedMap.get?_filter_eq_some

theorem recorded?_filled_of_ne (h : a.recorded? x ≠ some .empty) :
    a.filled.recorded? x = a.recorded? x := by
  refine Option.ext fun states => recorded?_filled.trans ⟨And.left, fun hs => ⟨hs, ?_⟩⟩
  by_contra hnone
  push Not at hnone
  have hempty : states = .empty :=
    SortedSet.ext fun n => iff_of_false (hnone n) (SortedSet.not_mem_empty n)
  exact h (hempty ▸ hs)

theorem recordsInside_filled (hc : c.WellFormed) (hknown : c.RecordsKnown a)
    (hbelow : c.RecordsBelow a) : c.RecordsInside a.filled := by
  intro h states hs
  obtain ⟨hs, hne⟩ := recorded?_filled.mp hs
  obtain ⟨p, hp⟩ := hc.exists_parent_of_history (hknown h states hs).1
  exact ⟨(hknown h states hs).1, hne, p, hp, hbelow h states p hs hp⟩

/-- No history state that following a target comes to holds an empty record. -/
def Populated (c : Chart) (a : Active) (x : Nat) : Prop :=
  ∀ h, Relation.ReflTransGen (c.Follows a) x h → (c.kind h).isHistory = true →
    a.recorded? h ≠ some .empty

/-- Then the empty records can as well be left out before leaving. -/
theorem sameFrom_filled (hc : c.WellFormed) (h : c.Populated (c.left a transitions) x) :
    c.SameFrom (c.left a transitions) (c.left a.filled transitions) x := by
  intro y hpath hk
  have hne := h y hpath hk
  obtain ⟨p, hp⟩ := hc.exists_parent_of_history hk
  obtain ⟨depth, hdepth⟩ := Kind.exists_depth hk
  rw [recorded?_left hc hp hdepth] at hne ⊢
  rw [recorded?_left hc hp hdepth]
  have hexits : c.exits a.filled transitions = c.exits a transitions := rfl
  rw [hexits]
  split
  · rfl
  · rename_i hstays
    rw [if_neg hstays] at hne
    exact (recorded?_filled_of_ne hne).symm

theorem Legal.congr (ha : c.Legal a) (h : ∀ n, n ∈ a ↔ n ∈ b) : c.Legal b where
  root_mem := (h _).mp ha.root_mem
  lt_size := fun hn => ha.lt_size ((h _).mpr hn)
  parent_mem := fun hn hp => (h _).mp (ha.parent_mem ((h _).mpr hn) hp)
  not_history := fun hn => ha.not_history ((h _).mpr hn)
  exists_unique := by
    intro n hn hk
    simpa only [h] using ha.exists_unique ((h n).mpr hn) hk
  region_mem := fun hn hk hq => (h _).mp (ha.region_mem ((h _).mpr hn) hk hq)

theorem Legal.filled (ha : c.Legal a) : c.Legal a.filled := ha.congr fun _ => Iff.rfl

section

variable (hc : c.WellFormed) (hpop : ∀ r ∈ transitions, ∀ x ∈ r.targets,
  c.Populated (c.left a transitions) x)
include hc hpop

theorem entrySet_filled : c.entrySet (c.left a.filled transitions) transitions =
    c.entrySet (c.left a transitions) transitions := by
  refine List.foldl_ext _ _ _ fun s r hr => ?_
  exact hc.addTransition_of_sameFrom
    (fun x hx => (sameFrom_filled hc (hpop r hr x hx)).symm) s

theorem mem_microstep_filled : n ∈ (c.microstep a.filled transitions).active ↔
    n ∈ (c.microstep a transitions).active := by
  rw [mem_microstep, mem_microstep, entrySet_filled hc hpop, mem_left, mem_left]
  rfl

end

section

variable (hc : c.WellFormed) (ha : c.Legal a) (hknown : c.RecordsKnown a)
  (hbelow : c.RecordsBelow a) (hroot : c.kind Tree.root ≠ .parallel)
include hc ha hknown hbelow hroot

/-- Transitions that follow no empty record lead to a legal set unless they enter two children of a
compound state. -/
theorem microstep_legal_iff_of_populated (hf : c.Firable a transitions)
    (hpop : ∀ r ∈ transitions, ∀ x ∈ r.targets, c.Populated (c.left a transitions) x) :
    c.Legal (c.microstep a transitions).active ↔
      c.Uncontested (c.entrySet (c.left a transitions) transitions) := by
  have hinside := recordsInside_filled hc hknown hbelow
  have hfire : c.Firable a.filled transitions :=
    ⟨hf.declared, hf.source_mem, hf.apart, fun r hr x hx =>
      (sameFrom_filled hc (hpop r hr x hx)).grounded (hf.grounded r hr x hx)⟩
  rw [← entrySet_filled hc hpop, ← microstep_legal_iff hc hinside hfire ha.filled hroot]
  exact ⟨fun h => h.congr fun _ => (mem_microstep_filled hc hpop).symm,
    fun h => h.congr fun _ => mem_microstep_filled hc hpop⟩

end

end Chart

end Statechart
