/-
# Statechart.Proofs.Step.Rooted -- when everything around stays active

A microstep names only states of the machine, in what it leaves active and in what it records
(`Known.microstep`). Of a set that holds everything around its states it makes such a set again
exactly if the domains below which it enters something are active afterwards
(`microstep_rooted_iff`): what it leaves it leaves with all that is below, and what it enters leads
up to the domains.
-/

import Statechart.Proofs.Entry.Upward
import Statechart.Proofs.Step.Microstep

namespace Statechart.Chart

variable {c : Chart} {a : Active} {transitions : List Transition} {n p : Nat}

/-- What is active and what is recorded are states of the machine, and the root is active. -/
structure Known (c : Chart) (a : Active) : Prop where
  root_mem : Tree.root ∈ a
  lt_size : ∀ {n}, n ∈ a → n < c.size
  records : c.RecordsKnown a

/-- The domains below which a microstep enters something are active after it. -/
def Anchored (c : Chart) (a : Active) (transitions : List Transition) : Prop :=
  ∀ r ∈ transitions, ∀ d, c.Domain r d →
    (∃ m ∈ c.entrySet (c.left a transitions) transitions, m ∈ c.children d) →
    d ∈ (c.microstep a transitions).active

section

variable (hc : c.WellFormed)
include hc

theorem recordsKnown_left (ha : c.Known a) (transitions : List Transition) :
    c.RecordsKnown (c.left a transitions) := by
  intro h states hs
  rcases recorded?_left_cases hc hs with hs | ⟨p, depth, hk, -, -, rfl⟩
  · exact ha.records h states hs
  · exact ⟨by rw [hk]; rfl, fun x hx => ha.lt_size (mem_of_mem_snapshot hx)⟩

/-- With a state everything below it is left. -/
theorem parent_mem_left (ha : c.Rooted a) (hn : n ∈ c.left a transitions)
    (hp : n ∈ c.children p) : p ∈ c.left a transitions := by
  obtain ⟨hna, hnot⟩ := mem_left.mp hn
  refine mem_left.mpr ⟨ha.parent_mem hna hp, fun hmem => hnot ?_⟩
  obtain ⟨r, hr, d, hdom, -, hpd⟩ := mem_exits.mp hmem
  have hnd := hc.inOrder.below_trans (hc.inOrder.below_child hp) hpd
  exact mem_exits.mpr ⟨r, hr, d, hdom, hna, hnd⟩

section

variable (ha : c.Known a) (hdeclared : ∀ r ∈ transitions, c.Declares r)
include ha hdeclared

theorem Known.microstep : c.Known (c.microstep a transitions).active where
  root_mem := mem_microstep.mpr (Or.inl (root_mem_left hc ha.root_mem))
  lt_size := by
    intro n hn
    rcases mem_microstep.mp hn with hn | hn
    · exact ha.lt_size (mem_left.mp hn).1
    · exact hc.lt_size_of_mem_entrySet (recordsKnown_left hc ha transitions) hdeclared hn
  records := by
    intro h states hs
    rw [recorded?_microstep] at hs
    exact recordsKnown_left hc ha transitions h states hs

/-- Everything around the active states stays active exactly if the domains do. -/
theorem microstep_rooted_iff (hrooted : c.Rooted a) :
    c.Rooted (c.microstep a transitions).active ↔ c.Anchored a transitions := by
  constructor
  · rintro hafter r - d - ⟨m, hm, hmd⟩
    exact hafter.parent_mem (mem_microstep.mpr (Or.inr hm)) hmd
  · intro hanchored
    have hknown := ha.microstep hc hdeclared
    refine ⟨hknown.root_mem, hknown.lt_size, fun {n p} hn hp => ?_⟩
    rcases mem_microstep.mp hn with hn | hn
    · exact mem_microstep.mpr (Or.inl (parent_mem_left hc hrooted hn hp))
    · have hleft := recordsKnown_left hc ha transitions
      rcases hc.parent_of_mem_entrySet hleft hdeclared hn hp with hmem | ⟨r, hr, hd⟩
      · exact mem_microstep.mpr (Or.inr hmem)
      · exact hanchored r hr p hd ⟨n, hn, hp⟩

end

end

end Statechart.Chart
