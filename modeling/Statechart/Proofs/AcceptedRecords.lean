/-
# Statechart.Proofs.AcceptedRecords -- when accepted records lead to a legal set

Checking a configuration asks of the leaves that they make a legal set, but of the states that a
history state has recorded only that each of them lies below its parent. A transition to the history
state enters all of these. So a legal set comes about exactly if there are recorded states and any
two of them can be entered in turn (`Machine.restored_legal_iff`), and that is sure only of records
that machines have made themselves.

Where the history state stands for history states in turn, what these stand for is to agree
(`Chart.microstep_legal_iff_agree`), as long as no empty record is followed.
-/

import Statechart.Proofs.Entry.Listed
import Statechart.Proofs.Independence
import Statechart.Proofs.SeveralTargets
import Statechart.Proofs.Step.Populated

namespace Statechart

namespace Chart

variable {c : Chart} {a : Active} {r : Transition} {d x : Nat}

/-- A target that is replaced by states at once follows no empty record, unless by none. -/
theorem populated_of_states (hne : c.restored a x ≠ [])
    (hstates : ∀ g ∈ c.restored a x, (c.kind g).isHistory = false) : c.Populated a x := by
  intro h hpath hk hs
  rcases Relation.ReflTransGen.cases_head hpath with rfl | ⟨y, hy, hrest⟩
  · refine hne ?_
    simp only [restored, hs]
    rfl
  · -- from a state nothing is followed
    have hyk := hstates y hy.2
    rcases Relation.ReflTransGen.cases_head hrest with rfl | ⟨z, hz, -⟩
    · exact absurd (hk.symm.trans hyk) (by decide)
    · exact absurd (hz.1.symm.trans hyk) (by decide)

/-- Where nothing is entered a compound domain is left without a child. -/
theorem not_legal_of_none_entered (hd : c.Domain r d) (hk : c.kind d = .compound)
    (hc : c.WellFormed) (hremains : d ∈ c.left a [r])
    (hnone : ∀ n, n ∉ c.entrySet (c.left a [r]) [r]) :
    ¬ c.Legal (c.microstep a [r]).active := by
  intro hlegal
  obtain ⟨q, ⟨hq, hqa⟩, -⟩ := hlegal.exists_unique (mem_microstep.mpr (Or.inl hremains)) hk
  rcases mem_microstep.mp hqa with hqa | hqe
  · obtain ⟨hqa, hstays⟩ := mem_left.mp hqa
    have hqd := hc.inOrder.below_child (Tree.region_child hq)
    exact hstays (mem_exits.mpr ⟨r, List.mem_singleton_self r, d, hd.domain_eq, hqa, hqd⟩)
  · exact hnone q hqe

section

variable (hc : c.WellFormed) (ha : c.Legal a) (hknown : c.RecordsKnown a)
  (hbelow : c.RecordsBelow a) (hroot : c.kind Tree.root ≠ .parallel) (hf : c.Firable a [r])
  (hd : c.Domain r d) (htargets : r.targets = [x])
include hc ha hknown hbelow hroot hf hd htargets

/-- A transition to one target that follows no empty record leads to a legal set exactly if its
goals agree and what begins begins toward them. -/
theorem microstep_legal_iff_agree (hpop : c.Populated (c.left a [r]) x) :
    c.Legal (c.microstep a [r]).active ↔ c.Agree (c.Goal (c.left a [r]) r) ∧
      c.BeginsToward (c.Goal (c.left a [r]) r) (c.entrySet (c.left a [r]) [r]) := by
  have hpop' : ∀ r' ∈ [r], ∀ y ∈ r'.targets, c.Populated (c.left a [r]) y := by
    simpa [htargets] using hpop
  have hsame : ∀ y ∈ r.targets, c.SameFrom (c.left a [r]) (c.left a.filled [r]) y :=
    fun y hy => sameFrom_filled hc (hpop' r (List.mem_singleton_self r) y hy)
  have hinside := recordsInside_left hc (ha.filled.sound hc)
    (recordsInside_filled hc hknown hbelow) [r]
  rw [microstep_legal_iff_of_populated hc ha hknown hbelow hroot hf hpop',
    goal_of_sameFrom hsame, ← entrySet_filled hc hpop']
  exact hc.uncontested_iff hinside hd fun y hy =>
    (hsame y hy).grounded (hf.grounded r (List.mem_singleton_self r) y hy)

/-- To a history state that stands for states that can be active, it leads to a legal set exactly if
there are such states and any two of them are compatible. -/
theorem microstep_legal_iff_compatible (hk : (c.kind x).isHistory = true)
    (hstates : ∀ g ∈ c.restored (c.left a [r]) x, (c.kind g).isHistory = false) :
    c.Legal (c.microstep a [r]).active ↔ c.restored (c.left a [r]) x ≠ [] ∧
      ∀ g ∈ c.restored (c.left a [r]) x, ∀ g' ∈ c.restored (c.left a [r]) x,
        c.Compatible g g' := by
  obtain ⟨p, hp⟩ := hc.exists_parent_of_history hk
  have hpd := hc.parent_within_of_inside (hd.targets_inside hc x (by simp [htargets])) hp
  have hentry := hc.entrySet_of_restored hd.domain_eq htargets hk hp hstates
  by_cases hnil : c.restored (c.left a [r]) x = []
  · refine iff_of_false ?_ fun h => h.1 hnil
    have hkd := hd.compound hc hroot ((hc.inOrder.below_child_iff hp).mpr hpd)
    have hremains := hf.domain_mem_left hc (ha.sound hc).rooted (List.mem_singleton_self r) hd
    refine not_legal_of_none_entered hd hkd hc hremains fun n => ?_
    rw [hentry, hnil]
    exact SortedSet.not_mem_empty n
  · have hpop := populated_of_states hnil hstates
    have hl : ∀ g ∈ c.restored (c.left a [r]) x, c.Below g p ∧ (c.kind g).isHistory = false :=
      fun g hg => ⟨hc.below_of_mem_restored (hc.recordsBelow_left hbelow [r]) hp hg, hstates g hg⟩
    rw [microstep_legal_iff_of_populated hc ha hknown hbelow hroot hf
      (by simpa [htargets] using hpop), hentry,
      hc.uncontested_iff_compatible hl hpd (hc.restored_ascending hp)]
    exact (and_iff_right hnil).symm

end

end Chart

namespace Machine

variable {γ : Type} {m : Machine γ} {configuration : Configuration} {a : Active} {r : Transition}
  {x : Nat}

/-- When accepted records lead to a legal set. From a configuration that is accepted when it is
checked, a transition to a history state alone leads to a legal set exactly if the configuration of
what it leads to is accepted again; where no empty record is followed, exactly if the goals agree on
the children of compound states and what begins begins toward them; where the history state stands
for states that can be active, exactly if there are such states and any two of them are compatible;
and in any case if all records are of legal sets. -/
theorem restored_legal_iff {d : Description} {guards : Guards γ} {options : Options}
    (hm : d.compile guards options = .ok m) (hroot : m.kind Tree.root ≠ .parallel)
    (hres : Active.resolve m.toTree true configuration = .ok a) (hacyclic : m.Acyclic a)
    (hr : m.Declares r) (hsource : r.source ∈ a) (htargets : r.targets = [x])
    (hk : (m.kind x).isHistory = true) :
    (m.Legal (m.microstep a [r]).active ↔
        Active.resolve m.toTree true ((m.microstep a [r]).active.configuration m.toTree) =
          .ok (m.microstep a [r]).active) ∧
      (m.Populated (m.left a [r]) x →
        (m.Legal (m.microstep a [r]).active ↔
          m.Agree (m.Goal (m.left a [r]) r) ∧
            m.BeginsToward (m.Goal (m.left a [r]) r) (m.entrySet (m.left a [r]) [r]))) ∧
      ((∀ g ∈ m.restored (m.left a [r]) x, (m.kind g).isHistory = false) →
        (m.Legal (m.microstep a [r]).active ↔ m.restored (m.left a [r]) x ≠ [] ∧
          ∀ g ∈ m.restored (m.left a [r]) x, ∀ g' ∈ m.restored (m.left a [r]) x,
            m.Compatible g g')) ∧
      (m.RecordsFrom m.Legal a → m.Legal (m.microstep a [r]).active) := by
  have hc := Description.wellFormed_of_compile hm
  have ha : m.Legal a := hc.legal_of_resolve hres
  have hrecords : m.RecordsKnown a := Chart.recordsKnown_of_resolve hres
  have hbelow : m.RecordsBelow a := hc.recordsBelow_of_resolve hres
  have hknown : m.Known a := ⟨ha.root_mem, ha.lt_size, hrecords⟩
  have hfollow := followable_of_acyclic hc (ha.sound hc) hacyclic [r]
  have hfire : m.Firable a [r] :=
    Chart.firable_single hr hsource (hfollow r (List.mem_singleton_self r))
  obtain ⟨d, hd⟩ := hr.exists_domain_of_history (x := x) (by simp [htargets]) hk
    (ha.not_history hsource)
  refine ⟨hc.legal_iff_resolve (hknown.microstep hc (by simpa using hr)).records
      (hc.recordsBelow_microstep hbelow [r]), fun hpop => ?_, fun hstates => ?_, fun hrec => ?_⟩
  · exact Chart.microstep_legal_iff_agree hc ha hrecords hbelow hroot hfire hd htargets hpop
  · exact Chart.microstep_legal_iff_compatible hc ha hrecords hbelow hroot hfire hd htargets hk
      hstates
  · refine Chart.microstep_legal hc ha hrec hfire (fun r' hr' => ?_) hroot
    obtain rfl := List.mem_singleton.mp hr'
    exact hc.coherent_of_single (Chart.recordsFrom_left hc ha hrec [r']) htargets

end Machine

/-! ## A radio that is handed a record -/

/-- A radio that goes on as it was left. -/
def Description.radio : Description where
  id := "radio"
  root := { State.empty with
    initial := some "off"
    states := [
      ("off", { State.empty with on := .ofList [("POWER", [.target "last"])] }),
      ("on", { State.empty with
        initial := some "low"
        states := [("low", State.empty), ("high", State.empty)] }),
      ("last", { State.empty with history := some .deep })] }

namespace Machine

/-- The radio as a machine without guards. -/
def radio : Machine Unit :=
  { Description.radio.chart with guards := .empty, options := .standard }

theorem compile_radio : Description.radio.compile .empty .standard = .ok radio :=
  Description.compile_of_accepted (by decide +kernel)

/-- The radio is off and is handed what it is said to have been in. -/
def radio.handed (ids : List String) : Configuration :=
  ⟨.ofList ["radio.off"], SortedMap.empty.insert "radio.last" (.ofList ids)⟩

/-- The radio is off and remembers some states. -/
def radio.off (states : List Nat) : Active :=
  ⟨.ofList [0, 1], SortedMap.empty.insert 5 (.ofList states)⟩

def radio.power : Transition := ⟨1, "POWER", 0, [5], none, none, [], false⟩

theorem radio.acyclic {states : List Nat}
    (hstates : ∀ n ∈ states, (radio.kind n).isHistory = false) :
    radio.Acyclic (radio.off states) := by
  have hc := Description.wellFormed_of_compile compile_radio
  have hdef : radio.DefaultsAcyclic := Chart.defaultsAcyclic_of_behaviours hc (by decide +kernel)
  refine hc.acyclic_of_defaults (fun h recorded hs => ?_) hdef
  rw [Active.recorded?, radio.off, SortedMap.get?_insert] at hs
  split at hs
  · obtain rfl := Option.some.inj hs
    exact fun n hn => hstates n (SortedSet.mem_ofList.mp hn)
  · cases hs

/-- Handed that it has been in the state of being on high, the radio goes on in it. -/
theorem radio_goes_on_high :
    Active.resolve radio.toTree true (radio.handed ["radio.on.high"]) = .ok (radio.off [4]) ∧
      4 ∈ (radio.microstep (radio.off [4]) [radio.power]).active ∧
      radio.Legal (radio.microstep (radio.off [4]) [radio.power]).active := by
  have hres : Active.resolve radio.toTree true (radio.handed ["radio.on.high"]) =
      .ok (radio.off [4]) := by decide +kernel
  have hrestored : radio.restored (radio.left (radio.off [4]) [radio.power]) 5 = [4] := by
    decide +kernel
  obtain ⟨-, -, hlegal, -⟩ := restored_legal_iff compile_radio (by decide +kernel) hres
    (radio.acyclic (by decide +kernel)) (r := radio.power) (by decide +kernel) (by decide +kernel)
    rfl (by decide +kernel)
  rw [hrestored] at hlegal
  refine ⟨hres, by decide +kernel, (hlegal (by decide +kernel)).mpr ⟨by simp, ?_⟩⟩
  -- it is begun in with itself
  intro g hg g' hg'
  rw [List.mem_singleton.mp hg, List.mem_singleton.mp hg']
  exact Or.inr (Or.inl .refl)

/-- Handed that it has been on, as such, and on high, the radio is accepted, and goes on low and
high. -/
theorem radio_on_low_and_high : Description.radio.compile .empty .standard = .ok radio ∧
    radio.kind Tree.root ≠ .parallel ∧
    Active.resolve radio.toTree true (radio.handed ["radio.on", "radio.on.high"]) =
      .ok (radio.off [2, 4]) ∧
    radio.Acyclic (radio.off [2, 4]) ∧ radio.Declares radio.power ∧
    radio.power.source ∈ radio.off [2, 4] ∧ radio.power.targets = [5] ∧
    (radio.kind 5).isHistory = true ∧
    radio.kind 2 = .compound ∧ 3 ∈ radio.regions 2 ∧ 4 ∈ radio.regions 2 ∧
    3 ∈ (radio.microstep (radio.off [2, 4]) [radio.power]).active ∧
    4 ∈ (radio.microstep (radio.off [2, 4]) [radio.power]).active ∧
    ¬ radio.Legal (radio.microstep (radio.off [2, 4]) [radio.power]).active := by
  have hboth : radio.kind 2 = .compound ∧ 3 ∈ radio.regions 2 ∧ 4 ∈ radio.regions 2 ∧
      3 ∈ (radio.microstep (radio.off [2, 4]) [radio.power]).active ∧
      4 ∈ (radio.microstep (radio.off [2, 4]) [radio.power]).active := by decide +kernel
  obtain ⟨hk, hlow, hhigh, hlowa, hhigha⟩ := hboth
  refine ⟨compile_radio, by decide +kernel, by decide +kernel, radio.acyclic (by decide +kernel),
    by decide +kernel, by decide +kernel, rfl, by decide +kernel, hk, hlow, hhigh, hlowa, hhigha,
    fun hlegal => ?_⟩
  have heq := hlegal.unique hk (Tree.region_child hlow) (Tree.region_child hhigh) hlowa hhigha
  exact absurd heq (by decide)

end Machine

end Statechart
