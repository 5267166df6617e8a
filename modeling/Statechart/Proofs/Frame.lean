/-
# Statechart.Proofs.Frame -- what a microstep leaves alone

Everything that a microstep leaves or enters lies below the domain of one of its transitions, and
the only records that it takes are those of history states whose parents it leaves. So a state below
none of the domains is active afterwards exactly if it was before. A transition that is declared
within a compound state and aims below that has its domain there (`Confined.domain_within`), so that
all beside the state stays as it is (`Machine.unchanged_outside_domains`).
-/

import Statechart.Proofs.Call
import Statechart.Proofs.Independence

namespace Statechart

namespace Chart

variable {c : Chart} {a : Active} {r : Transition} {transitions : List Transition} {d h n p q : Nat}

/-! ## Staying within a state -/

/-- A transition stays within a compound state: it is declared below it, or as an internal one on
the state itself, and all its targets lie below the state. -/
structure Confined (c : Chart) (r : Transition) (n : Nat) : Prop where
  compound : c.kind n = .compound
  source : c.Below r.source n ∨ r.source = n ∧ r.isInternal = true
  targets : ∀ x ∈ r.targets, c.Below x n

/-- An internal transition of a compound state to states below it has its source as domain. -/
theorem domain?_of_internal (ht : c.InOrder) (hk : c.kind r.source = .compound)
    (hinternal : r.isInternal = true) (hbelow : ∀ x ∈ r.targets, c.Below x r.source)
    (hd : r.domain? c.toTree = some d) : d = r.source := by
  have htargets := (domain?_eq_some hd).1
  -- a target below the source is not the source
  have hother : r.targets.all (fun x => x = r.source) = false := by
    obtain ⟨x, hx⟩ := List.exists_mem_of_ne_nil _ htargets
    rw [List.all_eq_false]
    refine ⟨x, hx, fun heq => ?_⟩
    have hxs := hbelow x hx
    rw [of_decide_eq_true heq] at hxs
    exact ht.not_below_self hxs
  have hall := allBelow_iff.mpr hbelow
  simp only [Transition.domain?, List.isEmpty_iff, htargets, hinternal, hother, hk, hall,
    decide_true, Bool.and_true, Bool.and_false, Bool.false_eq_true, if_false, if_true] at hd
  exact (Option.some.inj hd).symm

/-- The domain of a transition that stays within a state lies there. -/
theorem Confined.domain_within (hc : c.WellFormed) (h : c.Confined r n)
    (hd : r.domain? c.toTree = some d) : c.Within d n := by
  rcases h.source with hsource | ⟨rfl, hinternal⟩
  · rcases (domain?_eq_some hd).2 with rfl | ⟨rfl, -, -⟩
    · exact hc.enclosing_within hsource h.compound h.targets
    · exact hsource.within
  · rw [domain?_of_internal hc.inOrder h.compound hinternal h.targets hd]
    exact Tree.within_self _ _

/-- A transition that stays within a state leaves nothing beside that. -/
theorem Confined.not_within (hc : c.WellFormed) (h : c.Confined r n) (hq : c.SideBySide n q)
    (hd : r.domain? c.toTree = some d) (hm : c.Within p q) : ¬ c.Within p d := fun hpd =>
  hc.not_within_both hq (hc.inOrder.within_trans hpd (h.domain_within hc hd)) hm

/-! ## Outside the domains -/

/-- A state lies below none of the domains of some transitions. -/
def Outside (c : Chart) (transitions : List Transition) (n : Nat) : Prop :=
  ∀ r ∈ transitions, ∀ d, r.domain? c.toTree = some d → ¬ c.Below n d

theorem not_mem_exits_of_outside (hn : c.Outside transitions n) : n ∉ c.exits a transitions := by
  intro hmem
  obtain ⟨r, hr, d, hd, -, hbelow⟩ := mem_exits.mp hmem
  exact hn r hr d hd hbelow

namespace WellFormed

variable (hc : c.WellFormed)
include hc

/-- Outside the domains nothing is left, and nothing is entered but the root, which is active in any
case. -/
theorem mem_microstep_of_outside (hroot : Tree.root ∈ a) (hrec : c.RecordsBelow a)
    (hdeclared : ∀ r ∈ transitions, c.Declares r) (hn : c.Outside transitions n) :
    n ∈ (c.microstep a transitions).active ↔ n ∈ a := by
  rw [mem_microstep, mem_left]
  constructor
  · rintro (⟨hna, -⟩ | hentry)
    · exact hna
    · have hleft := hc.recordsBelow_left hrec transitions
      obtain ⟨r, hr, d, hd, hbelow | ⟨rfl, -⟩⟩ :=
        hc.exists_domain_of_mem_entrySet hleft hdeclared hentry
      · exact absurd hbelow (hn r hr d hd.domain_eq)
      · exact hroot
  · intro hna
    exact Or.inl ⟨hna, not_mem_exits_of_outside hn⟩

/-- A record changes only if the parent of the history state is left. -/
theorem recorded?_microstep_of_parent (hp : h ∈ c.children p)
    (hexit : p ∉ c.exits a transitions) :
    (c.microstep a transitions).active.recorded? h = a.recorded? h := by
  rw [recorded?_microstep]
  cases hk : (c.kind h).isHistory with
  | false => exact recorded?_left_of_state hk
  | true =>
    obtain ⟨depth, hdepth⟩ := Kind.exists_depth hk
    rw [recorded?_left hc hp hdepth, if_neg hexit]

theorem exists_exit_of_recorded?_ne
    (hne : (c.microstep a transitions).active.recorded? h ≠ a.recorded? h) :
    ∃ p, h ∈ c.children p ∧ p ∈ c.exits a transitions := by
  cases hk : (c.kind h).isHistory with
  | false =>
    rw [recorded?_microstep, recorded?_left_of_state hk] at hne
    exact absurd rfl hne
  | true =>
    obtain ⟨p, hp⟩ := hc.exists_parent_of_history hk
    refine ⟨p, hp, ?_⟩
    by_contra hexit
    exact hne (hc.recorded?_microstep_of_parent hp hexit)

end WellFormed

end Chart

namespace Machine

variable {γ : Type} {m : Machine γ} {a b : Active} {transitions : List Transition}
  {fired : List Firing} {configuration : Configuration}

/-- Microsteps keep records below the parents of their history states. -/
theorem Fires.recordsBelow (hc : m.WellFormed) (h : m.Fires a fired b) (hrec : m.RecordsBelow a) :
    m.RecordsBelow b :=
  (h.keeps (I := m.RecordsBelow) hrec
    fun _ transitions _ hrec => hc.recordsBelow_microstep hrec transitions).2

/-- A microstep changes nothing outside its domains. In every microstep of a call with a
configuration that is accepted with checking, a state below none of the domains is active afterwards
exactly if it was before, and a record changes only if the parent of its history state is left. The
domain of a transition that stays within a compound state lies there; so if each transition with a
domain stays within some state beside another one, all that is within this keeps its states and its
records. -/
theorem unchanged_outside_domains {d : Description} {guards : Guards γ} {options : Options}
    (hm : d.compile guards options = .ok m)
    (hres : Active.resolve m.toTree true configuration = .ok a) (hfires : m.Fires a fired b)
    (hs : m.Selects b transitions) :
    (∀ n, m.Outside transitions n → (n ∈ (m.microstep b transitions).active ↔ n ∈ b)) ∧
      (∀ h, (m.microstep b transitions).active.recorded? h ≠ b.recorded? h →
        ∃ p, h ∈ m.children p ∧ p ∈ m.exits b transitions) ∧
      (∀ r n d, m.Confined r n → r.domain? m.toTree = some d → m.Within d n) ∧
      ∀ q, (∀ r ∈ transitions, r.domain? m.toTree ≠ none →
          ∃ n, m.Confined r n ∧ m.SideBySide n q) →
        (∀ n, m.Within n q → (n ∈ (m.microstep b transitions).active ↔ n ∈ b)) ∧
          ∀ h p, h ∈ m.children p → m.Within p q →
            (m.microstep b transitions).active.recorded? h = b.recorded? h := by
  have hc := Description.wellFormed_of_compile hm
  have hlegal := hc.legal_of_resolve hres
  have hknown : m.Known a :=
    ⟨hlegal.root_mem, hlegal.lt_size, Chart.recordsKnown_of_resolve hres⟩
  have hb := hfires.known hc hknown
  have hrec := hfires.recordsBelow hc (hc.recordsBelow_of_resolve hres)
  have hdeclared := declares_of_selects hc (fun _ hn => hb.lt_size hn) hs
  have hstates : ∀ n, m.Outside transitions n →
      (n ∈ (m.microstep b transitions).active ↔ n ∈ b) := fun n hn =>
    hc.mem_microstep_of_outside hb.root_mem hrec hdeclared hn
  refine ⟨hstates, fun h hne => hc.exists_exit_of_recorded?_ne hne,
    fun r n d h hd => h.domain_within hc hd, fun q hall => ?_⟩
  have houtside : ∀ n, m.Within n q → m.Outside transitions n := by
    intro n hn r hr d hd hbelow
    obtain ⟨k, hk, hside⟩ := hall r hr (by rw [hd]; exact Option.some_ne_none d)
    exact hk.not_within hc hside hd hn hbelow.within
  refine ⟨fun n hn => hstates n (houtside n hn), fun h p hp hpq => ?_⟩
  exact hc.recorded?_microstep_of_parent hp (Chart.not_mem_exits_of_outside (houtside p hpq))

/-- In the lift the doors close. -/
def lift.close : List Transition := [⟨5, "GO", 0, [4], none, none, [], false⟩]

/-- Meanwhile the cabin goes on as before, and the doors are not recorded anew. -/
theorem lift_close :
    (∀ n, lift.Within n 7 →
      (n ∈ (lift.microstep lift.riding lift.close).active ↔ n ∈ lift.riding)) ∧
    (lift.microstep lift.riding lift.close).active.recorded? 6 = lift.riding.recorded? 6 := by
  have hc := Description.wellFormed_of_compile compile_lift
  have hs : lift.Selects lift.riding lift.close := ⟨(), .named "GO", by decide +kernel⟩
  obtain ⟨-, hrecords, -, hbeside⟩ :=
    unchanged_outside_domains compile_lift lift.resolve_riding .nil hs
  obtain ⟨hcabin, -⟩ := hbeside 7 fun r hr _ => by
    obtain rfl := List.mem_singleton.mp hr
    exact ⟨3, ⟨by decide +kernel, Or.inl (by decide +kernel), by decide +kernel⟩,
      by decide +kernel, by decide +kernel⟩
  refine ⟨hcabin, ?_⟩
  by_contra hne
  obtain ⟨p, hp, hexit⟩ := hrecords 6 hne
  rw [hc.inOrder.parent_unique hp (by decide +kernel : 6 ∈ lift.children 3)] at hexit
  exact absurd hexit (by decide +kernel)

end Machine

end Statechart
