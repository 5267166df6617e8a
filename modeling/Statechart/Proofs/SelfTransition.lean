/-
# Statechart.Proofs.SelfTransition -- atomic states that are left and entered again

A transition from an atomic state back to it has as its domain the innermost compound state around.
All that is active below is left. What is around the state is entered again toward it, and with a
parallel state on the way the regions aside begin anew, wherever they were (`Renews.mem_microstep`).
So the active states are as before exactly if these regions were as they begin.

Where the parent of the state is compound, it is the domain and there is no such region. Then the
microstep changes neither states nor records and raises nothing (`Renews.still`), and the call leads
back to the configuration that it was given (`Machine.self_transition_renews`).
-/

import Statechart.Proofs.Completion
import Statechart.Proofs.Frame
import Statechart.Proofs.Limit
import Statechart.Proofs.Value.Agreement

namespace Statechart

namespace Chart

variable {c : Chart} {a b : Active} {r : Transition} {d h m n p q s : Nat}

/-! ## What is entered again -/

/-- A transition leads from an atomic state back to it, and leaves it on the way. -/
structure Renews (c : Chart) (r : Transition) (s : Nat) : Prop where
  atomic : c.kind s = .atomic
  source_eq : r.source = s
  targets_eq : r.targets = [s]
  external : r.isInternal = false

/-- A region of a parallel state that lies around one state and below another, without the first. -/
def Aside (c : Chart) (s d q : Nat) : Prop :=
  ∃ p, c.kind p = .parallel ∧ c.Within s p ∧ c.Below p d ∧ q ∈ c.regions p ∧ ¬ c.Within s q

/-- Nothing lies within two of these regions. -/
theorem Aside.unique (hc : c.WellFormed) (hp : c.Aside s d p) (hq : c.Aside s d q)
    (hnp : c.Within n p) (hnq : c.Within n q) : p = q := by
  -- if one lay in the other, so would the parallel state around it, and with that the state
  have key : ∀ {p q}, c.Aside s d p → c.Aside s d q → c.Within p q → p = q := by
    rintro p q ⟨u, -, hsu, -, hreg, -⟩ ⟨-, -, -, -, -, hsq⟩ hpq
    by_contra hne
    exact hsq (hc.inOrder.within_trans hsu
      (hc.inOrder.parent_within (Tree.region_child hreg) hpq hne))
  rcases hc.inOrder.within_or_within hnp hnq with h | h
  · exact key hp hq h
  · exact (key hq hp h).symm

namespace Renews

theorem domain?_eq (h : c.Renews r s) : r.domain? c.toTree = some (r.enclosing c.toTree) := by
  simp [Transition.domain?, h.targets_eq, h.external]

theorem not_history (h : c.Renews r s) : (c.kind s).isHistory = false := by
  rw [h.atomic]
  rfl

/-- The domain is the innermost compound state around the state, or the root if there is none. -/
theorem domain_innermost (hc : c.WellFormed) (h : c.Renews r s) (hd : c.Domain r d) :
    (c.kind d = .compound ∨ d = Tree.root) ∧ c.Within s d ∧
      ∀ p, c.Below s p → c.kind p = .compound → c.Within d p := by
  refine ⟨hd.compound_or_root, h.source_eq ▸ hd.source_within hc, fun p hp hk => ?_⟩
  have heq : d = r.enclosing c.toTree := by
    have hsome := hd.domain_eq
    rw [h.domain?_eq] at hsome
    exact (Option.some.inj hsome).symm
  rw [heq]
  refine hc.enclosing_within (h.source_eq ▸ hp) hk fun x hx => ?_
  rw [h.targets_eq, List.mem_singleton] at hx
  exact hx ▸ hp

/-- What is entered is the descent toward the state. -/
theorem mem_entrySet (hc : c.WellFormed) (h : c.Renews r s) (hd : c.Domain r d) :
    n ∈ c.entrySet b [r] ↔ c.Enters (· = s) d n := by
  have htarget : ∀ x ∈ r.targets, (c.kind x).isHistory = false := by
    intro x hx
    rw [h.targets_eq, List.mem_singleton] at hx
    exact hx ▸ h.not_history
  -- no history state is followed, so the records play no part
  have hsame : ∀ x ∈ r.targets, c.SameFrom b .empty x := fun x hx => .state (htarget x hx)
  have hgoal : c.Goal .empty r = (· = s) := by
    funext g
    simp [Goal, h.targets_eq, standsFor_state h.not_history]
  have hsep : c.Separate .empty r := by
    refine ⟨fun _ _ hs => (by cases hs), fun hg hg' _ => ?_, fun hx hk => ?_⟩
    · rw [hgoal] at hg hg'
      exact hg.trans hg'.symm
    · rw [htarget _ hx] at hk
      cases hk
  have hentry := hc.mem_addTransition (a := .empty) (s := .empty) (m := n)
    (fun _ _ hs => by cases hs) hd.domain_eq (hd.targets_inside hc)
    (fun x hx => .state (htarget x hx)) hsep fun m hm => absurd hm (SortedSet.not_mem_empty m)
  rw [entrySet, List.foldl_cons, List.foldl_nil, hc.addTransition_of_sameFrom hsame, hentry, hgoal]
  exact or_iff_right (SortedSet.not_mem_empty n)

end Renews

/-- The descent toward an atomic state comes through the states around it, and through the regions
beside, which it enters by default. -/
theorem WellFormed.enters_iff_aside (hc : c.WellFormed) (hs : c.kind s = .atomic)
    (hsd : c.Inside d s) : c.Enters (· = s) d n ↔
      c.Within s n ∧ (n = s ∨ c.Below n d) ∨ ∃ q, c.Aside s d q ∧ c.Descends noGoal q n := by
  have haimed : ∀ q, c.Aimed (· = s) q ↔ c.Within s q := fun q => by simp [Aimed]
  have hhistory : (c.kind s).isHistory = false := by
    rw [hs]
    rfl
  constructor
  · rintro ⟨q, hq, hpath⟩
    induction hpath with
    | refl =>
      rcases hq with ⟨hreg, haim⟩ | ⟨-, rfl⟩
      · have hqd := hc.inOrder.below_child (Tree.region_child hreg)
        exact Or.inl ⟨(haimed q).mp haim, Or.inr hqd⟩
      · exact Or.inl ⟨Tree.within_self _ q, Or.inl rfl⟩
    | @tail b n _ hl ih =>
      rcases ih with ⟨hsb, hb⟩ | ⟨q', haside, hdefault⟩
      · have hbn := hc.inOrder.below_child (hc.leads_child hl)
        have hbs : b ≠ s := by
          rintro rfl
          cases hl <;> simp_all
        have hbd := hb.resolve_left hbs
        have hnd := hc.inOrder.below_trans hbn hbd
        by_cases hsn : c.Within s n
        · exact Or.inl ⟨hsn, Or.inr hnd⟩
        · cases hl with
          | toward _ _ haim => exact absurd ((haimed n).mp haim) hsn
          | initial _ hnone _ =>
            -- the child around the state is aimed at
            obtain ⟨q', hq', hsq'⟩ := hc.inOrder.exists_child_within (hsb.below_of_ne hbs.symm)
            have hreg := hc.region_of_within hq' hsq' hhistory
            exact absurd ((haimed q').mpr hsq') (hnone q' hreg)
          | region hk hreg => exact Or.inr ⟨n, ⟨b, hk, hsb, hbd, hreg, hsn⟩, .refl⟩
      · obtain ⟨p, hk, hsp, hpd, hreg, hsq⟩ := haside
        refine Or.inr ⟨q', ⟨p, hk, hsp, hpd, hreg, hsq⟩, hdefault.trans ?_⟩
        refine hc.default_of_descends (fun g hg hgb => hsq ?_) (.single hl)
        rw [hg] at hgb
        exact hc.inOrder.within_trans hgb.within (hc.descends_within hdefault)
  · have haround : ∀ p, c.Within s p → c.Below p d → (c.kind p).isHistory = false →
        c.Enters (· = s) d p := fun p hsp hpd hkp =>
      hc.enters_of_aimed ((haimed p).mpr hsp) hpd hkp
    rintro (⟨hsn, hn⟩ | ⟨q, ⟨p, hk, hsp, hpd, hreg, hsq⟩, hpath⟩)
    · rcases Tree.within_iff.mp hsn with rfl | hbelow
      · rcases hsd with hsd | ⟨hroot, -⟩
        · exact haround _ hsn hsd hhistory
        · exact ⟨s, Or.inr ⟨hroot, rfl⟩, .refl⟩
      · obtain ⟨q, hq, -⟩ := hc.inOrder.exists_child_within hbelow
        refine haround n hsn (hn.resolve_left ?_) (hc.not_history_of_child hq)
        rintro rfl
        exact hc.inOrder.not_below_self hbelow
    · have hp : c.Enters (· = s) d p := haround p hsp hpd (by rw [hk]; rfl)
      refine (hp.tail (.region hk hreg)).trans
        (hc.descends_of_default (fun g hg hgq => hsq ?_) hpath)
      rw [hg] at hgq
      exact hgq.within

/-! ## What becomes active again -/

section

variable (hc : c.WellFormed) (ha : c.Legal a) (hs : s ∈ a)
include hc ha hs

/-- What is active below the domain lies around an atomic state or in a region aside. -/
theorem Legal.around_or_aside (hatomic : c.kind s = .atomic) (hsd : c.Within s d)
    (hd : c.kind d ≠ .parallel) (hn : n ∈ a) (hnd : c.Below n d) :
    c.Within s n ∨ ∃ q, c.Aside s d q ∧ c.Within n q := by
  by_cases hsn : c.Within s n
  · exact Or.inl hsn
  have hns : ¬ c.Within n s := by
    intro hns
    have hne : n ≠ s := by
      rintro rfl
      exact hsn (Tree.within_self _ n)
    obtain ⟨q, hq, -⟩ := hc.inOrder.exists_child_within (hns.below_of_ne hne)
    rw [hc.children_eq_nil (by simp [hatomic]) (by simp [hatomic])] at hq
    exact absurd hq List.not_mem_nil
  -- the two lie in different children of a state, which must be parallel
  obtain ⟨p, q, q', hq, hq', hne, hnq, hsq'⟩ :=
    hc.inOrder.exists_split (ha.lt_size hn) (ha.lt_size hs) hns hsn
  have hrooted := (ha.sound hc).rooted
  have hqa : q ∈ a := hrooted.mem_of_within hc hn hnq
  have hk : c.kind p = .parallel := by
    refine (hc.kind_of_child hq).resolve_left fun hk => hne ?_
    exact ha.unique hk hq hq' hqa (hrooted.mem_of_within hc hs hsq')
  have hsq : ¬ c.Within s q := fun hsq => hne (hc.inOrder.child_unique hq hq' hsq hsq')
  have hsp := (hc.inOrder.below_of_within_child hq' hsq').within
  have hpd : c.Below p d := by
    have hne' : p ≠ d := fun heq => hd (heq ▸ hk)
    rcases hc.inOrder.within_or_within hsp hsd with h | h
    · exact h.below_of_ne hne'
    · obtain ⟨u, hu, hdu⟩ := hc.inOrder.exists_child_within (h.below_of_ne hne'.symm)
      have hqu := hc.inOrder.child_unique hq hu hnq (hc.inOrder.within_trans hnd.within hdu)
      exact absurd (hqu ▸ hc.inOrder.within_trans hsd hdu) hsq
  exact Or.inr ⟨q, ⟨p, hk, hsp, hpd, Tree.mem_regions.mpr ⟨hq, ha.not_history hqa⟩, hsq⟩, hnq⟩

variable (hr : c.Renews r s) (hd : c.Domain r d) (hk : c.kind d ≠ .parallel)
include hr hd hk

/-- The states are active that were, but in the regions aside those in which these begin. -/
theorem Renews.mem_microstep : n ∈ (c.microstep a [r]).active ↔
    (n ∈ a ∧ ∀ q, c.Aside s d q → ¬ c.Within n q) ∨
      ∃ q, c.Aside s d q ∧ c.Descends noGoal q n := by
  obtain ⟨-, hsd, -⟩ := hr.domain_innermost hc hd
  have hinside : c.Inside d s := hd.targets_inside hc s (by simp [hr.targets_eq])
  have hexits : n ∈ c.exits a [r] ↔ n ∈ a ∧ c.Below n d := by
    simp [mem_exits, hd.domain_eq]
  rw [Chart.mem_microstep, mem_left, hr.mem_entrySet hc hd, hc.enters_iff_aside hr.atomic hinside,
    hexits, ← or_assoc]
  refine or_congr_left ⟨?_, ?_⟩
  · rintro (⟨hn, hnot⟩ | ⟨hsn, -⟩)
    · refine ⟨hn, ?_⟩
      rintro q ⟨p, -, -, hpd, hreg, -⟩ hnq
      refine hnot ⟨hn, ?_⟩
      have hnp := hc.inOrder.below_of_within_child (Tree.region_child hreg) hnq
      exact hc.inOrder.below_trans hnp hpd
    · refine ⟨(ha.sound hc).mem_of_within hc hs hsn, ?_⟩
      rintro q ⟨-, -, -, -, -, hsq⟩ hnq
      exact hsq (hc.inOrder.within_trans hsn hnq)
  · rintro ⟨hn, hnone⟩
    by_cases hnd : c.Below n d
    · rcases ha.around_or_aside hc hs hr.atomic hsd hk hn hnd with hsn | ⟨q, haside, hnq⟩
      · exact Or.inr ⟨hsn, Or.inr hnd⟩
      · exact absurd hnq (hnone q haside)
    · exact Or.inl ⟨hn, fun hexit => hnd hexit.2⟩

/-- So the active states are as before exactly if the regions aside were as they begin. -/
theorem Renews.states_eq_iff : (∀ n, n ∈ (c.microstep a [r]).active ↔ n ∈ a) ↔
    ∀ q, c.Aside s d q → ∀ n, c.Within n q → (n ∈ a ↔ c.Descends noGoal q n) := by
  simp only [hr.mem_microstep hc ha hs hd hk]
  constructor
  · intro hall q haside n hnq
    rw [← hall n]
    constructor
    · rintro (⟨-, hnone⟩ | ⟨q', haside', hpath⟩)
      · exact absurd hnq (hnone q haside)
      · rwa [haside.unique hc haside' hnq (hc.descends_within hpath)]
    · exact fun hpath => Or.inr ⟨q, haside, hpath⟩
  · intro hall n
    constructor
    · rintro (⟨hn, -⟩ | ⟨q, haside, hpath⟩)
      · exact hn
      · exact (hall q haside n (hc.descends_within hpath)).mpr hpath
    · intro hn
      by_cases hin : ∃ q, c.Aside s d q ∧ c.Within n q
      · obtain ⟨q, haside, hnq⟩ := hin
        exact Or.inr ⟨q, haside, (hall q haside n hnq).mp hn⟩
      · exact Or.inl ⟨hn, fun q haside hnq => hin ⟨q, haside, hnq⟩⟩

end

/-! ## Records -/

section

variable (hc : c.WellFormed) (hr : c.Renews r s) (hd : c.Domain r d)
include hc hd

/-- A microstep that leaves what is below a domain records the same as before exactly if each
history state in there whose parent is left has recorded just that before. -/
theorem recorded?_eq_iff_of_domain :
    (∀ g, (c.microstep a [r]).active.recorded? g = a.recorded? g) ↔
      ∀ p ∈ a, c.Below p d → ∀ g ∈ c.children p, ∀ depth, c.kind g = .history depth →
        a.recorded? g = some (c.snapshot a p depth) := by
  have hexits : ∀ p, p ∈ c.exits a [r] ↔ p ∈ a ∧ c.Below p d := fun p => by
    simp [mem_exits, hd.domain_eq]
  constructor
  · intro hall p hp hpd g hg depth hk
    rw [← hall g, recorded?_microstep, recorded?_left hc hg hk, if_pos ((hexits p).mpr ⟨hp, hpd⟩)]
  · intro hall g
    cases hk : (c.kind g).isHistory with
    | false => rw [recorded?_microstep, recorded?_left_of_state hk]
    | true =>
      obtain ⟨p, hg⟩ := hc.exists_parent_of_history hk
      obtain ⟨depth, hdepth⟩ := Kind.exists_depth hk
      by_cases hexit : p ∈ c.exits a [r]
      · obtain ⟨hp, hpd⟩ := (hexits p).mp hexit
        rw [recorded?_microstep, recorded?_left hc hg hdepth, if_pos hexit,
          hall p hp hpd g hg depth hdepth]
      · exact hc.recorded?_microstep_of_parent hg hexit

/-! ## Children of compound states -/

variable (hup : ∀ p, s ∈ c.children p → c.kind p = .compound)
include hr hup

/-- Where the parent of the state is compound, this is the domain. -/
theorem Renews.innermost :
    c.kind d ≠ .parallel ∧ ∀ p, c.Below p d → c.Within s p → p = s := by
  obtain ⟨hkind, hsd, hleast⟩ := hr.domain_innermost hc hd
  by_cases hroot : s = Tree.root
  · -- the root is the state itself, and nothing is below it
    subst hroot
    have hdroot : d = Tree.root :=
      (Tree.within_iff.mp hsd).elim Eq.symm fun hb => absurd hb hc.inOrder.not_below_root
    subst hdroot
    refine ⟨by simp [hr.atomic], fun p hp hroot => ?_⟩
    exact absurd (hc.inOrder.below_of_within_of_below hroot hp) hc.inOrder.not_below_root
  · have hsize : s < c.size := hr.source_eq ▸ hd.declared.1
    obtain ⟨u, hu⟩ := hc.inOrder.exists_parent hroot hsize
    have hdu := hleast u (hc.inOrder.below_child hu) (hup u hu)
    refine ⟨fun hpar => ?_, fun p hp hsp => ?_⟩
    · rcases hkind with hk | rfl
      · rw [hk] at hpar
        cases hpar
      · have huroot : Tree.root = u :=
          (Tree.within_iff.mp hdu).elim id fun hb => absurd hb hc.inOrder.not_below_root
        rw [huroot, hup u hu] at hpar
        cases hpar
    · by_contra hne
      have hup := hc.inOrder.parent_within hu hsp (Ne.symm hne)
      exact hc.inOrder.not_below_self (hc.inOrder.below_of_below_of_within hp
        (hc.inOrder.within_trans hdu hup))

/-- Then nothing changes, and no event is raised. -/
theorem Renews.still (ha : c.Legal a) (hs : s ∈ a) :
    (c.microstep a [r]).active = a ∧ (c.microstep a [r]).raised = [] := by
  obtain ⟨hk, honly⟩ := hr.innermost hc hd hup
  have hnone : ∀ q, ¬ c.Aside s d q := by
    rintro q ⟨p, hpar, hsp, hpd, -, -⟩
    rw [honly p hpd hsp, hr.atomic] at hpar
    cases hpar
  have hchildren : c.children s = [] :=
    hc.children_eq_nil (by simp [hr.atomic]) (by simp [hr.atomic])
  obtain ⟨-, hsd, -⟩ := hr.domain_innermost hc hd
  refine ⟨Active.ext (fun n => ?_) ?_, ?_⟩
  · rw [hr.mem_microstep hc ha hs hd hk]
    simp [hnone]
  · refine (recorded?_eq_iff_of_domain hc hd).mpr fun p hp hpd g hg => ?_
    rcases ha.around_or_aside hc hs hr.atomic hsd hk hp hpd with hsp | ⟨q, haside, -⟩
    · rw [honly p hpd hsp, hchildren] at hg
      exact absurd hg List.not_mem_nil
    · exact absurd haside (hnone q)
  · -- no final state is entered: only the state itself and what is around it
    refine List.eq_nil_iff_forall_not_mem.mpr fun e he => ?_
    rw [microstep_eq, raised_enterAll fun n hn => (mem_entered.mp hn).2] at he
    obtain ⟨n, hn, he⟩ := List.mem_flatMap.mp he
    obtain ⟨hfinal, -⟩ := exists_parent_of_mem_doneEvents hc he
    have hinside : c.Inside d s := hd.targets_inside hc s (by simp [hr.targets_eq])
    have hentry := (mem_entered.mp hn).1
    rw [hr.mem_entrySet hc hd, hc.enters_iff_aside hr.atomic hinside] at hentry
    rcases hentry with ⟨hsn, -⟩ | ⟨q, haside, -⟩
    · rcases Tree.within_iff.mp hsn with rfl | hbelow
      · rw [hr.atomic] at hfinal
        cases hfinal
      · obtain ⟨q, hq, -⟩ := hc.inOrder.exists_child_within hbelow
        rcases hc.kind_of_child hq with hk' | hk' <;> rw [hk'] at hfinal <;> cases hfinal
    · exact hnone q haside

end

end Chart

namespace Machine

variable {γ : Type} {m : Machine γ} {a : Active} {context : γ} {event : Event}
  {r : Transition} {rs : List Transition} {s : Nat} {configuration : Configuration}

/-! ## Calls that lead back -/

/-- A returned configuration that is accepted with checking is that of the set that it describes. -/
theorem configuration_of_returns (hc : m.WellFormed) (h : m.Returns configuration)
    (hres : Active.resolve m.toTree true configuration = .ok a) :
    a.configuration m.toTree = configuration := by
  obtain ⟨trace, x, hrun, -, rfl⟩ := exists_run_of_returns h
  obtain ⟨⟨hknown, -⟩, -⟩ := hrun.known hc
  have hback := hc.resolve_configuration_of_known hknown.lt_size hknown.root_mem hknown.records
    fun h : false = true => absurd h Bool.false_ne_true
  have hsurrounded : a = m.surrounded x.active := by
    rw [Active.resolve_unchecked hres] at hback
    split at hback <;> exact Except.ok.inj hback
  have hids : (a.configuration m.toTree).leaves = (x.active.configuration m.toTree).leaves := by
    refine SortedSet.ext fun id => ?_
    rw [Chart.mem_leaves_configuration]
    simp only [hc.mem_leaves_iff_of_resolve hres]
    constructor
    · rintro ⟨l, ⟨name, hname, hl⟩, rfl⟩
      obtain ⟨k, hk, rfl⟩ := Chart.mem_leaves_configuration.mp hname
      rw [hc.lookup?_id (hknown.lt_size (Chart.mem_leaves.mp hk).1)] at hl
      exact Option.some.inj hl ▸ hname
    · intro hid
      obtain ⟨k, hk, rfl⟩ := Chart.mem_leaves_configuration.mp hid
      exact ⟨k, ⟨_, hid, hc.lookup?_id (hknown.lt_size (Chart.mem_leaves.mp hk).1)⟩, rfl⟩
  have hrecords :
      (a.configuration m.toTree).history = (x.active.configuration m.toTree).history := by
    rw [hsurrounded]
    rfl
  exact congrArg₂ Configuration.mk hids hrecords

/-- An event leads back to a configuration in one microstep, and does so once more when it is
delivered again. -/
def Recurs (m : Machine γ) (configuration : Configuration) (context : γ) (event : Event) : Prop :=
  ∃ arrival, m.transition configuration context event = .ok (.transitioned arrival) ∧
    arrival.configuration = configuration ∧ arrival.microsteps = 1 ∧
    m.transition arrival.configuration context event = .ok (.transitioned arrival)

/-- A microstep that changes nothing, and raises nothing that fires, leads back. -/
theorem recurs_of_still (hc : m.WellFormed) (hreturns : m.Returns configuration)
    (hres : Active.resolve m.toTree true configuration = .ok a)
    (hselect : m.select a context event = .ok (r :: rs))
    (hstill : (m.microstep a (r :: rs)).active = a)
    (hquiet : m.firstHandled a context (m.microstep a (r :: rs)).raised = .ok none)
    (hlimit : 0 < m.options.maxMicrosteps) : m.Recurs configuration context event := by
  have hsettle : ∀ allowed actions k,
      m.settle context allowed ⟨a, actions, k⟩ (m.microstep a (r :: rs)).raised =
        .ok ⟨a, actions, k⟩ := by
    intro allowed actions k
    cases allowed <;> simp only [settle, hquiet]
  have hreact : m.react a context event =
      .ok (some ⟨a, (m.microstep a (r :: rs)).actions, 1⟩) := by
    obtain ⟨allowed, hallowed⟩ := Nat.exists_eq_add_one.mpr hlimit
    simp only [react, hselect, hallowed, advance, hstill, hsettle, Except.map, List.nil_append,
      Nat.zero_add]
  have hcall : m.transition configuration context event =
      .ok (.transitioned (m.arrival ⟨a, (m.microstep a (r :: rs)).actions, 1⟩)) :=
    transition_eq_ok.mpr ⟨a, _, resolve_of_checked hres, hreact, rfl⟩
  have hback : (m.arrival ⟨a, (m.microstep a (r :: rs)).actions, 1⟩).configuration =
      configuration := configuration_of_returns hc hreturns hres
  exact ⟨_, hcall, hback, rfl, hback.symm ▸ hcall⟩

/-- What comes of leaving an atomic state and entering it again. If the parent of the state is
compound, nothing changes, and under any limit but zero the call leads back to its configuration, as
it does once more. In general the domain is the innermost compound state around, or the root. Unless
this is parallel, all is as before but the regions aside, which are as they begin; the states are
the same exactly if these regions were so, and the records exactly if each history state whose
parent is left had recorded just what it records now. Where nothing has changed and nothing that is
raised fires, the call leads back in general. -/
theorem self_transition_renews {d : Description} {guards : Guards γ} {options : Options}
    (hm : d.compile guards options = .ok m) (hreturns : m.Returns configuration)
    (hres : Active.resolve m.toTree true configuration = .ok a) (hs : s ∈ a)
    (hselect : m.select a context event = .ok [r]) (hr : m.Renews r s) :
    ((∀ p, s ∈ m.children p → m.kind p = .compound) →
        (m.microstep a [r]).active = a ∧
          (0 < m.options.maxMicrosteps → m.Recurs configuration context event)) ∧
      ∃ e, m.Domain r e ∧
        ((m.kind e = .compound ∨ e = Tree.root) ∧ m.Within s e ∧
          ∀ p, m.Below s p → m.kind p = .compound → m.Within e p) ∧
        (m.kind e ≠ .parallel →
          (∀ n, n ∈ (m.microstep a [r]).active ↔
            (n ∈ a ∧ ∀ q, m.Aside s e q → ¬ m.Within n q) ∨
              ∃ q, m.Aside s e q ∧ m.Descends Chart.noGoal q n) ∧
          ((∀ n, n ∈ (m.microstep a [r]).active ↔ n ∈ a) ↔
            ∀ q, m.Aside s e q → ∀ n, m.Within n q →
              (n ∈ a ↔ m.Descends Chart.noGoal q n)) ∧
          ((∀ g, (m.microstep a [r]).active.recorded? g = a.recorded? g) ↔
            ∀ p ∈ a, m.Below p e → ∀ g ∈ m.children p, ∀ depth, m.kind g = .history depth →
              a.recorded? g = some (m.snapshot a p depth))) ∧
        ((m.microstep a [r]).active = a →
          m.firstHandled a context (m.microstep a [r]).raised = .ok none →
          0 < m.options.maxMicrosteps → m.Recurs configuration context event) := by
  have hc := Description.wellFormed_of_compile hm
  have ha := hc.legal_of_resolve hres
  have hdeclared : m.Declares r :=
    declares_of_selects hc (fun _ hn => ha.lt_size hn) ⟨context, event, hselect⟩ r (by simp)
  have hd : m.Domain r _ := ⟨hdeclared, hr.domain?_eq⟩
  refine ⟨fun hup => ?_, _, hd, hr.domain_innermost hc hd, fun hk => ?_,
    recurs_of_still hc hreturns hres hselect⟩
  · obtain ⟨hstill, hraised⟩ := hr.still hc hd hup ha hs
    refine ⟨hstill, recurs_of_still hc hreturns hres hselect hstill ?_⟩
    rw [hraised]
    rfl
  · exact ⟨fun n => hr.mem_microstep hc ha hs hd hk, hr.states_eq_iff hc ha hs hd hk,
      Chart.recorded?_eq_iff_of_domain hc hd⟩

end Machine

/-! ### A studio -/

/-- A studio with a lamp that is tapped and a fan that hums and can be made faster. -/
def Description.studio : Description where
  id := "studio"
  root := { State.empty with
    initial := some "live"
    states := [
      ("live", { State.empty with
        kind := some .parallel
        states := [
          ("lamp", { State.empty with on := .ofList [("TAP", [.target "lamp"])] }),
          ("fan", { State.empty with
            initial := some "slow"
            states := [
              ("slow", { State.empty with
                on := .ofList [("FASTER", [.target "fast"]), ("HUM", [.target "slow"])] }),
              ("fast", { State.empty with on := .ofList [("HUM", [.target "fast"])] })] })] })] }

namespace Machine

def studio : Machine Unit :=
  { Description.studio.chart with guards := .empty, options := .standard }

theorem compile_studio : Description.studio.compile .empty .standard = .ok studio :=
  Description.compile_of_accepted (by decide +kernel)

def studio.slow : Active := ⟨.ofList [0, 1, 2, 3, 4], .empty⟩

def studio.fast : Active := ⟨.ofList [0, 1, 2, 3, 5], .empty⟩

def studio.tap : Transition := ⟨2, "TAP", 0, [2], none, none, [], false⟩

def studio.hum : Transition := ⟨5, "HUM", 0, [5], none, none, [], false⟩

theorem returns_studio_slow : studio.Returns (studio.slow.configuration studio.toTree) := by
  have hinitial : studio.initialState () = .ok (studio.arrival ⟨studio.slow, [], 1⟩) :=
    initialState_eq_ok.mpr ⟨_, by decide +kernel, rfl⟩
  exact .initial hinitial

theorem returns_studio_fast : studio.Returns (studio.fast.configuration studio.toTree) := by
  have hcall : studio.transition (studio.slow.configuration studio.toTree) () (.named "FASTER") =
      .ok (.transitioned (studio.arrival ⟨studio.fast, [], 1⟩)) :=
    transition_eq_ok.mpr ⟨studio.slow, _, by decide +kernel, by decide +kernel, rfl⟩
  exact .transition returns_studio_slow hcall

/-- The fan goes on humming, fast as it is, and when the lamp is tapped everything but the fan is as
before. -/
theorem studio_hums : (studio.microstep studio.fast [studio.hum]).active = studio.fast ∧
    studio.Recurs (studio.fast.configuration studio.toTree) () (.named "HUM") ∧
    ∀ n, ¬ studio.Within n 3 →
      (n ∈ (studio.microstep studio.fast [studio.tap]).active ↔ n ∈ studio.fast) := by
  have hc := Description.wellFormed_of_compile compile_studio
  have hres : Active.resolve studio.toTree true (studio.fast.configuration studio.toTree) =
      .ok studio.fast := by decide +kernel
  have hhum : studio.select studio.fast () (.named "HUM") = .ok [studio.hum] := by decide +kernel
  have htap : studio.select studio.fast () (.named "TAP") = .ok [studio.tap] := by decide +kernel
  have hrenews : studio.Renews studio.hum 5 := ⟨by decide +kernel, rfl, rfl, rfl⟩
  have hrenews' : studio.Renews studio.tap 2 := ⟨by decide +kernel, rfl, rfl, rfl⟩
  obtain ⟨hstill, -⟩ := self_transition_renews compile_studio returns_studio_fast hres
    (by decide +kernel : 5 ∈ studio.fast) hhum hrenews
  obtain ⟨-, e, hd, -, haside, -⟩ := self_transition_renews compile_studio returns_studio_fast hres
    (by decide +kernel : 2 ∈ studio.fast) htap hrenews'
  obtain ⟨hsame, hrecurs⟩ := hstill fun p hp => by
    rw [hc.inOrder.parent_unique hp (by decide +kernel : 5 ∈ studio.children 3)]
    decide +kernel
  refine ⟨hsame, hrecurs (by decide), fun n hn => ?_⟩
  -- the studio itself is the domain, and the fan the only region aside
  have hzero : e = 0 := by
    have heq := hd.domain_eq
    rw [show studio.tap.domain? studio.toTree = some 0 by decide +kernel] at heq
    exact (Option.some.inj heq).symm
  subst hzero
  have honly : ∀ q, studio.Aside 2 0 q → q = 3 := by
    rintro q ⟨p, hk, hp, -, hq, hnot⟩
    have hregions : ∀ p ∈ studio.lineage 2, studio.kind p = .parallel →
        ∀ q ∈ studio.regions p, ¬ studio.Within 2 q → q = 3 := by decide +kernel
    exact hregions p hp hk q hq hnot
  rw [(haside (by decide +kernel)).1 n]
  constructor
  · rintro (⟨hmem, -⟩ | ⟨q, hq, hpath⟩)
    · exact hmem
    · rw [honly q hq] at hpath
      exact absurd (hc.descends_within hpath) hn
  · exact fun hmem => Or.inl ⟨hmem, fun q hq => honly q hq ▸ hn⟩

/-- Tapping the lamp slows the fan, though it only leads from the lamp back to it: the lamp and the
fan are regions of one parallel state, which is left as a whole. Under a limit of no microsteps at
all, the fan that hums in what the studio begins with leads nowhere. -/
theorem studio_slows : Description.studio.compile .empty .standard = .ok studio ∧
    (studio.Returns (studio.fast.configuration studio.toTree) ∧
      Active.resolve studio.toTree true (studio.fast.configuration studio.toTree) =
        .ok studio.fast ∧
      2 ∈ studio.fast ∧ studio.select studio.fast () (.named "TAP") = .ok [studio.tap] ∧
      studio.Renews studio.tap 2 ∧
      5 ∈ studio.fast ∧ 5 ∉ (studio.microstep studio.fast [studio.tap]).active ∧
      ∃ arrival, studio.transition (studio.fast.configuration studio.toTree) () (.named "TAP") =
          .ok (.transitioned arrival) ∧
        arrival.configuration ≠ studio.fast.configuration studio.toTree) ∧
    Description.studio.compile .empty ⟨0, true⟩ = .ok (studio.withLimit 0) ∧
    (studio.withLimit 0).Returns (studio.slow.configuration studio.toTree) ∧
    (studio.withLimit 0).Renews ⟨4, "HUM", 0, [4], none, none, [], false⟩ 4 ∧
    (studio.withLimit 0).select studio.slow () (.named "HUM") =
      .ok [⟨4, "HUM", 0, [4], none, none, [], false⟩] ∧
    (studio.withLimit 0).transition (studio.slow.configuration studio.toTree) () (.named "HUM") =
      .error (.microstepLimit 0) := by
  have hlimited : (studio.withLimit 0).Returns (studio.slow.configuration studio.toTree) := by
    have hinitial : (studio.withLimit 0).initialState () =
        .ok ((studio.withLimit 0).arrival ⟨studio.slow, [], 1⟩) :=
      initialState_eq_ok.mpr ⟨_, by decide +kernel, rfl⟩
    exact .initial hinitial
  refine ⟨compile_studio, ⟨returns_studio_fast, by decide +kernel, by decide +kernel,
    by decide +kernel, ⟨by decide +kernel, rfl, rfl, rfl⟩, by decide +kernel, by decide +kernel,
    _, transition_eq_ok.mpr ⟨studio.fast, ⟨studio.slow, [], 1⟩, by decide +kernel,
      by decide +kernel, rfl⟩, by decide +kernel⟩, compile_withLimit compile_studio 0, hlimited,
    ⟨by decide +kernel, rfl, rfl, rfl⟩, by decide +kernel, ?_⟩
  have hres : (studio.withLimit 0).resolve (studio.slow.configuration studio.toTree) =
      .ok studio.slow := by decide +kernel
  have hreact : (studio.withLimit 0).react studio.slow () (.named "HUM") =
      .error (.microstepLimit 0) := by decide +kernel
  simp only [transition, hres, hreact, bind, Except.bind]

end Machine

end Statechart
