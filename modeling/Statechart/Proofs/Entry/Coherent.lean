/-
# Statechart.Proofs.Entry.Coherent -- goals that can be active together

Two states that can be active together without one lying in the other lie in different regions of a
parallel state. The leaves of a legal set are like that, and so are the active children of a state:
what a history state restores of legal sets is coherent. So are the targets of a transition that
has been accepted, as long as none lies below a parallel state of which another one is a history
child, as that stands for states in all of its regions.
-/

import Mathlib.Data.List.Pairwise
import Statechart.Proofs.Active.Legal
import Statechart.Proofs.Entry.Transition

namespace Statechart.Chart

variable {c : Chart} {a b : Active} {r : Transition} {P Q : Active → Prop}
  {g g' h n p q q' x y : Nat}

/-! ## Different regions -/

/-- Two states lie in different regions of a parallel state. -/
def Parted (c : Chart) (g g' : Nat) : Prop :=
  ∃ n q q', c.kind n = .parallel ∧ q ∈ c.children n ∧ q' ∈ c.children n ∧ q ≠ q' ∧
    c.Within g q ∧ c.Within g' q'

theorem Parted.symm (h : c.Parted g g') : c.Parted g' g := by
  obtain ⟨n, q, q', hk, hq, hq', hne, hgq, hgq'⟩ := h
  exact ⟨n, q', q, hk, hq', hq, hne.symm, hgq', hgq⟩

instance : Std.Symm c.Parted := ⟨fun _ _ => Parted.symm⟩

/-- The innermost state around two states is the one whose different children they lie in, if any
is. -/
theorem areApart_iff (ht : c.InOrder) (hx : x < c.size) (hy : y < c.size) :
    c.areApart x y = true ↔ c.Parted x y := by
  obtain ⟨hwx, hwy, hleast⟩ := ht.commonAncestor_spec hx hy
  simp only [Tree.areApart, Bool.and_eq_true, decide_eq_true_eq]
  constructor
  · rintro ⟨⟨hnx, hny⟩, hk⟩
    obtain ⟨q, hq, hxq⟩ := ht.exists_child_within (hwx.below_of_ne (Ne.symm hnx))
    obtain ⟨q', hq', hyq⟩ := ht.exists_child_within (hwy.below_of_ne (Ne.symm hny))
    refine ⟨_, q, q', hk, hq, hq', ?_, hxq, hyq⟩
    rintro rfl
    have hle := ht.le_of_within (hleast q hxq hyq)
    exact absurd (ht.lt_child hq) (Nat.not_lt_of_le hle)
  · rintro ⟨n, q, q', hk, hq, hq', hne, hxq, hyq⟩
    have hxn := ht.below_of_within_child hq hxq
    have hyn := ht.below_of_within_child hq' hyq
    -- a state around both that lay below would lie in one of the two children
    have heq : c.commonAncestor x y = n := by
      by_contra hne'
      have hbelow := (hleast n hxn.within hyn.within).below_of_ne hne'
      obtain ⟨u, hu, hwu⟩ := ht.exists_child_within hbelow
      exact hne ((ht.child_unique hq hu hxq (ht.within_trans hwx hwu)).trans
        (ht.child_unique hu hq' (ht.within_trans hwy hwu) hyq))
    rw [heq]
    refine ⟨⟨?_, ?_⟩, hk⟩
    · rintro rfl
      exact ht.not_below_self hxn
    · rintro rfl
      exact ht.not_below_self hyn

namespace WellFormed

variable (hc : c.WellFormed)
include hc

theorem parted_of_areApart (hx : x < c.size) (hy : y < c.size) (h : c.areApart x y = true) :
    c.Parted x y := (areApart_iff hc.inOrder hx hy).mp h

theorem not_within_of_parted (h : c.Parted g g') : ¬ c.Within g g' := by
  obtain ⟨n, q, q', -, hq, hq', hne, hgq, hgq'⟩ := h
  exact fun hw => hne (hc.inOrder.child_unique hq hq' hgq (hc.inOrder.within_trans hw hgq'))

/-- States in different regions do not lie in different children of a compound state. -/
theorem child_eq_of_parted (h : c.Parted g g') (hk : c.kind n = .compound) (hq : q ∈ c.children n)
    (hq' : q' ∈ c.children n) (hgq : c.Within g q) (hgq' : c.Within g' q') : q = q' := by
  obtain ⟨m, u, u', hpar, hu, hu', hne, hgu, hgu'⟩ := h
  by_contra hqq
  have hnm := hc.inOrder.split_unique hq hq' hqq hu hu' hne hgq hgq' hgu hgu'
  rw [← hnm, hk] at hpar
  exact absurd hpar (by decide)

/-- So lie active states of a legal set. -/
theorem parted_of_legal (ha : c.Legal a) (hg : g ∈ a) (hg' : g' ∈ a) (h : ¬ c.Within g g')
    (h' : ¬ c.Within g' g) : c.Parted g g' := by
  obtain ⟨n, q, q', hq, hq', hne, hgq, hgq'⟩ :=
    hc.inOrder.exists_split (ha.lt_size hg) (ha.lt_size hg') h h'
  have hqa := (ha.sound hc).mem_of_within hc hg hgq
  have hqa' := (ha.sound hc).mem_of_within hc hg' hgq'
  -- both children are active, which those of a compound state never are
  rcases hc.kind_of_child hq with hk | hk
  · exact absurd (ha.unique hk hq hq' hqa hqa') hne
  · exact ⟨n, q, q', hk, hq, hq', hne, hgq, hgq'⟩

theorem snapshot_parted (ha : c.Legal a) {depth : HistoryDepth}
    (hg : g ∈ c.snapshot a p depth) (hg' : g' ∈ c.snapshot a p depth) :
    g = g' ∨ c.Parted g g' := by
  by_cases heq : g = g'
  · exact Or.inl heq
  · refine Or.inr (hc.parted_of_legal ha (mem_of_mem_snapshot hg) (mem_of_mem_snapshot hg')
      (fun hw => heq ?_) (fun hw => heq ?_))
    · exact (ha.sound hc).snapshot_eq_of_within hc hg hg' hw
    · exact ((ha.sound hc).snapshot_eq_of_within hc hg' hg hw).symm

end WellFormed

/-! ## Records of sets that have been -/

/-- Every record was taken of a set with a property, when the parent of the history state was
active. -/
def RecordsFrom (c : Chart) (P : Active → Prop) (a : Active) : Prop :=
  ∀ h states, a.recorded? h = some states → ∃ p depth b, c.kind h = .history depth ∧
    h ∈ c.children p ∧ P b ∧ p ∈ b ∧ states = c.snapshot b p depth

theorem RecordsFrom.mono (h : c.RecordsFrom P a) (hPQ : ∀ b, P b → Q b) : c.RecordsFrom Q a := by
  intro x states hx
  obtain ⟨p, depth, b, hk, hp, hb, hpb, rfl⟩ := h x states hx
  exact ⟨p, depth, b, hk, hp, hPQ b hb, hpb, rfl⟩

theorem RecordsFrom.states (hP : ∀ b, P b → c.Sound b) (hrec : c.RecordsFrom P a) :
    c.RecordsStates a := by
  intro h states hs x hx
  obtain ⟨p, depth, b, -, -, hb, -, rfl⟩ := hrec h states hs
  exact (hP b hb).not_history (mem_of_mem_snapshot hx)

theorem RecordsFrom.inside (hc : c.WellFormed) (hP : ∀ b, P b → c.Sound b)
    (hrec : c.RecordsFrom P a) : c.RecordsInside a := by
  intro h states hs
  obtain ⟨p, depth, b, hk, hp, hb, hpb, rfl⟩ := hrec h states hs
  have hne := (hP b hb).exists_mem_snapshot hc hpb hp depth
  exact ⟨by rw [hk]; rfl, hne, p, hp, fun x hx => below_of_mem_snapshot hc hx⟩

/-! ## Coherent goals -/

/-- Any two goals lie in different regions of a parallel state, and where a history target restores
a state no other target aims. -/
structure Coherent (c : Chart) (a : Active) (r : Transition) : Prop where
  parted : ∀ {g g'}, c.Goal a r g → c.Goal a r g' → g = g' ∨ c.Parted g g'
  own : ∀ {x p g}, x ∈ r.targets → (c.kind x).isHistory = true → x ∈ c.children p →
    c.Goal a r g → c.Below g p → c.StandsFor a x g

/-- Where a history child of a parallel state is a target, no other target lies below that state. -/
def Solitary (c : Chart) (r : Transition) : Prop :=
  ∀ x ∈ r.targets, ∀ p, (c.kind x).isHistory = true → x ∈ c.children p → c.kind p = .parallel →
    ∀ y ∈ r.targets, y ≠ x → ¬ c.Below y p

theorem Coherent.separate (hc : c.WellFormed) (hstates : c.RecordsStates a)
    (h : c.Coherent a r) : c.Separate a r where
  states := hstates
  apart := fun hg hg' hw =>
    (h.parted hg hg').resolve_right fun hp => hc.not_within_of_parted hp hw
  own := h.own

namespace WellFormed

variable (hc : c.WellFormed) (hrec : c.RecordsFrom c.Legal a)
include hc hrec

/-- What a history state is replaced by at once is coherent. -/
theorem restored_parted (hk : (c.kind h).isHistory = true) (hx : x ∈ c.restored a h)
    (hy : y ∈ c.restored a h) : x = y ∨ c.Parted x y := by
  obtain ⟨p, hp⟩ := hc.exists_parent_of_history hk
  cases hr : a.recorded? h with
  | some states =>
    simp only [restored, hr] at hx hy
    obtain ⟨q, depth, b, -, -, hb, -, rfl⟩ := hrec h states hr
    exact hc.snapshot_parted hb hx hy
  | none =>
    cases hd : c.historyDefault? h with
    | some z =>
      simp only [restored, hr, hd, List.mem_singleton] at hx hy
      exact Or.inl (hx.trans hy.symm)
    | none =>
      simp only [restored, hr, hd, hc.inOrder.parent?_child hp] at hx hy
      rcases hc.kind_of_child hp with hkp | hkp
      · obtain ⟨i, -, hi⟩ := hc.exists_initial hkp
        simp only [hkp, hi, Option.toList_some, List.mem_singleton] at hx hy
        exact Or.inl (hx.trans hy.symm)
      · simp only [hkp] at hx hy
        by_cases heq : x = y
        · exact Or.inl heq
        · exact Or.inr ⟨p, x, y, hkp, Tree.region_child hx, Tree.region_child hy, heq,
            Tree.within_self _ x, Tree.within_self _ y⟩

/-- What a target stands for in the end is coherent. -/
theorem standsFor_parted (hg : c.StandsFor a x g) (hg' : c.StandsFor a x g') :
    g = g' ∨ c.Parted g g' := by
  have hstates := hrec.states fun b hb => Legal.sound hc hb
  induction hg with
  | state hk => exact Or.inl ((standsFor_state hk).mp hg').symm
  | @follow h y g hk hy hyg ih =>
    obtain ⟨y', hy', hyg'⟩ := (standsFor_history hk).mp hg'
    cases hyk : (c.kind y).isHistory with
    | true =>
      rw [(hc.restored_history hstates hk hy hyk).2, List.mem_singleton] at hy'
      exact ih (hy' ▸ hyg')
    | false =>
      cases hyk' : (c.kind y').isHistory with
      | true =>
        rw [(hc.restored_history hstates hk hy' hyk').2, List.mem_singleton] at hy
        rw [hy, hyk'] at hyk
        exact absurd hyk.symm Bool.false_ne_true
      | false =>
        rw [(standsFor_state hyk).mp hyg, (standsFor_state hyk').mp hyg']
        exact hc.restored_parted hrec hk hy hy'

/-- The goals of a single target are coherent. -/
theorem coherent_of_single (hr : r.targets = [x]) : c.Coherent a r := by
  have hgoal : ∀ {g}, c.Goal a r g → c.StandsFor a x g := by
    rintro g ⟨y, hy, hs⟩
    rw [hr, List.mem_singleton] at hy
    exact hy ▸ hs
  refine ⟨fun hg hg' => hc.standsFor_parted hrec (hgoal hg) (hgoal hg'), ?_⟩
  intro y p g hy _ _ hg _
  rw [hr, List.mem_singleton] at hy
  exact hy ▸ hgoal hg

/-- A target stands for states in its region only, unless it is itself beside the regions. -/
theorem standsFor_region (hxq : c.Within x q) (hne : (c.kind x).isHistory = true → x ≠ q)
    (hs : c.StandsFor a x g) : c.Within g q := by
  have hin := hrec.inside hc fun b hb => Legal.sound hc hb
  rcases Tree.within_iff.mp hxq with rfl | hbelow
  · cases hk : (c.kind x).isHistory with
    | false => exact (standsFor_state hk).mp hs ▸ Tree.within_self _ _
    | true => exact absurd rfl (hne hk)
  · exact (hc.standsFor_below hin hs hbelow).within

/-- Several targets are coherent when they lie in different regions and none lies below the parent
of another that is a history child of a parallel state. -/
theorem coherent_of_apart (hlt : ∀ x ∈ r.targets, x < c.size)
    (hapart : r.targets.Pairwise (fun x y => c.areApart x y = true)) (hsolitary : c.Solitary r) :
    c.Coherent a r := by
  have hparted : r.targets.Pairwise c.Parted := hapart.imp_of_mem fun hx hy h =>
    hc.parted_of_areApart (hlt _ hx) (hlt _ hy) h
  -- of two targets in different regions neither is beside these
  have hbeside : ∀ {n q q' x y}, c.kind n = .parallel → q ∈ c.children n → q' ∈ c.children n →
      q ≠ q' → x ∈ r.targets → y ∈ r.targets → c.Within x q → c.Within y q' →
      (c.kind x).isHistory = true → x ≠ q := by
    rintro n q q' x y hn hq hq' hne hx hy hxq hyq hk rfl
    refine hsolitary x hx n hk hq hn y hy ?_ (hc.inOrder.below_of_within_child hq' hyq)
    rintro rfl
    exact hne (hc.inOrder.child_unique hq hq' hxq hyq)
  constructor
  · rintro g g' ⟨x, hx, hs⟩ ⟨y, hy, hs'⟩
    by_cases hxy : x = y
    · subst hxy
      exact hc.standsFor_parted hrec hs hs'
    · obtain ⟨n, q, q', hn, hq, hq', hne, hxq, hyq⟩ := hparted.forall hx hy hxy
      have hgq := hc.standsFor_region hrec hxq (hbeside hn hq hq' hne hx hy hxq hyq) hs
      have hgq' := hc.standsFor_region hrec hyq (hbeside hn hq' hq hne.symm hy hx hyq hxq) hs'
      exact Or.inr ⟨n, q, q', hn, hq, hq', hne, hgq, hgq'⟩
  · rintro x p g hx hk hp ⟨y, hy, hs⟩ hgp
    by_cases hxy : x = y
    · exact hxy ▸ hs
    · obtain ⟨n, q, q', hn, hq, hq', hne, hxq, hyq⟩ := hparted.forall hx hy hxy
      have hxne := hbeside hn hq hq' hne hx hy hxq hyq hk
      have hgq := hc.inOrder.below_of_below_of_within hgp (hc.inOrder.parent_within hp hxq hxne)
      have hgq' := hc.standsFor_region hrec hyq (hbeside hn hq' hq hne.symm hy hx hyq hxq) hs
      exact absurd (hc.inOrder.child_unique hq hq' hgq.within hgq') hne

end WellFormed

end Statechart.Chart
