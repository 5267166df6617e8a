/-
# Statechart.Proofs.Entry.Goals -- what a target stands for

A target that is a history state stands for what it has recorded, else for its default target, else
for what its parent begins with, and each of these may be a history state again. `Chart.StandsFor`
follows such references to their ends, which are states that can be active. Following them comes to
an end when it never returns to a history state it has been at (`grounded_of_acyclic`), and a
machine whose default targets form no circle has no other circles while its records hold no history
states (`acyclic_of_defaults`). The records of the history states that a target leads to are all
that matters for it (`SameFrom`).
-/

import Mathlib.Data.List.Perm.Subperm
import Statechart.Proofs.Entry.Descent

namespace Statechart.Chart

variable {c : Chart} {a b : Active} {g h k m n p x y : Nat}

/-! ## Records -/

/-- Every record is held for a history state, is not empty and stays below that state's parent. -/
def RecordsInside (c : Chart) (a : Active) : Prop :=
  ∀ h states, a.recorded? h = some states → (c.kind h).isHistory = true ∧
    (∃ x, x ∈ states) ∧ ∃ p, h ∈ c.children p ∧ ∀ x ∈ states, c.Below x p

/-- Records are held for history states and of states that there are. -/
def RecordsKnown (c : Chart) (a : Active) : Prop :=
  ∀ h states, a.recorded? h = some states →
    (c.kind h).isHistory = true ∧ ∀ x ∈ states, x < c.size

/-- What is recorded for a history state lies below its parent. -/
def RecordsBelow (c : Chart) (a : Active) : Prop :=
  ∀ h states p, a.recorded? h = some states → h ∈ c.children p → ∀ x ∈ states, c.Below x p

/-- No history state is recorded. -/
def RecordsStates (c : Chart) (a : Active) : Prop :=
  ∀ h states, a.recorded? h = some states → ∀ x ∈ states, (c.kind x).isHistory = false

theorem RecordsInside.known (hrec : c.RecordsInside a) : c.RecordsKnown a := by
  intro h states hr
  obtain ⟨hk, -, p, -, hbelow⟩ := hrec h states hr
  exact ⟨hk, fun x hx => (hbelow x hx).lt_size⟩

namespace WellFormed

variable (hc : c.WellFormed)
include hc

theorem exists_parent_of_history (hk : (c.kind h).isHistory = true) : ∃ p, h ∈ c.children p := by
  refine hc.inOrder.exists_parent ?_ ?_
  · rintro rfl
    rw [hc.root_not_history] at hk
    exact Bool.false_ne_true hk
  · by_contra hsize
    rw [Tree.kind, Tree.place_of_size_le (Nat.le_of_not_lt hsize)] at hk
    exact Bool.false_ne_true hk

theorem restored_none (hp : h ∈ c.children p) (hrec : a.recorded? h = none)
    (hdef : c.historyDefault? h = none) :
    c.restored a h ≠ [] ∧ ∀ x ∈ c.restored a h, x ∈ c.regions p := by
  simp only [restored, hrec, hdef, hc.inOrder.parent?_child hp]
  rcases hc.kind_of_child hp with hk | hk
  · obtain ⟨i, hreg, hi⟩ := hc.exists_initial hk
    simpa [hk, hi] using hreg
  · simpa [hk] using hc.regions_ne_nil hk

/-- What a history state stands for lies below its parent. -/
theorem below_of_mem_restored (hrec : c.RecordsBelow a) (hp : h ∈ c.children p)
    (hx : x ∈ c.restored a h) : c.Below x p := by
  cases hr : a.recorded? h with
  | some states =>
    simp only [restored, hr] at hx
    exact hrec h states p hr hp x hx
  | none =>
    cases hd : c.historyDefault? h with
    | some y =>
      simp only [restored, hr, hd, List.mem_singleton] at hx
      obtain ⟨-, q, hq, hbelow⟩ := hc.default_below hd
      rw [hc.inOrder.parent_unique hq hp] at hbelow
      exact hx ▸ hbelow
    | none =>
      have hreg := (hc.restored_none hp hr hd).2 x hx
      exact hc.inOrder.below_child (Tree.region_child hreg)

theorem recordsBelow_of_inside (hrec : c.RecordsInside a) : c.RecordsBelow a := by
  intro h states p hr hp x hx
  obtain ⟨-, -, q, hq, hbelow⟩ := hrec h states hr
  rw [hc.inOrder.parent_unique hp hq]
  exact hbelow x hx

/-- Where no record is empty, a history state stands for something below its parent. -/
theorem restored_below (hrec : c.RecordsInside a) (hp : h ∈ c.children p) :
    c.restored a h ≠ [] ∧ ∀ x ∈ c.restored a h, c.Below x p := by
  refine ⟨?_, fun x hx => hc.below_of_mem_restored (hc.recordsBelow_of_inside hrec) hp hx⟩
  cases hr : a.recorded? h with
  | some states =>
    obtain ⟨-, ⟨x, hx⟩, -⟩ := hrec h states hr
    simp only [restored, hr]
    exact List.ne_nil_of_mem hx
  | none =>
    cases hd : c.historyDefault? h with
    | some x => simp [restored, hr, hd]
    | none => exact (hc.restored_none hp hr hd).1

/-- A history state that stands for a history state does so by its default target. -/
theorem restored_history (hrec : c.RecordsStates a) (hk : (c.kind h).isHistory = true)
    (hx : x ∈ c.restored a h) (hxk : (c.kind x).isHistory = true) :
    c.historyDefault? h = some x ∧ c.restored a h = [x] := by
  obtain ⟨p, hp⟩ := hc.exists_parent_of_history hk
  cases hr : a.recorded? h with
  | some states =>
    simp only [restored, hr] at hx
    rw [hrec h states hr x hx] at hxk
    exact absurd hxk Bool.false_ne_true
  | none =>
    cases hd : c.historyDefault? h with
    | some y =>
      simp only [restored, hr, hd] at hx ⊢
      rw [List.mem_singleton.mp hx]
      exact ⟨rfl, rfl⟩
    | none =>
      have hreg := (hc.restored_none hp hr hd).2 x hx
      rw [(Tree.mem_regions.mp hreg).2] at hxk
      exact absurd hxk Bool.false_ne_true

end WellFormed

/-! ## Following history states -/

/-- A history state and one of the states that it stands for at once. -/
def Follows (c : Chart) (a : Active) (h x : Nat) : Prop :=
  (c.kind h).isHistory = true ∧ x ∈ c.restored a h

/-- Following history states never comes back to one. -/
def Acyclic (c : Chart) (a : Active) : Prop := ∀ h, ¬ Relation.TransGen (c.Follows a) h h

/-- Following a target comes to a history state to which following that comes back. -/
def Circular (c : Chart) (a : Active) (x : Nat) : Prop :=
  ∃ h, Relation.ReflTransGen (c.Follows a) x h ∧ Relation.TransGen (c.Follows a) h h

/-- Following default targets never comes back to a history state. -/
def DefaultsAcyclic (c : Chart) : Prop :=
  ∀ h, ¬ Relation.TransGen (fun h x => c.historyDefault? h = some x) h h

/-- Following a target comes to states that can be active in at most so many steps. -/
inductive Grounded (c : Chart) (a : Active) : Nat → Nat → Prop
  | state {k x : Nat} : (c.kind x).isHistory = false → Grounded c a k x
  | history {k h : Nat} : (c.kind h).isHistory = true → (∀ x ∈ c.restored a h, Grounded c a k x) →
      Grounded c a (k + 1) h

/-- What a target stands for in the end. -/
inductive StandsFor (c : Chart) (a : Active) : Nat → Nat → Prop
  | state {x : Nat} : (c.kind x).isHistory = false → StandsFor c a x x
  | follow {h x g : Nat} : (c.kind h).isHistory = true → x ∈ c.restored a h → StandsFor c a x g →
      StandsFor c a h g

theorem Circular.head (hs : c.Follows a x y) (hy : c.Circular a y) : c.Circular a x :=
  hy.imp fun _ hy => ⟨hy.1.head hs, hy.2⟩

/-- What leads in a circle does so by something that it stands for. -/
theorem Circular.exists_follows (hx : c.Circular a x) : ∃ y, c.Follows a x y ∧ c.Circular a y := by
  obtain ⟨h, hpath, hcycle⟩ := hx
  rcases Relation.ReflTransGen.cases_head hpath with rfl | ⟨y, hfollows, hpath⟩
  · obtain ⟨y, hfollows, hback⟩ := Relation.TransGen.head'_iff.mp hcycle
    exact ⟨y, hfollows, x, hback, hcycle⟩
  · exact ⟨y, hfollows, h, hpath, hcycle⟩

theorem Acyclic.not_circular (h : c.Acyclic a) (x : Nat) : ¬ c.Circular a x :=
  fun ⟨y, _, hcycle⟩ => h y hcycle

/-- Default targets that are no history states form no circle. -/
theorem defaultsAcyclic_of_states
    (hstates : ∀ h x, c.historyDefault? h = some x → (c.kind x).isHistory = false)
    (hc : c.WellFormed) : c.DefaultsAcyclic := by
  intro h hcycle
  obtain ⟨x, -, hx⟩ := Relation.TransGen.tail'_iff.mp hcycle
  obtain ⟨y, hy, -⟩ := Relation.TransGen.head'_iff.mp hcycle
  have hk := hstates x h hx
  rw [(hc.default_below hy).1] at hk
  exact Bool.false_ne_true hk.symm

/-- There is no circle if every step to a history state is one of a relation without circles. -/
theorem acyclic_of_steps {R : Nat → Nat → Prop}
    (hstep : ∀ {h x}, c.Follows a h x → (c.kind x).isHistory = true → R h x)
    (hR : ∀ h, ¬ Relation.TransGen R h h) : c.Acyclic a := by
  intro h hcycle
  have key : ∀ {x}, Relation.TransGen (c.Follows a) h x → (c.kind x).isHistory = true →
      Relation.TransGen R h x := by
    intro x hpath
    induction hpath with
    | single hs => exact fun hk => .single (hstep hs hk)
    | tail _ hs ih => exact fun hk => (ih hs.1).tail (hstep hs hk)
  -- a circle ends where it begins, in a history state
  obtain ⟨y, hy, -⟩ := Relation.TransGen.head'_iff.mp hcycle
  exact hR h (key hcycle hy.1)

/-- For that it is enough to look at the default targets that are listed. -/
theorem defaultsAcyclic_of_behaviours (hc : c.WellFormed)
    (h : ∀ b ∈ c.behaviours.toList, ∀ x ∈ b.historyDefault, (c.kind x).isHistory = false) :
    c.DefaultsAcyclic :=
  defaultsAcyclic_of_states (fun _ x hx => forall_historyDefault h x hx) hc

namespace WellFormed

variable (hc : c.WellFormed)
include hc

/-- While no history state is recorded, only default targets lead from one to another. -/
theorem acyclic_of_defaults (hrec : c.RecordsStates a) (hdef : c.DefaultsAcyclic) :
    c.Acyclic a :=
  acyclic_of_steps (fun hs hk => (hc.restored_history hrec hs.1 hs.2 hk).1) hdef

/-- A path without a circle meets each state at most once, so it has no more steps than there are
states. -/
theorem grounded_of_visited (hx : ¬ c.Circular a x) {visited : List Nat} (hnodup : visited.Nodup)
    (hlt : ∀ v ∈ visited, v < c.size)
    (hpath : ∀ v ∈ visited, Relation.TransGen (c.Follows a) v x)
    (hk : visited.length + k = c.size) : c.Grounded a k x := by
  induction k generalizing visited x with
  | zero =>
    apply Grounded.state
    by_contra hhist
    rw [Bool.not_eq_false] at hhist
    obtain ⟨p, hp⟩ := hc.exists_parent_of_history hhist
    have hnew : x ∉ visited := fun hmem => hx ⟨x, .refl, hpath x hmem⟩
    -- one more state than there are cannot have been visited
    have hsub : (x :: visited) ⊆ List.range c.size := by
      intro v hv
      rcases List.mem_cons.mp hv with rfl | hv
      · exact List.mem_range.mpr (hc.inOrder.child_lt_size hp)
      · exact List.mem_range.mpr (hlt v hv)
    have hlen := (List.subperm_of_subset (List.nodup_cons.mpr ⟨hnew, hnodup⟩) hsub).length_le
    rw [List.length_cons, List.length_range] at hlen
    omega
  | succ k ih =>
    cases hhist : (c.kind x).isHistory with
    | false => exact .state hhist
    | true =>
      obtain ⟨p, hp⟩ := hc.exists_parent_of_history hhist
      have hnew : x ∉ visited := fun hmem => hx ⟨x, .refl, hpath x hmem⟩
      have hnodup' : (x :: visited).Nodup := List.nodup_cons.mpr ⟨hnew, hnodup⟩
      refine .history hhist fun y hy => ih (fun hy' => hx (.head ⟨hhist, hy⟩ hy')) hnodup' ?_ ?_
        (by rw [List.length_cons]; omega)
      · intro v hv
        rcases List.mem_cons.mp hv with rfl | hv
        · exact hc.inOrder.child_lt_size hp
        · exact hlt v hv
      · intro v hv
        rcases List.mem_cons.mp hv with rfl | hv
        · exact .single ⟨hhist, hy⟩
        · exact (hpath v hv).tail ⟨hhist, hy⟩

theorem grounded_of_not_circular (hx : ¬ c.Circular a x) : c.Grounded a c.size x :=
  hc.grounded_of_visited hx List.nodup_nil (by simp) (by simp) (by simp)

theorem grounded_of_acyclic (hacyclic : c.Acyclic a) (x : Nat) : c.Grounded a c.size x :=
  hc.grounded_of_not_circular (hacyclic.not_circular x)

end WellFormed

/-! ## Goals -/

theorem StandsFor.not_history (hs : c.StandsFor a x g) : (c.kind g).isHistory = false := by
  induction hs with
  | state hk => exact hk
  | follow _ _ _ ih => exact ih

theorem standsFor_state (hk : (c.kind x).isHistory = false) : c.StandsFor a x g ↔ g = x := by
  constructor
  · intro hs
    cases hs with
    | state => rfl
    | follow hk' => rw [hk] at hk'; exact absurd hk' Bool.false_ne_true
  · rintro rfl
    exact .state hk

theorem standsFor_history (hk : (c.kind h).isHistory = true) :
    c.StandsFor a h g ↔ ∃ x ∈ c.restored a h, c.StandsFor a x g := by
  constructor
  · intro hs
    cases hs with
    | state hk' => rw [hk] at hk'; exact absurd hk'.symm Bool.false_ne_true
    | follow _ hx hs => exact ⟨_, hx, hs⟩
  · rintro ⟨x, hx, hs⟩
    exact .follow hk hx hs

namespace WellFormed

variable (hc : c.WellFormed) (hrec : c.RecordsInside a)
include hc hrec

/-- A target that can be followed to an end stands for something. -/
theorem exists_standsFor (hg : c.Grounded a k x) : ∃ g, c.StandsFor a x g := by
  induction hg with
  | state hk => exact ⟨_, .state hk⟩
  | @history k h hk _ ih =>
    obtain ⟨p, hp⟩ := hc.exists_parent_of_history hk
    obtain ⟨y, hy⟩ := List.exists_mem_of_ne_nil _ (hc.restored_below hrec hp).1
    obtain ⟨g, hg⟩ := ih y hy
    exact ⟨g, .follow hk hy hg⟩

/-- So does each of the states that it is replaced by. -/
theorem exists_standsFor_of_restored (hg : c.Grounded a k h) (hk : (c.kind h).isHistory = true)
    (hx : x ∈ c.restored a h) : ∃ g, c.StandsFor a x g := by
  cases hg with
  | state hk' => exact absurd (hk'.symm.trans hk) Bool.false_ne_true
  | history _ hfollow => exact hc.exists_standsFor hrec (hfollow x hx)

/-- A history state stands for states below its parent only. -/
theorem standsFor_below_parent (hs : c.StandsFor a h g) (hk : (c.kind h).isHistory = true)
    (hp : h ∈ c.children p) : c.Below g p := by
  induction hs generalizing p with
  | state hk' => rw [hk'] at hk; exact absurd hk Bool.false_ne_true
  | @follow h x g _ hx hs ih =>
    have hxp := (hc.restored_below hrec hp).2 x hx
    cases hxk : (c.kind x).isHistory with
    | false => rwa [(standsFor_state hxk).mp hs]
    | true =>
      obtain ⟨q, hq⟩ := hc.exists_parent_of_history hxk
      exact hc.inOrder.below_of_below_of_within (ih hxk hq) ((hc.inOrder.below_child_iff hq).mp hxp)

/-- What a target stands for lies below all that the target lies below. -/
theorem standsFor_below (hs : c.StandsFor a x g) (hn : c.Below x n) : c.Below g n := by
  cases hxk : (c.kind x).isHistory with
  | false => rwa [(standsFor_state hxk).mp hs]
  | true =>
    obtain ⟨q, hq⟩ := hc.exists_parent_of_history hxk
    exact hc.inOrder.below_of_below_of_within (hc.standsFor_below_parent hrec hs hxk hq)
      ((hc.inOrder.below_child_iff hq).mp hn)

end WellFormed

/-! ## Records that matter -/

/-- Of the history states that following a target comes to, two sets hold the same records. -/
def SameFrom (c : Chart) (a b : Active) (x : Nat) : Prop :=
  ∀ h, Relation.ReflTransGen (c.Follows a) x h → (c.kind h).isHistory = true →
    a.recorded? h = b.recorded? h

theorem restored_congr (h : a.recorded? x = b.recorded? x) : c.restored a x = c.restored b x := by
  simp only [restored, h]

namespace SameFrom

/-- A target that is no history state needs no records. -/
theorem state (hk : (c.kind x).isHistory = false) : c.SameFrom a b x := by
  intro h hpath hh
  rcases Relation.ReflTransGen.cases_head hpath with rfl | ⟨y, hfollows, -⟩
  · rw [hk] at hh
    cases hh
  · have hhistory := hfollows.1
    rw [hk] at hhistory
    cases hhistory

theorem restored_eq (h : c.SameFrom a b x) (hk : (c.kind x).isHistory = true) :
    c.restored a x = c.restored b x :=
  restored_congr (h x .refl hk)

theorem follow (h : c.SameFrom a b x) (hy : c.Follows a x y) : c.SameFrom a b y :=
  fun z hz => h z (hz.head hy)

theorem symm (h : c.SameFrom a b x) : c.SameFrom b a x := by
  -- each step that the one set makes the other one makes too
  have key : ∀ z, Relation.ReflTransGen (c.Follows b) x z →
      Relation.ReflTransGen (c.Follows a) x z := by
    intro z hpath
    induction hpath with
    | refl => exact .refl
    | tail _ hs ih => exact ih.tail ⟨hs.1, restored_congr (h _ ih hs.1) ▸ hs.2⟩
  exact fun z hz hk => (h z (key z hz) hk).symm

theorem grounded (h : c.SameFrom a b x) (hg : c.Grounded a k x) : c.Grounded b k x := by
  induction hg with
  | state hk => exact .state hk
  | history hk _ ih =>
    refine .history hk fun y hy => ?_
    rw [← h.restored_eq hk] at hy
    exact ih y hy (h.follow ⟨hk, hy⟩)

theorem standsFor (h : c.SameFrom a b x) (hs : c.StandsFor a x g) : c.StandsFor b x g := by
  induction hs with
  | state hk => exact .state hk
  | follow hk hy _ ih => exact .follow hk (h.restored_eq hk ▸ hy) (ih (h.follow ⟨hk, hy⟩))

end SameFrom

end Statechart.Chart
