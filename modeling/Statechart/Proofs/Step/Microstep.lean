/-
# Statechart.Proofs.Step.Microstep -- what a microstep leaves and enters

After a microstep those states are active that were active and are not left, and those that its
transitions enter (`mem_microstep`); a history state holds what it held, unless its parent was left,
and then what was active there (`recorded?_left`). Below the domain of a transition whose goals do
not get in each other's way, exactly the descent toward these is entered, whatever else is fired
with it (`mem_entrySet_of_within`).
-/

import Statechart.Proofs.Entry.Coherent
import Statechart.Proofs.Step.Domain

namespace Statechart.Chart

variable {c : Chart} {a b : Active} {r : Transition} {transitions : List Transition}
  {P : Active → Prop} {d g h m n p q x : Nat}

/-! ## Leaving -/

/-- What remains after leaving: with the new records and without the states left. -/
def left (c : Chart) (a : Active) (transitions : List Transition) : Active :=
  (c.recordHistory a (c.exits a transitions)).without (c.exits a transitions)

theorem mem_exits : n ∈ c.exits a transitions ↔
    ∃ r ∈ transitions, ∃ d, r.domain? c.toTree = some d ∧ n ∈ a ∧ c.Below n d := by
  have key : ∀ (l : List Transition) (s : SortedSet Nat),
      n ∈ l.foldl (fun s r => s.union (r.exitSet c.toTree a)) s ↔
        n ∈ s ∨ ∃ r ∈ l, ∃ d, r.domain? c.toTree = some d ∧ n ∈ a ∧ c.Below n d := by
    intro l
    induction l with
    | nil => simp
    | cons r l ih =>
      intro s
      rw [List.foldl_cons, ih, SortedSet.mem_union, mem_exitSet, or_assoc]
      simp
  rw [exits, key]
  simp

/-- The records of some history states, each the same wherever it stands in the list. -/
theorem recorded?_foldl {l : List (Nat × SortedSet Nat)} {states : SortedSet Nat}
    (hl : ∀ e ∈ l, e.1 = h → e.2 = states) :
    (∃ e ∈ l, e.1 = h) ∧ (l.foldl (fun b e => b.record e.1 e.2) a).recorded? h = some states ∨
      (∀ e ∈ l, e.1 ≠ h) ∧
        (l.foldl (fun b e => b.record e.1 e.2) a).recorded? h = a.recorded? h := by
  induction l generalizing a with
  | nil => simp
  | cons e l ih =>
    rw [List.foldl_cons]
    -- the last entry for the state counts, or the first record if there is none behind it
    rcases ih (a := a.record e.1 e.2) (fun e he => hl e (List.mem_cons_of_mem _ he)) with
      ⟨⟨e', he', heq⟩, hrec⟩ | ⟨hne, hrec⟩
    · exact Or.inl ⟨⟨e', List.mem_cons_of_mem _ he', heq⟩, hrec⟩
    · rw [hrec, Active.recorded?, Active.record, SortedMap.get?_insert]
      by_cases heq : h = e.1
      · refine Or.inl ⟨⟨e, List.mem_cons_self, heq.symm⟩, ?_⟩
        rw [if_pos heq, hl e List.mem_cons_self heq.symm]
      · refine Or.inr ⟨fun e' he' => ?_, if_neg heq⟩
        rcases List.mem_cons.mp he' with rfl | he'
        · exact fun e => heq e.symm
        · exact hne e' he'

theorem mem_recordsAt {e : Nat × SortedSet Nat} : e ∈ c.recordsAt a n ↔
    ∃ depth, e.1 ∈ c.children n ∧ c.kind e.1 = .history depth ∧
      e.2 = c.snapshot a n depth := by
  unfold recordsAt
  rw [List.mem_filterMap]
  constructor
  · rintro ⟨h, hh, he⟩
    cases hk : c.kind h with
    | history depth =>
      simp only [hk, Option.some.injEq] at he
      subst he
      exact ⟨depth, hh, hk, rfl⟩
    | atomic | compound | parallel | final => simp [hk] at he
  · rintro ⟨depth, hh, hk, hs⟩
    refine ⟨e.1, hh, ?_⟩
    rw [hk]
    exact congrArg some (Prod.ext rfl hs.symm)

/-- Leaving the parent of a history state replaces its record. -/
theorem recorded?_left (hc : c.WellFormed) (hp : h ∈ c.children p) {depth : HistoryDepth}
    (hk : c.kind h = .history depth) : (c.left a transitions).recorded? h =
      if p ∈ c.exits a transitions then some (c.snapshot a p depth) else a.recorded? h := by
  have hentry : ∀ e ∈ (c.exits a transitions).toList.flatMap (c.recordsAt a), e.1 = h →
      p ∈ c.exits a transitions ∧ e.2 = c.snapshot a p depth := by
    intro e he heq
    obtain ⟨n, hn, he⟩ := List.mem_flatMap.mp he
    obtain ⟨depth', hen, hk', hs⟩ := mem_recordsAt.mp he
    rw [heq] at hen hk'
    rw [hc.inOrder.parent_unique hp hen]
    rw [hk] at hk'
    obtain rfl := Kind.history.inj hk'
    exact ⟨hn, hs⟩
  rcases recorded?_foldl (a := a) (fun e he heq => (hentry e he heq).2) with
    ⟨⟨e, he, heq⟩, hrec⟩ | ⟨hne, hrec⟩
  · rw [if_pos (hentry e he heq).1]
    exact hrec
  · rw [if_neg fun hmem => ?_]
    · exact hrec
    · exact hne (h, c.snapshot a p depth)
        (List.mem_flatMap.mpr ⟨p, hmem, mem_recordsAt.mpr ⟨depth, hp, hk, rfl⟩⟩) rfl

/-- Only history states get records. -/
theorem recorded?_left_of_state (hk : (c.kind h).isHistory = false) :
    (c.left a transitions).recorded? h = a.recorded? h := by
  have hentry : ∀ e ∈ (c.exits a transitions).toList.flatMap (c.recordsAt a), e.1 ≠ h := by
    rintro e he rfl
    obtain ⟨n, -, he⟩ := List.mem_flatMap.mp he
    obtain ⟨depth, -, hk', -⟩ := mem_recordsAt.mp he
    rw [hk'] at hk
    exact absurd hk.symm Bool.false_ne_true
  have hnone : ∀ e ∈ (c.exits a transitions).toList.flatMap (c.recordsAt a), e.1 = h →
      e.2 = .empty := fun e he heq => absurd heq (hentry e he)
  rcases recorded?_foldl (a := a) hnone with ⟨⟨e, he, heq⟩, -⟩ | ⟨-, hrec⟩
  · exact absurd heq (hentry e he)
  · exact hrec

theorem states_recordHistory (exits : SortedSet Nat) :
    (c.recordHistory a exits).states = a.states := by
  have key : ∀ (l : List (Nat × SortedSet Nat)) (b : Active),
      (l.foldl (fun b e => b.record e.1 e.2) b).states = b.states := by
    intro l
    induction l with
    | nil => exact fun _ => rfl
    | cons e l ih => exact fun b => ih (b.record e.1 e.2)
  exact key _ a

@[simp] theorem mem_left : n ∈ c.left a transitions ↔ n ∈ a ∧ n ∉ c.exits a transitions := by
  rw [left, Active.mem_iff, Active.without, SortedSet.mem_filter, states_recordHistory,
    decide_eq_true_eq, Active.mem_iff]

/-- The root is never left. -/
theorem root_mem_left (hc : c.WellFormed) (h : Tree.root ∈ a) :
    Tree.root ∈ c.left a transitions := by
  refine mem_left.mpr ⟨h, fun hmem => ?_⟩
  obtain ⟨r, -, d, -, -, hbelow⟩ := mem_exits.mp hmem
  exact hc.inOrder.not_below_root hbelow

/-- A history state holds what it held, or what has just been recorded of the set that is left. -/
theorem recorded?_left_cases (hc : c.WellFormed) {states : SortedSet Nat}
    (hs : (c.left a transitions).recorded? h = some states) : a.recorded? h = some states ∨
      ∃ p depth, c.kind h = .history depth ∧ h ∈ c.children p ∧ p ∈ a ∧
        states = c.snapshot a p depth := by
  cases hk : (c.kind h).isHistory with
  | false =>
    rw [recorded?_left_of_state hk] at hs
    exact Or.inl hs
  | true =>
    obtain ⟨p, hp⟩ := hc.exists_parent_of_history hk
    obtain ⟨depth, hdepth⟩ := Kind.exists_depth hk
    rw [recorded?_left hc hp hdepth] at hs
    split at hs
    · rename_i hmem
      obtain ⟨r, -, d, -, hpa, -⟩ := mem_exits.mp hmem
      exact Or.inr ⟨p, depth, hdepth, hp, hpa, (Option.some.inj hs).symm⟩
    · exact Or.inl hs

theorem recordsFrom_left (hc : c.WellFormed) (ha : P a) (hrec : c.RecordsFrom P a)
    (transitions : List Transition) : c.RecordsFrom P (c.left a transitions) := by
  intro h states hs
  rcases recorded?_left_cases hc hs with hs | ⟨p, depth, hk, hp, hpa, rfl⟩
  · exact hrec h states hs
  · exact ⟨p, depth, a, hk, hp, ha, hpa, rfl⟩

/-- What a sound set records when it is left is not empty and stays below the parents. -/
theorem recordsInside_left (hc : c.WellFormed) (ha : c.Sound a) (hrec : c.RecordsInside a)
    (transitions : List Transition) : c.RecordsInside (c.left a transitions) := by
  intro h states hs
  rcases recorded?_left_cases hc hs with hs | ⟨p, depth, hk, hp, hpa, rfl⟩
  · exact hrec h states hs
  · have hne := ha.exists_mem_snapshot hc hpa hp depth
    exact ⟨by rw [hk]; rfl, hne, p, hp, fun x hx => below_of_mem_snapshot hc hx⟩

/-- Where no history state is active none is recorded, so following these does not come to more of
them than before. -/
theorem acyclic_left (hc : c.WellFormed) (hstates : ∀ n ∈ a, (c.kind n).isHistory = false)
    (hacyclic : c.Acyclic a) (transitions : List Transition) :
    c.Acyclic (c.left a transitions) := by
  -- a step to a history state is one that could be made before
  have hstep : ∀ {g x}, c.Follows (c.left a transitions) g x → (c.kind x).isHistory = true →
      c.Follows a g x := by
    rintro g x ⟨hg, hx⟩ hxk
    refine ⟨hg, ?_⟩
    cases hr : (c.left a transitions).recorded? g with
    | none =>
      obtain ⟨p, hp⟩ := hc.exists_parent_of_history hg
      obtain ⟨depth, hdepth⟩ := Kind.exists_depth hg
      have hsame := hr
      rw [recorded?_left hc hp hdepth] at hsame
      split at hsame
      · cases hsame
      · simpa only [restored, hr, hsame] using hx
    | some states =>
      simp only [restored, hr] at hx
      rcases recorded?_left_cases hc hr with hsame | ⟨p, depth, -, -, -, rfl⟩
      · simpa only [restored, hsame] using hx
      · have hnot := hstates x (mem_of_mem_snapshot hx)
        rw [hxk] at hnot
        exact absurd hnot.symm Bool.false_ne_true
  exact acyclic_of_steps hstep hacyclic

/-! ## Entering -/

/-- Entering makes the states active and leaves the records alone. -/
theorem enterAll_spec {actions : List Action} {states : Entering} :
    (∀ n, n ∈ (c.enterAll a actions states).active ↔ n ∈ a ∨ n ∈ states) ∧
      (c.enterAll a actions states).active.history = a.history := by
  have key : ∀ (l : List Nat) (s : Stepped),
      (∀ n, n ∈ (l.foldl c.enter s).active ↔ n ∈ s.active ∨ n ∈ l) ∧
        (l.foldl c.enter s).active.history = s.active.history := by
    intro l
    induction l with
    | nil => simp
    | cons m l ih =>
      intro s
      have hstep : (∀ n, n ∈ (c.enter s m).active ↔ n ∈ s.active ∨ n = m) ∧
          (c.enter s m).active.history = s.active.history := by
        unfold enter
        split
        · rename_i hm
          refine ⟨fun n => ⟨Or.inl, ?_⟩, rfl⟩
          rintro (hn | rfl)
          · exact hn
          · exact hm
        · refine ⟨fun n => ?_, rfl⟩
          rw [Active.mem_iff, Active.insert, SortedSet.mem_insert, or_comm, Active.mem_iff]
      rw [List.foldl_cons]
      refine ⟨fun n => ?_, (ih (c.enter s m)).2.trans hstep.2⟩
      rw [(ih (c.enter s m)).1, hstep.1, List.mem_cons, or_assoc]
  exact key states.toList ⟨a, actions, []⟩

theorem mem_enter_of_mem {s : Stepped} (h : n ∈ s.active) : n ∈ (c.enter s m).active := by
  unfold enter
  split
  · exact h
  · exact SortedSet.mem_insert.mpr (Or.inr h)

/-- States that are active already are passed over. -/
theorem foldl_enter_filter {l : List Nat} {s : Stepped} (h : ∀ n ∈ a, n ∈ s.active) :
    (l.filter (fun n => decide (n ∉ a))).foldl c.enter s = l.foldl c.enter s := by
  induction l generalizing s with
  | nil => rfl
  | cons m l ih =>
    by_cases hm : m ∈ a
    · have hskip : c.enter s m = s := if_pos (h m hm)
      rw [List.filter_cons_of_neg (by simpa using hm), List.foldl_cons, hskip]
      exact ih h
    · rw [List.filter_cons_of_pos (by simpa using hm), List.foldl_cons, List.foldl_cons]
      exact ih fun n hn => mem_enter_of_mem (h n hn)

/-- Entering new states reports their entry actions one after the other; what has been reported
before makes no other difference. -/
theorem foldl_enter_actions {l : List Nat} {s : Stepped} (hnodup : l.Nodup)
    (hfresh : ∀ n ∈ l, n ∉ s.active) (before : List Action) :
    l.foldl c.enter { s with actions := before } =
      { l.foldl c.enter { s with actions := [] } with
        actions := before ++ l.flatMap c.entryActions } := by
  induction l generalizing s before with
  | nil => simp
  | cons m l ih =>
    obtain ⟨hm, hl⟩ := List.nodup_cons.mp hnodup
    have hstep : ∀ before : List Action, c.enter { s with actions := before } m =
        { active := s.active.insert m, actions := before ++ c.entryActions m,
          raised := s.raised ++ c.doneEvents (s.active.insert m) m } := fun before =>
      if_neg (hfresh m List.mem_cons_self)
    have hrest := ih (s := ⟨s.active.insert m, [],
      s.raised ++ c.doneEvents (s.active.insert m) m⟩) hl (by
        intro n hn hmem
        rcases SortedSet.mem_insert.mp hmem with rfl | hmem
        · exact hm hn
        · exact hfresh n (List.mem_cons_of_mem m hn) hmem)
    rw [List.foldl_cons, List.foldl_cons, hstep before, hstep [],
      hrest (before ++ c.entryActions m), hrest ([] ++ c.entryActions m)]
    simp

/-- What a microstep enters: what is to be entered and has not remained active. -/
def entered (c : Chart) (a : Active) (transitions : List Transition) : SortedSet Nat :=
  (c.entrySet (c.left a transitions) transitions).filter
    (fun n => decide (n ∉ c.left a transitions))

@[simp] theorem mem_entered : n ∈ c.entered a transitions ↔
    n ∈ c.entrySet (c.left a transitions) transitions ∧ n ∉ c.left a transitions := by
  rw [entered, SortedSet.mem_filter, decide_eq_true_eq]

/-- A microstep reports the exit actions of what is left, from the inside outwards, the actions of
the transitions, and the entry actions of what is entered, from the outside inwards. Which states
become active and which done events are raised depends on what remains and what is entered only. -/
theorem microstep_eq : c.microstep a transitions =
    { c.enterAll (c.left a transitions) [] (c.entered a transitions) with
      actions := (c.exits a transitions).toList.reverse.flatMap c.exitActions ++
        transitions.flatMap Transition.actions ++
        (c.entered a transitions).toList.flatMap c.entryActions } := by
  have hnodup : (c.entered a transitions).toList.Nodup :=
    (c.entered a transitions).ascending.imp Nat.ne_of_lt
  have hfresh : ∀ n ∈ (c.entered a transitions).toList, n ∉ c.left a transitions :=
    fun n hn => (mem_entered.mp hn).2
  have hactions := foldl_enter_actions (c := c) (s := ⟨c.left a transitions, [], []⟩) hnodup
    hfresh ((c.exits a transitions).toList.reverse.flatMap c.exitActions ++
      transitions.flatMap Transition.actions)
  have hskip := foldl_enter_filter (c := c) (l := (c.entrySet (c.left a transitions)
    transitions).toList) (s := ⟨c.left a transitions, (c.exits a transitions).toList.reverse.flatMap
      c.exitActions ++ transitions.flatMap Transition.actions, []⟩) (a := c.left a transitions)
    fun n hn => hn
  exact hskip.symm.trans hactions

/-- After a microstep those are active that were and are not left, and those that are entered. -/
theorem mem_microstep : n ∈ (c.microstep a transitions).active ↔
    n ∈ c.left a transitions ∨ n ∈ c.entrySet (c.left a transitions) transitions :=
  enterAll_spec.1 n

theorem recorded?_microstep :
    (c.microstep a transitions).active.recorded? h = (c.left a transitions).recorded? h := by
  have hist : (c.microstep a transitions).active.history = (c.left a transitions).history :=
    enterAll_spec.2
  show (c.microstep a transitions).active.history.get? h = (c.left a transitions).history.get? h
  rw [hist]

/-! ## What several transitions enter -/

theorem addTransition_of_none {s : Entering} (h : r.domain? c.toTree = none) :
    c.addTransition a s r = s := by
  rw [addTransition, h]

/-- Each of some transitions with a domain has its goals in a set, and what lies between them and
the domain. -/
def Reached (c : Chart) (b : Active) (r : Transition) (s : Entering) : Prop :=
  ∀ d, c.Domain r d → ∀ g, c.Goal b r g →
    g ∈ s ∧ ∀ n, c.Below g n → c.Below n d → n ∈ s

/-- What entering relies on: the records stay inside and are not empty, the transitions are
declared, and their targets can be followed to an end. -/
structure Ready (c : Chart) (b : Active) (transitions : List Transition) : Prop where
  inside : c.RecordsInside b
  declared : ∀ r ∈ transitions, c.Declares r
  grounded : ∀ r ∈ transitions, ∀ x ∈ r.targets, c.Grounded b c.size x

theorem Ready.of_subset (h : c.Ready b transitions) {l : List Transition}
    (hl : ∀ r ∈ l, r ∈ transitions) : c.Ready b l where
  inside := h.inside
  declared := fun r hr => h.declared r (hl r hr)
  grounded := fun r hr => h.grounded r (hl r hr)

section

variable (hc : c.WellFormed) (hready : c.Ready b transitions)
include hc hready

/-- A transition with a domain has a goal. -/
theorem exists_goal (hr : r ∈ transitions) (hd : c.Domain r d) : ∃ g, c.Goal b r g := by
  obtain ⟨x, hx⟩ := List.exists_mem_of_ne_nil _ hd.targets_ne_nil
  obtain ⟨g, hg⟩ := hc.exists_standsFor hready.inside (hready.grounded r hr x hx)
  exact ⟨g, x, hx, hg⟩

theorem goal_inside_domain (hd : c.Domain r d) (hg : c.Goal b r g) : c.Inside d g :=
  hc.goal_inside hready.inside (hd.targets_inside hc) hg

/-- Transitions fired one after the other add what each of them needs. -/
theorem foldl_addTransition_extends (s : Entering) :
    c.Extends s (transitions.foldl (c.addTransition b) s)
        (fun m => ∃ r ∈ transitions, ∃ d, c.Domain r d ∧ c.Enterable b r d m)
        (fun m => ∃ r ∈ transitions, ∃ d, c.Domain r d ∧ ∀ p, m ∈ c.children p → p = d) ∧
      ∀ r ∈ transitions, c.Reached b r (transitions.foldl (c.addTransition b) s) := by
  obtain ⟨hext, -, hreached⟩ := foldl_grows (s := s) (Q := c.Reached b)
    (P := fun s' => c.Extends s s'
      (fun m => ∃ r ∈ transitions, ∃ d, c.Domain r d ∧ c.Enterable b r d m)
      (fun m => ∃ r ∈ transitions, ∃ d, c.Domain r d ∧ ∀ p, m ∈ c.children p → p = d))
    (l := transitions) (f := c.addTransition b)
    (fun r s s' hs hq d hd g hg => ⟨hs g (hq d hd g hg).1, fun n hgn hnd =>
      hs n ((hq d hd g hg).2 n hgn hnd)⟩)
    (fun r hr s' _ hs => by
      cases hdom : r.domain? c.toTree with
      | none =>
        rw [addTransition_of_none hdom]
        refine ⟨hs, fun _ hm => hm, fun d hd => ?_⟩
        rw [hd.domain_eq] at hdom
        exact absurd hdom (by simp)
      | some d =>
        have hd : c.Domain r d := ⟨hready.declared r hr, hdom⟩
        obtain ⟨hext, hgoals⟩ := hc.addTransition_extends hready.inside hdom
          (hd.targets_inside hc) (hready.grounded r hr) s'
        refine ⟨hs.trans (hext.mono (fun m hm => ⟨r, hr, d, hd, hm⟩)
          (fun m hm => Or.inl ⟨r, hr, d, hd, hm⟩)), hext.subset, fun e he => ?_⟩
        rw [he.unique hd]
        exact hgoals) (Extends.refl c s _ _)
  exact ⟨hext, hreached⟩

/-- What is entered may be, by one of the transitions, and has what it needs below. -/
theorem enterable_of_mem (hm : m ∈ c.entrySet b transitions) :
    (∃ r ∈ transitions, ∃ d, c.Domain r d ∧ c.Enterable b r d m) ∧
      c.Supported (c.entrySet b transitions) m := by
  obtain ⟨hext, -⟩ := foldl_addTransition_extends hc hready .empty
  exact ⟨(hext.new m hm).resolve_left (SortedSet.not_mem_empty m),
    (hext.supported m hm).resolve_left (SortedSet.not_mem_empty m)⟩

variable (hapart : transitions.Pairwise c.Apart)
include hapart

/-- Below the domain of a transition with separate goals, what is entered is exactly its descent
toward these: the other transitions, with domains beside, change nothing there. -/
theorem mem_entrySet_of_within (hr : r ∈ transitions) (hd : c.Domain r d)
    (hsep : c.Separate b r) (hm : c.Within m d) :
    m ∈ c.entrySet b transitions ↔ c.Enters (c.Goal b r) d m := by
  obtain ⟨before, after, rfl⟩ := List.append_of_mem hr
  obtain ⟨-, hcons, hbetween⟩ := List.pairwise_append.mp hapart
  have hbefore := (foldl_addTransition_extends hc (hready.of_subset fun r hr =>
    List.mem_append_left (_ :: after) hr) .empty).1
  have hafter := (foldl_addTransition_extends hc (hready.of_subset fun r hr =>
    List.mem_append_right before (List.mem_cons_of_mem _ hr))
    (c.addTransition b (before.foldl (c.addTransition b) .empty) r)).1
  -- what the others add lies within their domains, and so not within this one
  have hfresh : ∀ m ∈ before.foldl (c.addTransition b) .empty, ¬ c.Within m d := by
    intro m hm hmd
    obtain ⟨r', hr', d', hd', hent⟩ :=
      (hbefore.new m hm).resolve_left (SortedSet.not_mem_empty m)
    exact hc.not_within_both (hbetween r' hr' r List.mem_cons_self d' d hd' hd)
      hent.inside.within hmd
  have hown := hc.mem_addTransition (m := m) hready.inside hd.domain_eq
    (hd.targets_inside hc) (hready.grounded r hr) hsep hfresh
  rw [entrySet, List.foldl_append, List.foldl_cons]
  constructor
  · intro hmem
    rcases hafter.new m hmem with hmem | ⟨r', hr', d', hd', hent⟩
    · exact (hown.mp hmem).resolve_left fun hmem => hfresh m hmem hm
    · exact absurd hent.inside.within (hc.not_within_both
        (List.rel_of_pairwise_cons hcons hr' d d' hd hd') hm)
  · intro hent
    exact hafter.subset m (hown.mpr (Or.inr hent))

/-- Where the goals of each are separate, the transitions enter exactly the descent of each toward
its goals. -/
theorem mem_entrySet (hsep : ∀ r ∈ transitions, c.Separate b r) :
    m ∈ c.entrySet b transitions ↔
      ∃ r ∈ transitions, ∃ d, c.Domain r d ∧ c.Enters (c.Goal b r) d m := by
  constructor
  · intro hm
    obtain ⟨⟨r, hr, d, hd, hent⟩, -⟩ := enterable_of_mem hc hready hm
    exact ⟨r, hr, d, hd, hent.enters (hsep r hr)⟩
  · rintro ⟨r, hr, d, hd, hent⟩
    have hmd := hc.inside_of_enters (fun g hg => goal_inside_domain hc hready hd hg) hent
    exact (mem_entrySet_of_within hc hready hapart hr hd (hsep r hr) hmd.within).mpr hent

end

end Statechart.Chart
