/-
# Statechart.Proofs.Independence -- the order of transitions does not matter

Transitions that leave no state in common have domains side by side, unless there is nothing to
leave. Then each leaves, records and enters only within its own domain, so firing them together and
firing them one at a time lead to the same active states and the same records, in whatever order
(`microstep_cons`, `foldl_microstep`). Fired together in another order they also report the same
exits and entries and raise the same done events (`Machine.microstep_order`): only the actions of
the transitions themselves come in another order.
-/

import Statechart.Proofs.Chart.Intact
import Statechart.Proofs.Entry.Local
import Statechart.Proofs.Run

namespace Statechart

namespace Chart

variable {c : Chart} {a b : Active} {r : Transition} {transitions others : List Transition}
  {d e h m n p q : Nat}

/-! ## In another order -/

theorem exits_perm (hperm : others.Perm transitions) :
    c.exits a others = c.exits a transitions := by
  refine SortedSet.ext fun n => ?_
  simp only [mem_exits, hperm.mem_iff]

theorem left_perm (hperm : others.Perm transitions) :
    c.left a others = c.left a transitions := by
  rw [left, left, exits_perm hperm]

/-! ## Beside the domains -/

/-- A state lies in none of the domains of some transitions. -/
def Beside (c : Chart) (transitions : List Transition) (n : Nat) : Prop :=
  ∀ r ∈ transitions, ∀ d, c.Domain r d → ¬ c.Within n d

theorem not_mem_exits_of_beside (hdeclared : ∀ r ∈ transitions, c.Declares r)
    (hn : c.Beside transitions n) : n ∉ c.exits a transitions := by
  intro hmem
  obtain ⟨r, hr, d, hdom, -, hbelow⟩ := mem_exits.mp hmem
  exact hn r hr d ⟨hdeclared r hr, hdom⟩ hbelow.within

namespace WellFormed

variable (hc : c.WellFormed)
include hc

/-- Within a domain beside those of others nothing lies within those. -/
theorem beside_of_apart (hapart : ∀ r' ∈ transitions, c.Apart r r') (hd : c.Domain r d)
    (hn : c.Within n d) : c.Beside transitions n := by
  intro r' hr' d' hd'
  exact hc.not_within_both (hapart r' hr' d d' hd hd') hn

theorem recordsBelow_left (hrec : c.RecordsBelow a) (transitions : List Transition) :
    c.RecordsBelow (c.left a transitions) := by
  intro h states p hs hp x hx
  rcases recorded?_left_cases hc hs with hs | ⟨q, depth, -, hq, -, rfl⟩
  · exact hrec h states p hs hp x hx
  · rw [hc.inOrder.parent_unique hp hq]
    exact below_of_mem_snapshot hc hx

theorem recordsBelow_microstep (hrec : c.RecordsBelow a) (transitions : List Transition) :
    c.RecordsBelow (c.microstep a transitions).active := by
  intro h states p hs
  rw [recorded?_microstep] at hs
  exact hc.recordsBelow_left hrec transitions h states p hs

/-- Beside the domains nothing is left and nothing is entered. -/
theorem mem_microstep_of_beside (hrec : c.RecordsBelow a)
    (hdeclared : ∀ r ∈ transitions, c.Declares r) (hn : c.Beside transitions n) :
    n ∈ (c.microstep a transitions).active ↔ n ∈ a := by
  rw [mem_microstep, mem_left]
  constructor
  · rintro (⟨hna, -⟩ | hentry)
    · exact hna
    · have hleft := hc.recordsBelow_left hrec transitions
      obtain ⟨r, hr, d, hd, hin⟩ := hc.exists_domain_of_mem_entrySet hleft hdeclared hentry
      exact absurd hin.within (hn r hr d hd)
  · intro hna
    exact Or.inl ⟨hna, not_mem_exits_of_beside hdeclared hn⟩

/-- What is recorded depends only on what is active below the parent. -/
theorem snapshot_congr (hsame : ∀ n, c.Below n p → (n ∈ b ↔ n ∈ a)) (depth : HistoryDepth) :
    c.snapshot b p depth = c.snapshot a p depth := by
  refine SortedSet.ext fun n => ?_
  cases depth with
  | deep =>
    rw [mem_snapshot_deep, mem_snapshot_deep, mem_leaves, mem_leaves]
    refine and_congr_left fun hn => and_congr (hsame n hn) ?_
    refine forall₂_congr fun q hq => not_congr (hsame q ?_)
    exact hc.inOrder.below_trans (hc.inOrder.below_child hq) hn
  | shallow =>
    rw [mem_snapshot_shallow, mem_snapshot_shallow]
    refine and_congr_right fun hn => hsame n ?_
    exact hc.inOrder.below_child (Tree.region_child hn)

/-! ## One after the other -/

section

variable (hrec : c.RecordsBelow a) (hr : c.Declares r)
  (hdeclared : ∀ s ∈ transitions, c.Declares s) (hapart : ∀ s ∈ transitions, c.Apart r s)
include hrec hr hdeclared hapart

omit hdeclared in
/-- In the domains of others nothing has changed. -/
theorem mem_microstep_beside {s : Transition} (hs : s ∈ transitions) (hd : c.Domain s d)
    (hn : c.Within n d) : n ∈ (c.microstep a [r]).active ↔ n ∈ a := by
  refine hc.mem_microstep_of_beside hrec (by simpa using hr) fun r' hr' e he => ?_
  obtain rfl := List.mem_singleton.mp hr'
  exact hc.not_within_both (hapart s hs e d he hd).symm hn

/-- So others leave the same states after the one as before it. -/
theorem exits_after : c.exits (c.microstep a [r]).active transitions =
    c.exits a transitions := by
  refine SortedSet.ext fun n => ?_
  rw [mem_exits, mem_exits]
  refine exists_congr fun s => and_congr_right fun hs => exists_congr fun d =>
    and_congr_right fun hdom => and_congr_left fun hn => ?_
  exact hc.mem_microstep_beside hrec hr hapart hs ⟨hdeclared s hs, hdom⟩ hn.within

omit hr hdeclared hapart hrec hc in
theorem mem_exits_cons :
    n ∈ c.exits a (r :: transitions) ↔ n ∈ c.exits a [r] ∨ n ∈ c.exits a transitions := by
  simp [mem_exits]

/-- They find the records that they would find if all were fired together. -/
theorem recorded?_left_after : (c.left (c.microstep a [r]).active transitions).recorded? h =
    (c.left a (r :: transitions)).recorded? h := by
  cases hk : (c.kind h).isHistory with
  | false =>
    rw [recorded?_left_of_state hk, recorded?_microstep, recorded?_left_of_state hk,
      recorded?_left_of_state hk]
  | true =>
    obtain ⟨p, hp⟩ := hc.exists_parent_of_history hk
    obtain ⟨depth, hdepth⟩ := Kind.exists_depth hk
    rw [recorded?_left hc hp hdepth, recorded?_microstep, recorded?_left hc hp hdepth,
      recorded?_left hc hp hdepth, hc.exits_after hrec hr hdeclared hapart]
    by_cases hlater : p ∈ c.exits a transitions
    · -- what is below the parent has not been touched by the first one
      obtain ⟨s, hs, d, hdom, -, hpd⟩ := mem_exits.mp hlater
      have hsame : ∀ n, c.Below n p → (n ∈ (c.microstep a [r]).active ↔ n ∈ a) := by
        intro n hn
        have hnd := hc.inOrder.below_trans hn hpd
        exact hc.mem_microstep_beside hrec hr hapart hs ⟨hdeclared s hs, hdom⟩
          hnd.within
      rw [if_pos hlater, if_pos (mem_exits_cons.mpr (Or.inr hlater)),
        hc.snapshot_congr hsame depth]
    · rw [if_neg hlater]
      refine if_congr ?_ rfl rfl
      exact (or_iff_left hlater).symm.trans mem_exits_cons.symm

/-- The one enters what it would enter with the others. -/
theorem addTransition_alone : c.addTransition (c.left a [r]) .empty r =
    c.addTransition (c.left a (r :: transitions)) .empty r := by
  cases hdom : r.domain? c.toTree with
  | none => rw [addTransition_of_none hdom, addTransition_of_none hdom]
  | some d =>
    refine hc.addTransition_congr (hc.recordsBelow_left hrec [r]) ⟨hr, hdom⟩
      (fun h hk hin => ?_) .empty
    obtain ⟨p, hp⟩ := hc.exists_parent_of_history hk
    obtain ⟨depth, hdepth⟩ := Kind.exists_depth hk
    rw [recorded?_left hc hp hdepth, recorded?_left hc hp hdepth]
    refine if_congr ?_ rfl rfl
    -- the parent lies within the domain of the one, and so none of the others leaves it
    have hpd := hc.parent_within_of_inside hin hp
    have hbeside := hc.beside_of_apart hapart ⟨hr, hdom⟩ hpd
    have hnot : p ∉ c.exits a transitions := not_mem_exits_of_beside hdeclared hbeside
    exact (or_iff_left hnot).symm.trans mem_exits_cons.symm

/-- So do the others. -/
theorem addTransition_after {s : Transition} (hs : s ∈ transitions) :
    c.addTransition (c.left (c.microstep a [r]).active transitions) .empty s =
      c.addTransition (c.left a (r :: transitions)) .empty s := by
  have hafter := hc.recordsBelow_left (hc.recordsBelow_microstep hrec [r]) transitions
  cases hdom : s.domain? c.toTree with
  | none => rw [addTransition_of_none hdom, addTransition_of_none hdom]
  | some d =>
    refine hc.addTransition_congr hafter ⟨hdeclared s hs, hdom⟩ (fun h _ _ => ?_) .empty
    exact hc.recorded?_left_after hrec hr hdeclared hapart

/-- Firing one transition and then others whose domains lie beside its own leads to where firing
them together does. -/
theorem microstep_cons (hothers : transitions.Pairwise c.Apart) :
    (c.microstep (c.microstep a [r]).active transitions).active =
      (c.microstep a (r :: transitions)).active := by
  have hall : ∀ s ∈ r :: transitions, c.Declares s := List.forall_mem_cons.mpr ⟨hr, hdeclared⟩
  have hall' : (r :: transitions).Pairwise c.Apart := List.pairwise_cons.mpr ⟨hapart, hothers⟩
  have hafter := hc.recordsBelow_left (hc.recordsBelow_microstep hrec [r]) transitions
  have htogether := hc.recordsBelow_left hrec (r :: transitions)
  have hlater : ∀ n, (∃ s ∈ transitions,
      n ∈ c.addTransition (c.left (c.microstep a [r]).active transitions) .empty s) ↔
        ∃ s ∈ transitions, n ∈ c.addTransition (c.left a (r :: transitions)) .empty s := by
    intro n
    refine exists_congr fun s => and_congr_right fun hs => ?_
    rw [hc.addTransition_after hrec hr hdeclared hapart hs]
  -- what the one enters is not left by the others
  have hstays : ∀ n ∈ c.addTransition (c.left a [r]) .empty r, n ∉ c.exits a transitions := by
    intro n hn
    obtain ⟨d, hd, hin⟩ := hc.exists_domain_of_mem (hc.recordsBelow_left hrec [r]) hr hn
    exact not_mem_exits_of_beside hdeclared (hc.beside_of_apart hapart hd hin.within)
  refine Active.ext (fun n => ?_) fun h => ?_
  · have hone : n ∈ (c.microstep a [r]).active ↔
        (n ∈ a ∧ n ∉ c.exits a [r]) ∨ n ∈ c.addTransition (c.left a [r]) .empty r := by
      rw [mem_microstep, mem_left]
      rfl
    have hexits : n ∈ c.exits a (r :: transitions) ↔
        n ∈ c.exits a [r] ∨ n ∈ c.exits a transitions := mem_exits_cons
    rw [mem_microstep, mem_microstep, mem_left, mem_left, hone,
      hc.exits_after hrec hr hdeclared hapart, hc.mem_entrySet_iff_alone hafter hdeclared hothers,
      hc.mem_entrySet_iff_alone htogether hall hall', hlater, hexits,
      List.exists_mem_cons_iff, ← hc.addTransition_alone hrec hr hdeclared hapart]
    constructor
    · rintro (⟨⟨hna, hfirst⟩ | hentered, hnot⟩ | hentered)
      · exact Or.inl ⟨hna, not_or.mpr ⟨hfirst, hnot⟩⟩
      · exact Or.inr (Or.inl hentered)
      · exact Or.inr (Or.inr hentered)
    · rintro (⟨hna, hnot⟩ | hentered | hentered)
      · obtain ⟨hfirst, hlater⟩ := not_or.mp hnot
        exact Or.inl ⟨Or.inl ⟨hna, hfirst⟩, hlater⟩
      · exact Or.inl ⟨Or.inr hentered, hstays n hentered⟩
      · exact Or.inr hentered
  · rw [recorded?_microstep, recorded?_microstep]
    exact hc.recorded?_left_after hrec hr hdeclared hapart

end

/-- Firing transitions with domains side by side one at a time leads to where firing them together
does. -/
theorem foldl_microstep (hrec : c.RecordsBelow a) (hdeclared : ∀ r ∈ transitions, c.Declares r)
    (hapart : transitions.Pairwise c.Apart) :
    transitions.foldl (fun b r => (c.microstep b [r]).active) a =
      (c.microstep a transitions).active := by
  induction transitions generalizing a with
  | nil =>
    refine Active.ext (fun n => ?_) fun h => ?_
    · simp [mem_microstep, mem_exits, entrySet]
    · rw [recorded?_microstep]
      rfl
  | cons r l ih =>
    obtain ⟨hr, hl⟩ := List.forall_mem_cons.mp hdeclared
    obtain ⟨hapart, hothers⟩ := List.pairwise_cons.mp hapart
    rw [List.foldl_cons, ih (hc.recordsBelow_microstep hrec [r]) hl hothers]
    exact hc.microstep_cons hrec hr hl hapart hothers

/-- What is entered does not depend on the order either. -/
theorem entered_perm (hrec : c.RecordsBelow a) (hdeclared : ∀ r ∈ transitions, c.Declares r)
    (hapart : transitions.Pairwise c.Apart) (hperm : others.Perm transitions) :
    c.entered a others = c.entered a transitions := by
  have hleft := hc.recordsBelow_left hrec transitions
  have hdeclared' : ∀ r ∈ others, c.Declares r := fun r hr => hdeclared r (hperm.mem_iff.mp hr)
  have hapart' : others.Pairwise c.Apart := (hperm.pairwise_iff Apart.symm).mpr hapart
  refine SortedSet.ext fun n => ?_
  rw [mem_entered, mem_entered, left_perm hperm, hc.mem_entrySet_iff_alone hleft hdeclared' hapart',
    hc.mem_entrySet_iff_alone hleft hdeclared hapart]
  simp only [hperm.mem_iff]

/-! ## Nothing but the root -/

section

variable (honly : ∀ n < c.size, n = Tree.root)
include honly

/-- A root without children is never left. -/
theorem exits_of_only : c.exits a transitions = .empty := by
  refine SortedSet.ext fun n => iff_of_false (fun hn => ?_) (SortedSet.not_mem_empty n)
  obtain ⟨r, -, d, -, -, hbelow⟩ := mem_exits.mp hn
  rw [honly n hbelow.lt_size] at hbelow
  exact hc.inOrder.not_below_root hbelow

theorem left_of_only : c.left a transitions = a := by
  refine Active.ext (fun n => ?_) fun h => ?_
  · rw [mem_left, hc.exits_of_only honly]
    simp
  · rw [left, hc.exits_of_only honly]
    rfl

/-- Neither is it entered. -/
theorem entered_of_only (hrec : c.RecordsBelow a) (hdeclared : ∀ r ∈ transitions, c.Declares r)
    (hroot : Tree.root ∈ a) : c.entered a transitions = .empty := by
  refine SortedSet.ext fun n => iff_of_false (fun hn => ?_) (SortedSet.not_mem_empty n)
  obtain ⟨hentry, hnot⟩ := mem_entered.mp hn
  rw [hc.left_of_only honly] at hentry hnot
  obtain ⟨r, -, d, -, hin⟩ := hc.exists_domain_of_mem_entrySet hrec hdeclared hentry
  rw [honly n (hc.lt_size_of_inside hin)] at hnot
  exact hnot hroot

theorem microstep_of_only (hrec : c.RecordsBelow a) (hdeclared : ∀ r ∈ transitions, c.Declares r)
    (hroot : Tree.root ∈ a) : (c.microstep a transitions).active = a := by
  rw [microstep_eq, hc.left_of_only honly, hc.entered_of_only honly hrec hdeclared hroot]
  rfl

theorem foldl_microstep_of_only (hrec : c.RecordsBelow a)
    (hdeclared : ∀ r ∈ transitions, c.Declares r) (hroot : Tree.root ∈ a) :
    transitions.foldl (fun b r => (c.microstep b [r]).active) a = a := by
  induction transitions with
  | nil => rfl
  | cons r l ih =>
    obtain ⟨hr, hl⟩ := List.forall_mem_cons.mp hdeclared
    rw [List.foldl_cons, hc.microstep_of_only honly hrec (by simpa using hr) hroot]
    exact ih hl

end

/-- If nothing but the root is active in a legal set, there is nothing else. -/
theorem only_of_legal (ha : c.Legal a) (halone : ∀ n ∈ a, n = Tree.root) :
    ∀ n < c.size, n = Tree.root := by
  have hsound := ha.sound hc
  have hno : ¬ (c.kind Tree.root = .compound ∨ c.kind Tree.root = .parallel) := by
    intro hk
    obtain ⟨q, hq, hqa⟩ := hsound.exists_region ha.root_mem hk
    rw [halone q hqa] at hq
    exact hc.inOrder.not_root_child (Tree.region_child hq)
  rw [not_or] at hno
  intro n hn
  by_contra hne
  obtain ⟨q, hq, -⟩ := hc.inOrder.exists_child_within (hc.inOrder.below_root hn hne)
  rw [hc.children_eq_nil hno.1 hno.2] at hq
  exact List.not_mem_nil hq

end WellFormed

end Chart

namespace Machine

variable {γ : Type} {m : Machine γ} {a : Active} {transitions others : List Transition}

/-- In a sound set, transitions on active states that leave no state in common have domains side by
side, or else nothing but the root is active. -/
theorem apart_of_disjoint (hc : m.WellFormed) (ha : m.Sound a)
    (hsource : ∀ r ∈ transitions, r.source ∈ a)
    (hdisjoint : transitions.Pairwise (fun r s => ¬ m.Conflict a r s)) :
    transitions.Pairwise m.Apart ∨ ∀ n ∈ a, n = Tree.root := by
  refine or_iff_not_imp_right.mpr fun halone => hdisjoint.imp_of_mem fun {r s} hr hs hrs => ?_
  apply Chart.apart_of_exits hc
  · exact fun n hnr hns => hrs ⟨n, hnr, hns⟩
  · exact fun d hd => (exists_below_domain hc ha hd (hsource r hr)).resolve_right halone
  · exact fun d hd => (exists_below_domain hc ha hd (hsource s hs)).resolve_right halone

/-- The order of transitions does not matter for what they lead to. From a legal set with records
below the parents of their history states, transitions on active states that leave no state in
common lead to the same active states and the same records when they are fired together, fired
together in another order, and fired one at a time. Fired together they report the same exit
actions, then their own actions in their order, then the same entry actions, and raise the same
done events. -/
theorem microstep_order {d : Description} {guards : Guards γ} {options : Options}
    (hm : d.compile guards options = .ok m) (ha : m.Legal a) (hrec : m.RecordsBelow a)
    (hdeclared : ∀ r ∈ transitions, m.Declares r) (hsource : ∀ r ∈ transitions, r.source ∈ a)
    (hdisjoint : transitions.Pairwise (fun r s => ¬ m.Conflict a r s))
    (hperm : others.Perm transitions) :
    (m.microstep a others).active = (m.microstep a transitions).active ∧
      others.foldl (fun b r => (m.microstep b [r]).active) a =
        (m.microstep a transitions).active ∧
      (m.microstep a others).raised = (m.microstep a transitions).raised ∧
      (m.microstep a others).actions =
        (m.exits a transitions).toList.reverse.flatMap m.exitActions ++
          others.flatMap Transition.actions ++
          (m.entered a transitions).toList.flatMap m.entryActions := by
  have hc := Description.wellFormed_of_compile hm
  have hdeclared' : ∀ r ∈ others, m.Declares r := fun r hr => hdeclared r (hperm.mem_iff.mp hr)
  obtain ⟨hentered, hsteps⟩ : m.entered a others = m.entered a transitions ∧
      others.foldl (fun b r => (m.microstep b [r]).active) a = (m.microstep a others).active := by
    rcases apart_of_disjoint hc (ha.sound hc) hsource hdisjoint with hapart | halone
    · have hapart' : others.Pairwise m.Apart :=
        (hperm.pairwise_iff Chart.Apart.symm).mpr hapart
      exact ⟨hc.entered_perm hrec hdeclared hapart hperm,
        hc.foldl_microstep hrec hdeclared' hapart'⟩
    · have honly := hc.only_of_legal ha halone
      rw [hc.entered_of_only honly hrec hdeclared ha.root_mem,
        hc.entered_of_only honly hrec hdeclared' ha.root_mem,
        hc.foldl_microstep_of_only honly hrec hdeclared' ha.root_mem,
        hc.microstep_of_only honly hrec hdeclared' ha.root_mem]
      exact ⟨rfl, rfl⟩
  have hothers : m.microstep a others =
      { m.enterAll (m.left a transitions) [] (m.entered a transitions) with
        actions := (m.exits a transitions).toList.reverse.flatMap m.exitActions ++
          others.flatMap Transition.actions ++
          (m.entered a transitions).toList.flatMap m.entryActions } := by
    rw [Chart.microstep_eq, Chart.exits_perm hperm, Chart.left_perm hperm, hentered]
  rw [hsteps, hothers, Chart.microstep_eq]
  exact ⟨rfl, rfl, rfl, rfl⟩

/-- In the lift the doors close while the cabin arrives. -/
def lift.closeAndArrive : List Transition :=
  [⟨5, "GO", 0, [4], none, none, [], false⟩, ⟨9, "HALT", 0, [10], none, none, [], false⟩]

/-- A ride of the lift with the doors open, as they were when the last ride was stopped. -/
def lift.riding : Active :=
  ⟨.ofList [0, 2, 3, 5, 7, 9], SortedMap.empty.insert 6 (.ofList [5])⟩

theorem lift.resolve_riding : Active.resolve lift.toTree true
    ⟨.ofList ["lift.going.doors.open", "lift.going.cabin.fast"],
      SortedMap.empty.insert "lift.going.doors.before" (.ofList ["lift.going.doors.open"])⟩ =
    .ok lift.riding := by decide +kernel

theorem lift_order :
    (lift.microstep lift.riding lift.closeAndArrive).active.states = .ofList [0, 2, 3, 4, 7, 10] ∧
    lift.closeAndArrive.reverse.foldl (fun b r => (lift.microstep b [r]).active) lift.riding =
      (lift.microstep lift.riding lift.closeAndArrive).active ∧
    (lift.microstep lift.riding lift.closeAndArrive.reverse).raised =
      [.named (Event.doneName "lift.going.cabin")] := by
  have hc := Description.wellFormed_of_compile compile_lift
  have hdeclared : ∀ r ∈ lift.closeAndArrive, lift.Declares r := by decide +kernel
  obtain ⟨-, hsteps, hraised, -⟩ := microstep_order compile_lift
    (hc.legal_of_resolve lift.resolve_riding) (hc.recordsBelow_of_resolve lift.resolve_riding)
    hdeclared (by decide +kernel) (by decide +kernel) (List.reverse_perm lift.closeAndArrive)
  refine ⟨by decide +kernel, hsteps, hraised.trans ?_⟩
  decide +kernel

end Machine

end Statechart
