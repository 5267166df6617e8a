/-
# Statechart.Proofs.Step.Raised -- which done events a step raises

States are entered in document order, and each final state raises its events when what comes before
it has been entered and what comes after has not (`raised_enterAll`). It always raises the event of
its parent; so the event of a parallel state without final children is raised by grandchildren only,
once by each that is entered when the state has completed (`count_doneEvents`).
-/

import Statechart.Proofs.Active.Complete
import Statechart.Proofs.Lists
import Statechart.Proofs.Step.Preservation

namespace Statechart

/-- What is active when a state has just been entered: what was before, and of the states that are
entered those up to it. -/
def Active.upTo (b : Active) (states : List Nat) (n : Nat) : Active :=
  { b with states := b.states.insertAll (states.filter (fun m => decide (m ≤ n))) }

@[simp] theorem Active.mem_upTo {b : Active} {states : List Nat} {m n : Nat} :
    m ∈ b.upTo states n ↔ m ∈ b ∨ m ∈ states ∧ m ≤ n := by
  rw [Active.mem_iff, Active.upTo, SortedSet.mem_insertAll, List.mem_filter, decide_eq_true_eq,
    or_comm]
  rfl

namespace Chart

variable {c : Chart} {a b : Active} {actions : List Action} {states : Entering} {e : Event}
  {m n p q : Nat}

/-! ## One state after the other -/

theorem raised_foldl {l : List Nat} {s : Stepped} (hl : l.Pairwise (· < ·))
    (hfresh : ∀ n ∈ l, n ∉ s.active) : (l.foldl c.enter s).raised =
      s.raised ++ l.flatMap (fun n => c.doneEvents (s.active.upTo l n) n) := by
  induction l generalizing s with
  | nil => simp
  | cons m l ih =>
    obtain ⟨hm, hl⟩ := List.pairwise_cons.mp hl
    have hstep : c.enter s m = ⟨s.active.insert m, s.actions ++ c.entryActions m,
        s.raised ++ c.doneEvents (s.active.insert m) m⟩ := if_neg (hfresh m List.mem_cons_self)
    have hrest : ∀ n ∈ l, n ∉ (c.enter s m).active := by
      intro n hn hmem
      rw [hstep] at hmem
      rcases SortedSet.mem_insert.mp hmem with rfl | hmem
      · exact absurd (hm n hn) (Nat.lt_irrefl n)
      · exact hfresh n (List.mem_cons_of_mem m hn) hmem
    -- the first state is entered alone, and is active when the others are
    have hfirst : s.active.upTo (m :: l) m = s.active.insert m := by
      have hnone : l.filter (fun n => decide (n ≤ m)) = [] := by
        rw [List.filter_eq_nil_iff]
        intro n hn
        simpa using hm n hn
      rw [Active.upTo, List.filter_cons_of_pos (by simp), hnone]
      rfl
    have hothers : ∀ n ∈ l, s.active.upTo (m :: l) n = (s.active.insert m).upTo l n := by
      intro n hn
      rw [Active.upTo, List.filter_cons_of_pos (by simpa using Nat.le_of_lt (hm n hn))]
      rfl
    rw [List.foldl_cons, ih hl hrest, hstep, List.flatMap_cons, hfirst, List.append_assoc]
    congr 2
    exact List.flatMap_congr fun n hn => by rw [hothers n hn]

/-- Entering new states raises what each of them does when it has just been entered. -/
theorem raised_enterAll (hfresh : ∀ n ∈ states, n ∉ b) : (c.enterAll b actions states).raised =
    states.toList.flatMap (fun n => c.doneEvents (b.upTo states.toList n) n) :=
  raised_foldl states.ascending hfresh

theorem mem_enterAll : n ∈ (c.enterAll b actions states).active ↔ n ∈ b ∨ n ∈ states :=
  enterAll_spec.1 n

/-! ## What each raises -/

/-- The event that reports the completion of a state. -/
def doneEvent (c : Chart) (n : Nat) : Event := .named (Event.doneName (c.id n))

section

variable (hc : c.WellFormed)
include hc

/-- States have done events of their own. -/
theorem doneEvent_inj (hm : m < c.size) (hn : n < c.size)
    (h : c.doneEvent m = c.doneEvent n) : m = n := by
  have hid : c.id m = c.id n :=
    (String.append_right_inj Event.donePrefix).mp (congrArg Event.name h)
  have hlookup := hc.lookup?_id hm
  rw [hid, hc.lookup?_id hn] at hlookup
  exact (Option.some.inj hlookup).symm

/-- A final state raises the event of its parent, and that of a parallel state around this if it has
completed. -/
theorem doneEvents_final (hk : c.kind n = .final) (hp : n ∈ c.children p) (b : Active) :
    c.doneEvents b n = c.doneEvent p :: (match c.parent? p with
      | some g => if c.kind g = .parallel ∧ b.isComplete c.toTree g = true then [c.doneEvent g]
        else []
      | none => []) := by
  have hancestors := hc.inOrder.ancestors_child hp
  rw [doneEvents, hk, hancestors]
  cases hg : c.parent? p with
  | none =>
    have hnone : c.ancestors p = [] := by rw [hc.inOrder.ancestors_eq, hg]
    rw [hnone]
    rfl
  | some g =>
    have hgp := hc.inOrder.ancestors_child (hc.inOrder.parent?_eq_some.mp hg)
    rw [hgp]
    have hcomplete : (decide (c.kind g = .parallel) &&
        (c.regions g).all (fun r => b.isComplete c.toTree r)) = true ↔
        c.kind g = .parallel ∧ b.isComplete c.toTree g = true := by
      rw [Bool.and_eq_true, decide_eq_true_eq]
      refine and_congr_right fun hkg => ?_
      rw [Active.isComplete_eq hc.inOrder g, hkg]
    show _ :: (if _ then _ else _) = _
    rw [if_congr hcomplete rfl rfl]
    rfl

/-- Only final states raise events, and not the root. -/
theorem exists_parent_of_mem_doneEvents (he : e ∈ c.doneEvents b n) :
    c.kind n = .final ∧ ∃ p, n ∈ c.children p := by
  cases hk : c.kind n with
  | final =>
    refine ⟨rfl, hc.inOrder.exists_parent ?_ ?_⟩
    · rintro rfl
      rw [doneEvents, hk, hc.inOrder.ancestors_root] at he
      exact List.not_mem_nil he
    · by_contra hn
      rw [Tree.kind, Tree.place_of_size_le (Nat.le_of_not_lt hn)] at hk
      cases hk
  | atomic | compound | parallel | history =>
    rw [doneEvents, hk] at he
    exact absurd he List.not_mem_nil

/-- The event of a parallel state without final children is raised by a final state below one of its
regions, if the state has completed by then. -/
theorem count_doneEvents (hk : c.kind p = .parallel) (hnot : ∀ q ∈ c.children p, c.kind q ≠ .final)
    (b : Active) : (c.doneEvents b n).count (c.doneEvent p) =
      if c.kind n = .final ∧ (∃ q ∈ c.children p, n ∈ c.children q) ∧
        b.isComplete c.toTree p = true then 1 else 0 := by
  have hsize : ∀ {g}, c.kind g = .parallel → g < c.size := by
    intro g hg
    by_contra hn
    rw [Tree.kind, Tree.place_of_size_le (Nat.le_of_not_lt hn)] at hg
    cases hg
  by_cases hraises : c.kind n = .final ∧ ∃ q, n ∈ c.children q
  · obtain ⟨hkn, q, hq⟩ := hraises
    have hqp : c.doneEvent q ≠ c.doneEvent p := fun heq =>
      hnot n (doneEvent_inj hc (Tree.lt_size_of_child hq) (hsize hk) heq ▸ hq) hkn
    rw [doneEvents_final hc hkn hq, List.count_cons_of_ne hqp]
    cases hg : c.parent? q with
    | none =>
      refine (if_neg ?_).symm
      rintro ⟨-, ⟨q', hq', hn⟩, -⟩
      rw [hc.inOrder.parent_unique hn hq, ← hc.inOrder.parent?_eq_some, hg] at hq'
      cases hq'
    | some g =>
      have hqg := hc.inOrder.parent?_eq_some.mp hg
      -- its grandparent is the parallel state, or else raises an event of its own
      have hbelow : (∃ q' ∈ c.children p, n ∈ c.children q') ↔ g = p := by
        constructor
        · rintro ⟨q', hq', hn⟩
          rw [hc.inOrder.parent_unique hn hq] at hq'
          exact hc.inOrder.parent_unique hqg hq'
        · rintro rfl
          exact ⟨q, hqg, hq⟩
      rw [if_congr (and_congr_right' (and_congr_left' hbelow)) rfl rfl]
      by_cases hraise : c.kind g = .parallel ∧ b.isComplete c.toTree g = true
      · have heq : c.doneEvent g = c.doneEvent p ↔ g = p :=
          ⟨doneEvent_inj hc (hsize hraise.1) (hsize hk), fun h => h ▸ rfl⟩
        by_cases hgp : g = p
        · subst hgp
          simp [hraise, hkn]
        · simp [hraise, hgp, heq]
      · simp only [if_neg hraise, List.count_nil]
        refine (if_neg ?_).symm
        rintro ⟨-, rfl, hcomplete⟩
        exact hraise ⟨hk, hcomplete⟩
  · rw [if_neg fun h => hraises ⟨h.1, h.2.1.imp fun _ hq => hq.2⟩, List.count_eq_zero]
    exact fun hmem => hraises (exists_parent_of_mem_doneEvents hc hmem)

end

end Chart

end Statechart
