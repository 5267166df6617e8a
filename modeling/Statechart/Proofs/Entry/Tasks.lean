/-
# Statechart.Proofs.Entry.Tasks -- entering as a list of tasks

What is entered is defined with bounds on how often history states are followed and how many levels
are gone down. Here entering is taken apart into tasks without any bound: each is taken up in its
turn, and puts in its place the tasks that it comes down to (`Chart.Works`). There is no endless
work on a list of tasks exactly if following history states never returns to one
(`Chart.WellFormed.wellFounded_works_iff`), and then the work ends with what the bounded definitions
add (`Chart.WellFormed.works_carryOut`).

A task ends if all tasks do that it can come down to (`Chart.ends_of_takeUp`). From a state that is
no history state tasks lead only further down the tree and to no history state
(`Chart.WellFormed.stateTask_of_works`), so they end whatever has been recorded; the states on the
way to a target come down to such tasks; and a history state comes down to what it stands for, which
is followed to its ends.
-/

import Statechart.Proofs.Entry.Exhausted

namespace Statechart

/-- One thing to be done when states are entered. -/
inductive EntryTask where
  /-- Add a target and what it begins with. -/
  | target (n : Nat)
  /-- Add the states between a state and one above it. -/
  | ancestors (above n : Nat)
  /-- Add a state on the way to a target. -/
  | passed (n : Nat)
  /-- Add the regions of a parallel state in which nothing is to be entered yet. -/
  | uncovered (n : Nat)
  /-- Add a region unless something in it is to be entered. -/
  | region (n : Nat)
  deriving DecidableEq

namespace Chart

/-- The tasks that a task comes down to when it is taken up, and the states to enter by then. -/
def takeUp (c : Chart) (a : Active) (s : Entering) : EntryTask → List EntryTask × Entering
  | .target n =>
    match c.kind n with
    | .history _ =>
      match c.parent? n with
      | none => ([], s)
      | some p => ((c.restored a n).map .target ++ (c.restored a n).map (.ancestors p), s)
    | .compound => ((c.initial? n).toList.map .target, s.insert n)
    | .parallel => ([.uncovered n], s.insert n)
    | .atomic | .final => ([], s.insert n)
  | .ancestors above n => (((c.ancestors n).takeWhile (fun m => m ≠ above)).map .passed, s)
  | .passed n => (if c.kind n = .parallel then [.uncovered n] else [], s.insert n)
  | .uncovered n => ((c.regions n).map .region, s)
  | .region q => (if c.isCovered s q then [] else [.target q], s)

/-- Work on a list of tasks: the first one is taken up. -/
inductive Works (c : Chart) (a : Active) :
    List EntryTask × Entering → List EntryTask × Entering → Prop
  | take (task : EntryTask) (rest : List EntryTask) (s : Entering) :
      Works c a (task :: rest, s) ((c.takeUp a s task).1 ++ rest, (c.takeUp a s task).2)

/-- The states to enter when a task has been carried out. -/
def carryOut (c : Chart) (a : Active) (s : Entering) : EntryTask → Entering
  | .target n => c.addTarget a s n
  | .ancestors above n => c.addAncestors above s n
  | .passed n => c.addPassed s n
  | .uncovered n => c.addUncovered n s
  | .region q => if c.isCovered s q then s else c.addTarget a s q

/-- The tasks that a transition is entered by. -/
def entryTasks (c : Chart) (a : Active) (r : Transition) : List EntryTask :=
  match r.domain? c.toTree with
  | none => []
  | some d => r.targets.map .target ++ (c.effectiveTargets a r).map (.ancestors d)

/-- A history state and a state it refers to: one it has recorded or else its default target. -/
def Refers (c : Chart) (a : Active) (h x : Nat) : Prop :=
  (c.kind h).isHistory = true ∧
    match a.recorded? h with
    | some states => x ∈ states
    | none => c.historyDefault? h = some x

variable {c : Chart} {a : Active} {s s' : Entering} {task : EntryTask}
  {tasks rest : List EntryTask} {x y : List EntryTask × Entering} {h k m n p q : Nat}

theorem not_works_nil : ¬ c.Works a ([], s) y := nofun

/-- What a history state refers to is what it stands for. -/
theorem Refers.mem_restored (href : c.Refers a h m) : m ∈ c.restored a h := by
  obtain ⟨-, href⟩ := href
  cases hr : a.recorded? h with
  | some states =>
    rw [hr] at href
    simp only [restored, hr]
    exact href
  | none =>
    rw [hr] at href
    simp [restored, hr, href]

/-- Otherwise it stands for what its parent begins with, which is no history state. So circles are
circles of references. -/
theorem WellFormed.acyclic_iff (hc : c.WellFormed) :
    c.Acyclic a ↔ ∀ h, ¬ Relation.TransGen (c.Refers a) h h := by
  constructor
  · intro hacyclic h hcycle
    have hsub : ∀ h x, c.Refers a h x → c.Follows a h x := fun h x hs => ⟨hs.1, hs.mem_restored⟩
    exact hacyclic h (Relation.TransGen.mono hsub h h hcycle)
  · refine acyclic_of_steps fun {h x} hs hk => ⟨hs.1, ?_⟩
    obtain ⟨p, hp⟩ := hc.exists_parent_of_history hs.1
    have hx := hs.2
    cases hr : a.recorded? h with
    | some states =>
      simp only [restored, hr] at hx
      exact hx
    | none =>
      cases hd : c.historyDefault? h with
      | some y =>
        simp only [restored, hr, hd, List.mem_singleton] at hx
        simp [hx]
      | none =>
        have hstate := (Tree.mem_regions.mp ((hc.restored_none hp hr hd).2 x hx)).2
        exact absurd (hstate.symm.trans hk) Bool.false_ne_true

/-! ## What a task comes down to -/

theorem WellFormed.takeUp_history (hc : c.WellFormed) (hk : (c.kind h).isHistory = true)
    (hp : h ∈ c.children p) : c.takeUp a s (.target h) =
      ((c.restored a h).map .target ++ (c.restored a h).map (.ancestors p), s) := by
  obtain ⟨depth, hdepth⟩ := Kind.exists_depth hk
  rw [takeUp, hdepth, hc.inOrder.parent?_child hp]

/-- A target that is no history state comes down to regions of it. -/
theorem WellFormed.of_mem_takeUp_target (hc : c.WellFormed) (hk : (c.kind n).isHistory = false)
    (ht : task ∈ (c.takeUp a s (.target n)).1) :
    (∃ q ∈ c.regions n, task = .target q) ∨ task = .uncovered n := by
  simp only [takeUp] at ht
  cases hkind : c.kind n with
  | atomic | final =>
    rw [hkind] at ht
    exact absurd ht List.not_mem_nil
  | compound =>
    obtain ⟨i, hreg, hi⟩ := hc.exists_initial hkind
    rw [hkind, hi] at ht
    exact Or.inl ⟨i, hreg, List.mem_singleton.mp ht⟩
  | parallel =>
    rw [hkind] at ht
    exact Or.inr (List.mem_singleton.mp ht)
  | history depth => simp [hkind, Kind.isHistory] at hk

theorem eq_of_mem_takeUp_passed (ht : task ∈ (c.takeUp a s (.passed n)).1) :
    task = .uncovered n := by
  simp only [takeUp] at ht
  split at ht
  · exact List.mem_singleton.mp ht
  · exact absurd ht List.not_mem_nil

theorem eq_of_mem_takeUp_region (ht : task ∈ (c.takeUp a s (.region q)).1) :
    task = .target q := by
  simp only [takeUp] at ht
  split at ht
  · exact absurd ht List.not_mem_nil
  · exact List.mem_singleton.mp ht

/-! ## Tasks that end -/

/-- Work on a task comes to an end if work on what is left to do does, whatever the states to
enter. -/
def Ends (c : Chart) (a : Active) (task : EntryTask) : Prop :=
  ∀ rest, (∀ s, Acc (fun y x => c.Works a x y) (rest, s)) →
    ∀ s, Acc (fun y x => c.Works a x y) (task :: rest, s)

theorem acc_append (htasks : ∀ t ∈ tasks, c.Ends a t)
    (hrest : ∀ s, Acc (fun y x => c.Works a x y) (rest, s)) (s : Entering) :
    Acc (fun y x => c.Works a x y) (tasks ++ rest, s) := by
  induction tasks generalizing s with
  | nil => exact hrest s
  | cons t tasks ih =>
    exact htasks t List.mem_cons_self _ (ih fun t ht => htasks t (List.mem_cons_of_mem _ ht)) s

/-- A task ends if all tasks do that it can come down to. -/
theorem ends_of_takeUp (h : ∀ s, ∀ t ∈ (c.takeUp a s task).1, c.Ends a t) : c.Ends a task := by
  intro rest hrest s
  refine Acc.intro _ fun y hy => ?_
  cases hy with
  | take => exact acc_append (h s) hrest _

theorem ends_region (hq : c.Ends a (.target q)) : c.Ends a (.region q) :=
  ends_of_takeUp fun _ _ ht => eq_of_mem_takeUp_region ht ▸ hq

theorem ends_uncovered (h : ∀ q ∈ c.regions n, c.Ends a (.target q)) :
    c.Ends a (.uncovered n) := by
  refine ends_of_takeUp fun s t ht => ?_
  obtain ⟨q, hq, rfl⟩ := List.mem_map.mp ht
  exact ends_region (h q hq)

namespace WellFormed

variable (hc : c.WellFormed)
include hc

/-- Entering a state that is no history state ends, as it leads further down the tree. -/
theorem ends_state (hk : (c.kind n).isHistory = false) : c.Ends a (.target n) := by
  -- by induction on how many states come after
  generalize hj : c.size - n = j
  induction j using Nat.strongRecOn generalizing n with
  | ind j ih =>
    have hregion : ∀ q ∈ c.regions n, c.Ends a (.target q) := by
      intro q hq
      obtain ⟨hchild, hqk⟩ := Tree.mem_regions.mp hq
      have hlt := hc.inOrder.lt_child hchild
      have hsize := hc.inOrder.child_lt_size hchild
      exact ih (c.size - q) (by omega) hqk rfl
    refine ends_of_takeUp fun s t ht => ?_
    rcases hc.of_mem_takeUp_target hk ht with ⟨q, hq, rfl⟩ | rfl
    · exact hregion q hq
    · exact ends_uncovered hregion

theorem ends_passed (n : Nat) : c.Ends a (.passed n) := by
  refine ends_of_takeUp fun s t ht => ?_
  rw [eq_of_mem_takeUp_passed ht]
  exact ends_uncovered fun q hq => hc.ends_state (Tree.mem_regions.mp hq).2

theorem ends_ancestors (above n : Nat) : c.Ends a (.ancestors above n) := by
  refine ends_of_takeUp fun s t ht => ?_
  obtain ⟨m, -, rfl⟩ := List.mem_map.mp ht
  exact hc.ends_passed m

/-- Entering a target that can be followed to its ends comes to an end. -/
theorem ends_grounded (hg : c.Grounded a k n) : c.Ends a (.target n) := by
  induction hg with
  | state hk => exact hc.ends_state hk
  | @history k h hk _ ih =>
    obtain ⟨p, hp⟩ := hc.exists_parent_of_history hk
    refine ends_of_takeUp fun s t ht => ?_
    rw [hc.takeUp_history hk hp] at ht
    rcases List.mem_append.mp ht with ht | ht
    · obtain ⟨y, hy, rfl⟩ := List.mem_map.mp ht
      exact ih y hy
    · obtain ⟨y, -, rfl⟩ := List.mem_map.mp ht
      exact hc.ends_ancestors p y

theorem ends_of_acyclic (hacyclic : c.Acyclic a) (task : EntryTask) : c.Ends a task := by
  have htarget : ∀ n, c.Ends a (.target n) := fun n =>
    hc.ends_grounded (hc.grounded_of_acyclic hacyclic n)
  cases task with
  | target n => exact htarget n
  | ancestors above n => exact hc.ends_ancestors above n
  | passed n => exact hc.ends_passed n
  | uncovered n => exact ends_uncovered fun q _ => htarget q
  | region q => exact ends_region (htarget q)

end WellFormed

/-! ## Work in circles -/

/-- Where work on some tasks ends, the tasks behind them are come to. -/
theorem exists_works_of_acc (hx : Acc (fun y x => c.Works a x y) x) (hxs : x = (tasks ++ rest, s)) :
    ∃ s', Relation.ReflTransGen (c.Works a) x (rest, s') := by
  induction hx generalizing tasks s with
  | intro x _ ih =>
    subst hxs
    cases tasks with
    | nil => exact ⟨s, .refl⟩
    | cons t tasks =>
      have htake : c.Works a (t :: (tasks ++ rest), s) _ := .take t (tasks ++ rest) s
      obtain ⟨s', hs'⟩ := ih _ htake (Prod.ext (List.append_assoc _ _ _).symm rfl)
      exact ⟨s', hs'.head htake⟩

/-- From a history state work comes to each of the states that it stands for, if it ends. -/
theorem exists_works_of_restored (hc : c.WellFormed) (hk : (c.kind h).isHistory = true)
    (hm : m ∈ c.restored a h) (hacc : Acc (fun y x => c.Works a x y) (.target h :: rest, s)) :
    ∃ rest' s', Relation.TransGen (c.Works a) (.target h :: rest, s) (.target m :: rest', s') := by
  obtain ⟨p, hp⟩ := hc.exists_parent_of_history hk
  obtain ⟨before, behind, hsplit⟩ := List.append_of_mem hm
  have htake := Works.take (c := c) (a := a) (.target h) rest s
  simp only [hc.takeUp_history hk hp, hsplit, List.map_append, List.map_cons, List.append_assoc,
    List.cons_append] at htake
  obtain ⟨s', hs'⟩ := exists_works_of_acc (hacc.inv htake) rfl
  exact ⟨_, s', .head' htake hs'⟩

/-- Where no work is endless, following history states never returns to one. -/
theorem WellFormed.acyclic_of_wellFounded (hc : c.WellFormed)
    (hwf : WellFounded fun y x => c.Works a x y) : c.Acyclic a := by
  -- work on a target in a circle would come to another one
  have key : ∀ (x : List EntryTask × Entering) h rest s, x = (.target h :: rest, s) →
      ¬ Relation.TransGen (c.Follows a) h h := by
    intro x
    induction x using hwf.transGen.induction with
    | _ x ih =>
      rintro h rest s rfl hcycle
      obtain ⟨m, hfollows, hback⟩ := Relation.TransGen.head'_iff.mp hcycle
      obtain ⟨rest', s', hworks⟩ :=
        exists_works_of_restored hc hfollows.1 hfollows.2 (hwf.apply (.target h :: rest, s))
      exact ih _ (Relation.transGen_swap.mpr hworks) m rest' s' rfl (.tail' hback hfollows)
  exact fun h => key _ h [] .empty rfl

/-- Work on tasks is never endless exactly if following history states never returns to one. -/
theorem WellFormed.wellFounded_works_iff (hc : c.WellFormed) :
    (WellFounded fun y x => c.Works a x y) ↔ c.Acyclic a := by
  refine ⟨hc.acyclic_of_wellFounded, fun hacyclic => ⟨fun x => ?_⟩⟩
  obtain ⟨tasks, s⟩ := x
  have hnone : ∀ s, Acc (fun y x => c.Works a x y) ([], s) :=
    fun s => .intro _ fun y hy => absurd hy not_works_nil
  have hacc := acc_append (fun t (_ : t ∈ tasks) => hc.ends_of_acyclic hacyclic t) hnone s
  rwa [List.append_nil] at hacc

/-! ## What work leads to -/

/-- To carry out a task is to take it up and to carry out what it comes down to. -/
theorem WellFormed.carryOut_eq (hc : c.WellFormed) (hacyclic : c.Acyclic a) (task : EntryTask)
    (s : Entering) : c.carryOut a s task =
      (c.takeUp a s task).1.foldl (c.carryOut a) (c.takeUp a s task).2 := by
  cases task with
  | target n =>
    cases hk : c.kind n with
    | history depth =>
      have hhist : (c.kind n).isHistory = true := by rw [hk]; rfl
      obtain ⟨p, hp⟩ := hc.exists_parent_of_history hhist
      simp only [hc.takeUp_history hhist hp, List.foldl_append, List.foldl_map]
      exact addTarget_history hc hacyclic hhist hp
    | atomic | final =>
      simp only [takeUp, hk, carryOut, List.foldl_nil]
      rw [addTarget_state (by rw [hk]; rfl), addDefault_leaf hc (by rw [hk]; rfl)]
    | compound =>
      obtain ⟨i, hreg, hi⟩ := hc.exists_initial hk
      simp only [takeUp, hk, hi, carryOut, Option.toList_some, List.map_cons, List.map_nil,
        List.foldl_cons, List.foldl_nil]
      rw [addTarget_state (by rw [hk]; rfl), addTarget_state (Tree.mem_regions.mp hreg).2,
        addDefault_compound hc hk hi]
    | parallel =>
      simp only [takeUp, hk, carryOut, List.foldl_cons, List.foldl_nil]
      rw [addTarget_state (by rw [hk]; rfl), addDefault_parallel hc hk]
  | ancestors above n => simp only [takeUp, carryOut, addAncestors, List.foldl_map]
  | passed n =>
    simp only [takeUp, carryOut, addPassed]
    split <;> rfl
  | uncovered n =>
    simp only [takeUp, carryOut, addUncovered, List.foldl_map]
    refine List.foldl_ext _ _ _ fun s q hq => ?_
    rw [addTarget_state (Tree.mem_regions.mp hq).2]
  | region q =>
    simp only [takeUp, carryOut]
    split <;> rfl

/-- So tasks that are worked on lead to what they add one after the other. -/
theorem WellFormed.works_carryOut (hc : c.WellFormed) (hacyclic : c.Acyclic a)
    (tasks : List EntryTask) (s : Entering) :
    Relation.ReflTransGen (c.Works a) (tasks, s) ([], tasks.foldl (c.carryOut a) s) := by
  generalize hx : (tasks, s) = x
  induction x using (hc.wellFounded_works_iff.mpr hacyclic).induction generalizing tasks s with
  | _ x ih =>
    subst hx
    cases tasks with
    | nil => exact .refl
    | cons task rest =>
      have htake : c.Works a (task :: rest, s) _ := .take task rest s
      have hrest := ih _ htake _ _ rfl
      rw [List.foldl_append, ← hc.carryOut_eq hacyclic] at hrest
      exact hrest.head htake

/-- What transitions enter is what their tasks add. -/
theorem foldl_entryTasks (transitions : List Transition) (s : Entering) :
    (transitions.flatMap (c.entryTasks a)).foldl (c.carryOut a) s =
      transitions.foldl (c.addTransition a) s := by
  induction transitions generalizing s with
  | nil => rfl
  | cons r rest ih =>
    rw [List.flatMap_cons, List.foldl_append, ih, List.foldl_cons]
    congr 1
    unfold entryTasks addTransition
    cases r.domain? c.toTree with
    | none => rfl
    | some d => simp only [List.foldl_append, List.foldl_map, carryOut]

/-! ## No history states on the way -/

/-- A task does not aim at a history state. -/
def StateTask (c : Chart) : EntryTask → Prop
  | .target n | .region n => (c.kind n).isHistory = false
  | .ancestors _ _ | .passed _ | .uncovered _ => True

/-- A task that does not aim at a history state does not come down to one that does. -/
theorem WellFormed.stateTask_of_takeUp (hc : c.WellFormed) (ht : c.StateTask task) :
    ∀ t ∈ (c.takeUp a s task).1, c.StateTask t := by
  intro t hmem
  cases task with
  | target n =>
    rcases hc.of_mem_takeUp_target ht hmem with ⟨q, hq, rfl⟩ | rfl
    · exact (Tree.mem_regions.mp hq).2
    · trivial
  | ancestors above n =>
    obtain ⟨m, -, rfl⟩ := List.mem_map.mp hmem
    trivial
  | passed n => exact eq_of_mem_takeUp_passed hmem ▸ trivial
  | uncovered n =>
    obtain ⟨q, hq, rfl⟩ := List.mem_map.mp hmem
    exact (Tree.mem_regions.mp hq).2
  | region q => exact eq_of_mem_takeUp_region hmem ▸ ht

theorem WellFormed.stateTask_of_works (hc : c.WellFormed)
    (hworks : Relation.ReflTransGen (c.Works a) x y) (hx : ∀ t ∈ x.1, c.StateTask t) :
    ∀ t ∈ y.1, c.StateTask t := by
  induction hworks with
  | refl => exact hx
  | tail _ hstep ih =>
    cases hstep with
    | take task rest s =>
      obtain ⟨htask, hrest⟩ := List.forall_mem_cons.mp ih
      intro t ht
      rcases List.mem_append.mp ht with ht | ht
      · exact hc.stateTask_of_takeUp htask t ht
      · exact hrest t ht

end Chart

/-! ## Entering comes to an end -/

namespace Machine

variable {γ : Type} {m : Machine γ}

/-- Entering comes to an end. Work on entry tasks is never endless exactly if following history
states, to what they have recorded or else to their default targets, never returns to one. Then work
on each task, from whatever states there are to enter by then, ends with what is defined to be added
for it, and so does work on the tasks of some transitions. Work on a target that is no history state
never comes to a target that is one, whatever has been recorded. -/
theorem entering_ends_iff {d : Description} {guards : Guards γ} {options : Options}
    (hm : d.compile guards options = .ok m) (a : Active) :
    ((WellFounded fun y x => m.Works a x y) ↔ ∀ h, ¬ Relation.TransGen (m.Refers a) h h) ∧
      ((∀ h, ¬ Relation.TransGen (m.Refers a) h h) →
        (∀ n s, Relation.ReflTransGen (m.Works a) ([.target n], s) ([], m.addTarget a s n)) ∧
        (∀ above n s, Relation.ReflTransGen (m.Works a)
          ([.ancestors above n], s) ([], m.addAncestors above s n)) ∧
        (∀ n s, Relation.ReflTransGen (m.Works a) ([.uncovered n], s) ([], m.addUncovered n s)) ∧
        ∀ transitions, Relation.ReflTransGen (m.Works a)
          (transitions.flatMap (m.entryTasks a), .empty) ([], m.entrySet a transitions)) ∧
      ∀ n, (m.kind n).isHistory = false → ∀ s tasks s',
        Relation.ReflTransGen (m.Works a) ([.target n], s) (tasks, s') →
        ∀ h, .target h ∈ tasks → (m.kind h).isHistory = false := by
  have hc := Description.wellFormed_of_compile hm
  refine ⟨hc.wellFounded_works_iff.trans hc.acyclic_iff, fun hrefers => ?_, ?_⟩
  · have hworks := hc.works_carryOut (hc.acyclic_iff.mpr hrefers)
    refine ⟨fun n => hworks [.target n], fun above n => hworks [.ancestors above n],
      fun n => hworks [.uncovered n], fun transitions => ?_⟩
    have hentry := hworks (transitions.flatMap (m.entryTasks a)) .empty
    rwa [Chart.foldl_entryTasks] at hentry
  · intro n hk s tasks s' hworks h hmem
    exact hc.stateTask_of_works hworks (fun t ht => List.mem_singleton.mp ht ▸ hk) (.target h) hmem

/-! ### What the player remembers -/

/-- The player is off, and some states are recorded for what it was. -/
def player.remembering (states : List Nat) : Active :=
  ⟨.ofList [0, 9], SortedMap.empty.insert 8 (.ofList states)⟩

theorem player.refers_iff {states : List Nat} {h x : Nat} :
    player.Refers (player.remembering states) h x ↔ h = 8 ∧ x ∈ states := by
  have hmemory : (player.kind 8).isHistory = true := by decide +kernel
  have hdefault : ¬ player.historyDefault? h = some x := fun hx =>
    Chart.forall_historyDefault (P := fun _ => False) (by decide +kernel) x hx
  rw [Chart.Refers, Active.recorded?, player.remembering, SortedMap.get?_insert]
  by_cases hh : h = 8
  · simp [hh, hmemory, SortedSet.mem_ofList]
  · simp [hh, hdefault]

/-- Loud and bright is entered in the end, with what lies around; but if the player remembered that
it was remembering, entering that would never be done. -/
theorem player_enters_memory :
    (∀ h, ¬ Relation.TransGen (player.Refers (player.remembering [4, 7])) h h) ∧
      Relation.ReflTransGen (player.Works (player.remembering [4, 7])) ([.target 8], .empty)
        ([], .ofList [2, 4, 5, 7]) ∧
      ¬ WellFounded fun y x => player.Works (player.remembering [8]) x y := by
  have hrefers : ∀ h, ¬ Relation.TransGen (player.Refers (player.remembering [4, 7])) h h := by
    intro h hcycle
    obtain ⟨x, hx, -⟩ := Relation.TransGen.head'_iff.mp hcycle
    obtain ⟨y, -, hy⟩ := Relation.TransGen.tail'_iff.mp hcycle
    rw [(player.refers_iff.mp hx).1] at hy
    exact absurd (player.refers_iff.mp hy).2 (by decide)
  obtain ⟨-, hends, -⟩ := entering_ends_iff compile_player (player.remembering [4, 7])
  have hadded : player.addTarget (player.remembering [4, 7]) .empty 8 = .ofList [2, 4, 5, 7] := by
    decide +kernel
  refine ⟨hrefers, hadded ▸ (hends hrefers).1 8 .empty, fun hwf => ?_⟩
  obtain ⟨hiff, -⟩ := entering_ends_iff compile_player (player.remembering [8])
  exact hiff.mp hwf 8 (.single (player.refers_iff.mpr ⟨rfl, by decide⟩))

end Machine

end Statechart
