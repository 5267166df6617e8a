/-
# Statechart.Proofs.Visits -- entry and exit actions bracket what is active

When every state tells by its entry action that it is entered and by its exit action that it is
left, the actions that calls report tell what is active. `Chart.Visits` says how: a state is entered
while it is not active and the state around it is, and left while it is active and nothing right
below it is. Each microstep goes on in this way (`Visits.microstep`), so whole histories of calls
do: the entries and exits of each state alternate, and each stay in a state lies within one in the
state around it (`Machine.visits_alternate`).
-/

import Statechart.Proofs.Call
import Statechart.Proofs.Chart.Intact

namespace Statechart

/-! ## Histories of visits -/

/-- A state is entered or left. -/
inductive Visit where
  | entry (n : Nat)
  | exit (n : Nat)
  deriving DecidableEq

namespace Visit

/-- The state that is entered or left. -/
def state : Visit → Nat
  | entry n | exit n => n

/-- The visits of one state. -/
def visitsOf (n : Nat) (visits : List Visit) : List Visit :=
  visits.filter (fun v => decide (v.state = n))

/-- A state has been entered and not left again. -/
def IsOpen (visits : List Visit) (n : Nat) : Prop := (visitsOf n visits).getLast? = some (.entry n)

/-- Entries and exits of a state in turn, so many times, and at last an entry if it is in. -/
def turns (n times : Nat) (isIn : Bool) : List Visit :=
  (List.replicate times [.entry n, .exit n]).flatten ++ if isIn then [.entry n] else []

theorem turns_concat_entry (n times : Nat) :
    turns n times false ++ [.entry n] = turns n times true := by
  simp [turns]

theorem turns_concat_exit (n times : Nat) :
    turns n times true ++ [.exit n] = turns n (times + 1) false := by
  simp [turns, List.replicate_succ']

theorem getLast?_turns (n times : Nat) (isIn : Bool) :
    (turns n times isIn).getLast? = some (.entry n) ↔ isIn = true := by
  cases isIn with
  | true => simp [turns]
  | false =>
    cases times with
    | zero => simp [turns]
    | succ times => simp [turns, List.replicate_succ']

theorem visitsOf_concat (n : Nat) (visits : List Visit) (v : Visit) :
    visitsOf n (visits ++ [v]) = visitsOf n visits ++ if v.state = n then [v] else [] := by
  rw [visitsOf, List.filter_append]
  by_cases h : v.state = n <;> simp [visitsOf, h]

end Visit

namespace Chart

open Visit

/-- Histories of visits that begin with nothing active, each with what is active in the end. -/
inductive Visits (c : Chart) : List Visit → SortedSet Nat → Prop
  | nil : Visits c [] .empty
  | enter {visits : List Visit} {s : SortedSet Nat} {n : Nat} : Visits c visits s → n ∉ s →
      (∀ p, n ∈ c.children p → p ∈ s) → Visits c (visits ++ [.entry n]) (s.insert n)
  | leave {visits : List Visit} {s : SortedSet Nat} {n : Nat} : Visits c visits s → n ∈ s →
      (∀ q ∈ c.children n, q ∉ s) → Visits c (visits ++ [.exit n]) (s.erase n)

variable {c : Chart} {a : Active} {visits earlier : List Visit} {s t : SortedSet Nat}
  {transitions : List Transition} {mark : Action → Option Visit} {n p q : Nat}

namespace Visits

/-- Every earlier history is one as well. -/
theorem of_prefix (h : c.Visits visits s) (hpre : earlier <+: visits) :
    ∃ t, c.Visits earlier t := by
  induction h with
  | nil =>
    rw [List.prefix_nil] at hpre
    exact ⟨.empty, hpre ▸ .nil⟩
  | @enter visits s n hv hn hp ih =>
    rcases List.prefix_concat_iff.mp hpre with rfl | hpre
    · exact ⟨_, .enter hv hn hp⟩
    · exact ih hpre
  | @leave visits s n hv hn hq ih =>
    rcases List.prefix_concat_iff.mp hpre with rfl | hpre
    · exact ⟨_, .leave hv hn hq⟩
    · exact ih hpre

/-- With a state there is always the one around it. -/
theorem parent_mem (h : c.Visits visits s) (hn : n ∈ s) (hp : n ∈ c.children p) : p ∈ s := by
  induction h with
  | nil => exact absurd hn (SortedSet.not_mem_empty n)
  | @enter visits s m _ _ hparent ih =>
    rw [SortedSet.mem_insert] at hn ⊢
    rcases hn with rfl | hn
    · exact Or.inr (hparent p hp)
    · exact Or.inr (ih hn)
  | @leave visits s m _ _ hchildren ih =>
    rw [SortedSet.mem_erase] at hn ⊢
    refine ⟨ih hn.1, ?_⟩
    rintro rfl
    exact hchildren n hp hn.1

/-- The visits of each state alternate, and tell whether it is active. -/
theorem exists_turns (h : c.Visits visits s) (n : Nat) :
    ∃ times, visitsOf n visits = turns n times (decide (n ∈ s)) := by
  induction h with
  | nil => exact ⟨0, rfl⟩
  | @enter visits s m _ hm _ ih =>
    obtain ⟨times, htimes⟩ := ih
    rw [visitsOf_concat, htimes]
    by_cases hmn : m = n
    · subst hmn
      refine ⟨times, ?_⟩
      simp only [hm, decide_false, state, if_true, SortedSet.mem_insert, true_or, decide_true]
      exact turns_concat_entry m times
    · refine ⟨times, ?_⟩
      simp [state, hmn, Ne.symm hmn]
  | @leave visits s m _ hm _ ih =>
    obtain ⟨times, htimes⟩ := ih
    rw [visitsOf_concat, htimes]
    by_cases hmn : m = n
    · subst hmn
      refine ⟨times + 1, ?_⟩
      simp only [hm, decide_true, state, if_true, SortedSet.mem_erase, ne_eq, not_true_eq_false,
        and_false, decide_false]
      exact turns_concat_exit m times
    · refine ⟨times, ?_⟩
      simp [state, hmn, Ne.symm hmn]

/-- The states that have been entered and not left again are those that are active. -/
theorem isOpen_iff (h : c.Visits visits s) : Visit.IsOpen visits n ↔ n ∈ s := by
  obtain ⟨times, htimes⟩ := h.exists_turns n
  rw [Visit.IsOpen, htimes, getLast?_turns, decide_eq_true_eq]

/-! ## Several visits at once -/

/-- Some states are left from the inside outwards, each with all that is active right below it. -/
theorem leaveAll (hc : c.WellFormed) {states : List Nat} (h : c.Visits visits s)
    (hdescending : states.Pairwise (fun m n => n < m)) (hmem : ∀ n ∈ states, n ∈ s)
    (hchildren : ∀ n ∈ states, ∀ q ∈ c.children n, q ∈ s → q ∈ states)
    (ht : ∀ n, n ∈ t ↔ n ∈ s ∧ n ∉ states) : c.Visits (visits ++ states.map .exit) t := by
  induction states generalizing visits s with
  | nil =>
    have heq : t = s := SortedSet.ext fun n => by simp [ht]
    simpa [heq] using h
  | cons m states ih =>
    obtain ⟨hm, hrest⟩ := List.pairwise_cons.mp hdescending
    -- whatever lies below the first state has a greater number than all of them
    have hleave : c.Visits (visits ++ [.exit m]) (s.erase m) := by
      refine h.leave (hmem m List.mem_cons_self) fun q hq hqs => ?_
      have hlt := hc.inOrder.lt_child hq
      rcases List.mem_cons.mp (hchildren m List.mem_cons_self q hq hqs) with rfl | hqm
      · omega
      · have := hm q hqm
        omega
    rw [List.map_cons, List.append_cons]
    refine ih hleave hrest ?_ ?_ ?_
    · intro n hn
      have hne : n ≠ m := Nat.ne_of_lt (hm n hn)
      exact SortedSet.mem_erase.mpr ⟨hmem n (List.mem_cons_of_mem m hn), hne⟩
    · intro n hn q hq hqs
      rw [SortedSet.mem_erase] at hqs
      have hqm := hchildren n (List.mem_cons_of_mem m hn) q hq hqs.1
      exact (List.mem_cons.mp hqm).resolve_left hqs.2
    · intro n
      rw [ht, SortedSet.mem_erase, List.mem_cons, not_or, and_assoc]

/-- Some states are entered from the outside inwards, each into one that is active or entered
too. -/
theorem enterAll (hc : c.WellFormed) {states : List Nat} (h : c.Visits visits s)
    (hascending : states.Pairwise (fun m n => m < n)) (hfresh : ∀ n ∈ states, n ∉ s)
    (hparent : ∀ n ∈ states, ∀ p, n ∈ c.children p → p ∈ s ∨ p ∈ states)
    (ht : ∀ n, n ∈ t ↔ n ∈ s ∨ n ∈ states) : c.Visits (visits ++ states.map .entry) t := by
  induction states generalizing visits s with
  | nil =>
    have heq : t = s := SortedSet.ext fun n => by simp [ht]
    simpa [heq] using h
  | cons m states ih =>
    obtain ⟨hm, hrest⟩ := List.pairwise_cons.mp hascending
    -- the state around the first one has a smaller number than all of them
    have henter : c.Visits (visits ++ [.entry m]) (s.insert m) := by
      refine h.enter (hfresh m List.mem_cons_self) fun p hp => ?_
      have hlt := hc.inOrder.lt_child hp
      rcases hparent m List.mem_cons_self p hp with hps | hpm
      · exact hps
      · rcases List.mem_cons.mp hpm with rfl | hpm
        · omega
        · have := hm p hpm
          omega
    rw [List.map_cons, List.append_cons]
    refine ih henter hrest ?_ ?_ ?_
    · intro n hn hns
      rcases SortedSet.mem_insert.mp hns with rfl | hns
      · exact Nat.lt_irrefl n (hm n hn)
      · exact hfresh n (List.mem_cons_of_mem m hn) hns
    · intro n hn p hp
      rw [SortedSet.mem_insert]
      rcases hparent n (List.mem_cons_of_mem m hn) p hp with hps | hpm
      · exact Or.inl (Or.inr hps)
      · rcases List.mem_cons.mp hpm with rfl | hpm
        · exact Or.inl (Or.inl rfl)
        · exact Or.inr hpm
    · intro n
      rw [ht, SortedSet.mem_insert, List.mem_cons]
      tauto

end Visits

/-! ## Actions that tell -/

/-- Each state that can be active reports each entry and each exit by exactly one action that tells
so, and no transition reports such an action. -/
structure Marked (c : Chart) (mark : Action → Option Visit) : Prop where
  entry : ∀ n < c.size, (c.kind n).isHistory = false →
    (c.entryActions n).filterMap mark = [.entry n]
  exit : ∀ n < c.size, (c.kind n).isHistory = false →
    (c.exitActions n).filterMap mark = [.exit n]
  transition : ∀ r, c.Declares r → r.actions.filterMap mark = []

/-- Where each of some states reports one visit, together they report these in turn. -/
theorem filterMap_flatMap_eq_map {states : List Nat} {actions : Nat → List Action}
    {visit : Nat → Visit} (h : ∀ n ∈ states, (actions n).filterMap mark = [visit n]) :
    (states.flatMap actions).filterMap mark = states.map visit := by
  rw [List.filterMap_flatMap, List.map_eq_flatMap]
  exact List.flatMap_congr h

theorem Marked.filterMap_transitions (hmark : c.Marked mark)
    (hdeclared : ∀ r ∈ transitions, c.Declares r) :
    (transitions.flatMap Transition.actions).filterMap mark = [] := by
  rw [List.filterMap_flatMap, List.flatMap_eq_nil_iff]
  exact fun r hr => hmark.transition r (hdeclared r hr)

/-- A microstep tells of the exits and the entries, in the order in which it makes them. -/
theorem Marked.filterMap_microstep (hmark : c.Marked mark) (ha : c.Sound a)
    (hafter : c.Sound (c.microstep a transitions).active)
    (hdeclared : ∀ r ∈ transitions, c.Declares r) :
    (c.microstep a transitions).actions.filterMap mark =
      (c.exits a transitions).toList.reverse.map .exit ++
        (c.entered a transitions).toList.map .entry := by
  have hexits : ((c.exits a transitions).toList.reverse.flatMap c.exitActions).filterMap mark =
      (c.exits a transitions).toList.reverse.map .exit := by
    refine filterMap_flatMap_eq_map fun n hn => ?_
    obtain ⟨r, -, d, -, hna, -⟩ := mem_exits.mp (List.mem_reverse.mp hn)
    exact hmark.exit n (ha.lt_size hna) (ha.not_history hna)
  have hentries : ((c.entered a transitions).toList.flatMap c.entryActions).filterMap mark =
      (c.entered a transitions).toList.map .entry := by
    refine filterMap_flatMap_eq_map fun n hn => ?_
    have hactive := mem_microstep.mpr (Or.inr (mem_entered.mp hn).1)
    exact hmark.entry n (hafter.lt_size hactive) (hafter.not_history hactive)
  rw [microstep_eq, List.filterMap_append, List.filterMap_append, hexits,
    hmark.filterMap_transitions hdeclared, hentries, List.append_nil]

namespace Visits

/-- Leaving what transitions leave goes on with a history. -/
theorem left (hc : c.WellFormed) (h : c.Visits visits a.states) :
    c.Visits (visits ++ (c.exits a transitions).toList.reverse.map .exit)
      (c.left a transitions).states := by
  refine h.leaveAll hc ?_ ?_ ?_ ?_
  · exact List.pairwise_reverse.mpr (c.exits a transitions).ascending
  · intro n hn
    obtain ⟨r, -, d, -, hna, -⟩ := mem_exits.mp (List.mem_reverse.mp hn)
    exact hna
  · intro n hn q hq hqa
    obtain ⟨r, hr, d, hdom, -, hnd⟩ := mem_exits.mp (List.mem_reverse.mp hn)
    refine List.mem_reverse.mpr (mem_exits.mpr ⟨r, hr, d, hdom, hqa, ?_⟩)
    exact hc.inOrder.below_trans (hc.inOrder.below_child hq) hnd
  · intro n
    rw [List.mem_reverse]
    exact mem_left

variable (hc : c.WellFormed) (hmark : c.Marked mark)
include hc hmark

/-- A microstep goes on with a history. -/
theorem microstep (ha : c.Sound a) (hrec : c.RecordsInside a)
    (hf : c.Firable a transitions) (h : c.Visits visits a.states) :
    c.Visits (visits ++ (c.microstep a transitions).actions.filterMap mark)
      (c.microstep a transitions).active.states := by
  have hafter := microstep_sound hc ha hrec hf
  rw [hmark.filterMap_microstep ha hafter hf.declared, ← List.append_assoc]
  refine (h.left hc).enterAll hc (c.entered a transitions).ascending ?_ ?_ ?_
  · exact fun n hn => (mem_entered.mp hn).2
  · intro n hn p hp
    have hpa := hafter.parent_mem (mem_microstep.mpr (Or.inr (mem_entered.mp hn).1)) hp
    rcases mem_microstep.mp hpa with hleft | hentry
    · exact Or.inl hleft
    · by_cases hp' : p ∈ c.left a transitions
      · exact Or.inl hp'
      · exact Or.inr (mem_entered.mpr ⟨hentry, hp'⟩)
  · intro n
    show n ∈ (c.microstep a transitions).active ↔
      n ∈ c.left a transitions ∨ n ∈ c.entered a transitions
    rw [mem_microstep, mem_entered]
    tauto

/-- What a machine begins with begins a history. -/
theorem initialStep :
    c.Visits (c.initialStep.actions.filterMap mark) c.initialStep.active.states := by
  have hlegal := initialStep_legal hc
  have hentries : c.initialStep.actions.filterMap mark =
      c.initialEntrySet.toList.map .entry := by
    rw [actions_initialStep]
    refine filterMap_flatMap_eq_map fun n hn => ?_
    have hactive := mem_initialStep.mpr hn
    exact hmark.entry n (hlegal.lt_size hactive) (hlegal.not_history hactive)
  rw [hentries, ← List.nil_append (List.map _ _)]
  refine nil.enterAll hc c.initialEntrySet.ascending ?_ ?_ ?_
  · exact fun n _ => SortedSet.not_mem_empty n
  · intro n hn p hp
    exact Or.inr (mem_initialStep.mp (hlegal.parent_mem (mem_initialStep.mpr hn) hp))
  · intro n
    show n ∈ c.initialStep.active ↔ n ∈ SortedSet.empty ∨ n ∈ c.initialEntrySet
    rw [mem_initialStep, or_iff_right (SortedSet.not_mem_empty n)]

end Visits

end Chart

/-! ## Calls one after the other -/

namespace Machine

variable {γ : Type} {m : Machine γ} {mark : Action → Option Visit} {visits : List Visit}
  {context : γ} {p q : Progress} {waiting : List Event}

/-- Delivers an event to the machine where the calls so far have led, and gathers the actions. A
call that goes through changes both, and no other call changes anything. -/
def deliver (m : Machine γ) (s : Configuration × List Action) (call : γ × Event) :
    Configuration × List Action :=
  match m.transition s.1 call.1 call.2 with
  | .ok (.transitioned arrival) => (arrival.configuration, s.2 ++ arrival.actions)
  | .ok .unchanged => s
  | .error _ => s

/-- The actions gathered so far tell what is active, in a sound set with records of such sets. -/
structure Told (m : Machine γ) (mark : Action → Option Visit) (a : Active)
    (actions : List Action) : Prop where
  sound : m.Sound a
  records : m.RecordsFrom m.Sound a
  visits : m.Visits (actions.filterMap mark) a.states

section

variable (hc : m.WellFormed) (hdef : m.DefaultsAcyclic) (hmark : m.Marked mark)
include hc hdef hmark

/-- They still do after a microstep for what an event selects. -/
theorem Told.microstep {a : Active} {actions : List Action} {transitions : List Transition}
    (h : m.Told mark a actions) (hs : m.Selects a transitions) :
    m.Told mark (m.microstep a transitions).active
      (actions ++ (m.microstep a transitions).actions) := by
  have hinside := h.records.inside hc fun _ hb => hb
  have hf := firable_of_selects hc h.sound hs
    (followable_of_defaults hc hdef h.sound h.records transitions)
  refine ⟨Chart.microstep_sound hc h.sound hinside hf,
    Chart.recordsFrom_microstep hc h.sound h.records transitions, ?_⟩
  rw [List.filterMap_append]
  exact h.visits.microstep hc hmark h.sound hinside hf

/-- They still do when the machine has settled. -/
theorem Told.settles {fired : List Firing} {before : List Action}
    (h : m.Told mark p.active (before ++ p.actions))
    (hsettles : m.Settles context p waiting fired q) :
    m.Told mark q.active (before ++ q.actions) := by
  refine hsettles.keeps (I := fun p => m.Told mark p.active (before ++ p.actions)) h ?_
  intro p transitions _ hs hp
  show m.Told mark (m.microstep p.active transitions).active
    (before ++ (p.actions ++ (m.microstep p.active transitions).actions))
  rw [← List.append_assoc]
  exact hp.microstep hc hdef hmark hs

/-- They still do after each call that is fed with the configuration returned last. -/
theorem Told.deliver {a : Active} {actions : List Action} (h : m.Told mark a actions)
    (call : γ × Event) :
    ∃ b, (m.deliver (a.configuration m.toTree, actions) call).1 = b.configuration m.toTree ∧
      m.Told mark b (m.deliver (a.configuration m.toTree, actions) call).2 := by
  unfold Machine.deliver
  cases hcall : m.transition (a.configuration m.toTree) call.1 call.2 with
  | error f => exact ⟨a, rfl, h⟩
  | ok outcome =>
    cases outcome with
    | unchanged => exact ⟨a, rfl, h⟩
    | transitioned arrival =>
      obtain ⟨b, q, hres, hreact, rfl⟩ := transition_eq_ok.mp hcall
      obtain ⟨r, rs, fired, hs, hsettles⟩ := exists_settles_of_react hreact
      obtain rfl := eq_of_reload hc h.sound h.records hres
      refine ⟨q.active, rfl, Told.settles hc hdef hmark ?_ hsettles⟩
      exact h.microstep hc hdef hmark ⟨_, _, hs⟩

theorem Told.deliverAll {a : Active} {actions : List Action} (h : m.Told mark a actions)
    (calls : List (γ × Event)) :
    ∃ b, (calls.foldl m.deliver (a.configuration m.toTree, actions)).1 =
        b.configuration m.toTree ∧
      m.Told mark b (calls.foldl m.deliver (a.configuration m.toTree, actions)).2 := by
  induction calls generalizing a actions with
  | nil => exact ⟨a, rfl, h⟩
  | cons call calls ih =>
    obtain ⟨b, hb, hnext⟩ := h.deliver hc hdef hmark call
    have hpair : m.deliver (a.configuration m.toTree, actions) call =
        (b.configuration m.toTree, (m.deliver (a.configuration m.toTree, actions) call).2) :=
      Prod.ext hb rfl
    rw [List.foldl_cons, hpair]
    exact ih hnext

omit hdef in
theorem told_initialStep :
    m.Told mark m.initialStep.active m.initialStep.actions where
  sound := (Chart.initialStep_legal hc).sound hc
  records := Chart.recordsFrom_initialStep _
  visits := Chart.Visits.initialStep hc hmark

end

/-- Entry and exit actions bracket what is active. In a machine whose default targets form no circle
and whose states each report entries and exits by one action that tells so, take the actions of the
initial call and of all calls after it that went through, each with the configuration returned last
and with any event and context. The visits of each state are an entry and an exit in turn, with an
entry at the end just if the state is active in the last configuration; and at no time has a state
been entered and not left while the state around it has not. -/
theorem visits_alternate {d : Description} {guards : Guards γ} {options : Options}
    (hm : d.compile guards options = .ok m) (hdef : m.DefaultsAcyclic) (hmark : m.Marked mark)
    {arrival : Arrival} (hinitial : m.initialState context = .ok arrival)
    (calls : List (γ × Event)) {last : Configuration × List Action}
    (hlast : calls.foldl m.deliver (arrival.configuration, arrival.actions) = last) :
    (∃ a, Active.resolve m.toTree false last.1 = .ok a ∧
      ∀ n, ∃ times, Visit.visitsOf n (last.2.filterMap mark) =
        Visit.turns n times (decide (n ∈ a))) ∧
    ∀ earlier, earlier <+: last.2 → ∀ n p, n ∈ m.children p →
      Visit.IsOpen (earlier.filterMap mark) n → Visit.IsOpen (earlier.filterMap mark) p := by
  have hc := Description.wellFormed_of_compile hm
  obtain ⟨q, hbegin, rfl⟩ := initialState_eq_ok.mp hinitial
  obtain ⟨fired, hsettles⟩ := exists_settles hbegin
  have hbegun : m.Told mark q.active ([] ++ q.actions) :=
    (told_initialStep hc hmark).settles hc hdef hmark hsettles
  obtain ⟨a, hconfiguration, htold⟩ := hbegun.deliverAll hc hdef hmark calls
  subst hlast
  refine ⟨⟨a, ?_, fun n => htold.visits.exists_turns n⟩, ?_⟩
  · have hinside := htold.records.inside hc fun _ hb => hb
    exact hconfiguration ▸ hc.resolve_configuration_unchecked htold.sound hinside
  · intro earlier hearlier n p hp hopen
    obtain ⟨s, hs⟩ := htold.visits.of_prefix (hearlier.filterMap mark)
    rw [hs.isOpen_iff] at hopen ⊢
    exact hs.parent_mem hopen hp

/-! ### A journey of the lift

It is called, speeds up, is stopped and resumed, and arrives with its doors open. -/

/-- What an action of the lift tells: each is reported for one state only. -/
def lift.tells (action : Action) : Option Visit :=
  (List.range lift.size).findSome? (fun n =>
    if action ∈ lift.entryActions n then some (.entry n)
    else if action ∈ lift.exitActions n then some (.exit n)
    else none)

theorem lift_marked : lift.Marked lift.tells where
  entry := by decide +kernel
  exit := by decide +kernel
  transition := by
    intro r hr
    have hlisted : ∀ b ∈ lift.behaviours.toList, ∀ e ∈ b.on.toList, ∀ r ∈ e.2, r.actions = [] := by
      decide +kernel
    rw [Chart.forall_candidates hlisted r hr.2]
    rfl

def lift.begun : Arrival := lift.arrival ⟨lift.initialStep.active, lift.initialStep.actions, 1⟩

theorem initialState_lift : lift.initialState () = .ok lift.begun := by
  have hraised : lift.initialStep.raised = [] := by decide +kernel
  unfold initialState begin
  simp only [hraised]
  rfl

def lift.calls : List (Unit × Event) :=
  ["CALL", "GO", "STOP", "RESUME", "HALT"].map (fun name => ((), .named name))

def lift.journey : Configuration × List Action :=
  lift.calls.foldl lift.deliver (lift.begun.configuration, lift.begun.actions)

/-- The lift is back where it was idle, its doors have been entered and left twice, and at no time
have they been entered without the ride that they are part of. -/
theorem lift_visits_alternate :
    Visit.visitsOf 1 (lift.journey.2.filterMap lift.tells) = Visit.turns 1 2 true ∧
      Visit.visitsOf 3 (lift.journey.2.filterMap lift.tells) = Visit.turns 3 2 false ∧
      (∃ a, Active.resolve lift.toTree false lift.journey.1 = .ok a ∧ 1 ∈ a ∧ 3 ∉ a) ∧
      ∀ earlier, earlier <+: lift.journey.2 → Visit.IsOpen (earlier.filterMap lift.tells) 3 →
        Visit.IsOpen (earlier.filterMap lift.tells) 2 := by
  have hc := Description.wellFormed_of_compile compile_lift
  have hdef : lift.DefaultsAcyclic := Chart.defaultsAcyclic_of_behaviours hc (by decide +kernel)
  have hjourney : lift.calls.foldl lift.deliver (lift.begun.configuration, lift.begun.actions) =
      lift.journey := rfl
  obtain ⟨⟨a, hres, hturns⟩, hnested⟩ :=
    visits_alternate compile_lift hdef lift_marked initialState_lift lift.calls hjourney
  have hidle : Visit.visitsOf 1 (lift.journey.2.filterMap lift.tells) = Visit.turns 1 2 true := by
    decide +kernel
  have hdoors : Visit.visitsOf 3 (lift.journey.2.filterMap lift.tells) = Visit.turns 3 2 false := by
    decide +kernel
  have hchild : 3 ∈ lift.children 2 := by decide +kernel
  refine ⟨hidle, hdoors, ⟨a, hres, ?_, ?_⟩, fun earlier h => hnested earlier h 3 2 hchild⟩
  · obtain ⟨times, htimes⟩ := hturns 1
    have hlast := Visit.getLast?_turns 1 times (decide (1 ∈ a))
    rw [← htimes, hidle, Visit.getLast?_turns] at hlast
    simpa using hlast
  · obtain ⟨times, htimes⟩ := hturns 3
    have hlast := Visit.getLast?_turns 3 times (decide (3 ∈ a))
    rw [← htimes, hdoors, Visit.getLast?_turns] at hlast
    simpa using hlast

end Machine

end Statechart
