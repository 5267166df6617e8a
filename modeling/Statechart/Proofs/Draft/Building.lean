/-
# Statechart.Proofs.Draft.Building -- what building a draft gives, and what stops it

A draft of a state stands for a state whatever is wrong with it (`StateDraft.unchecked`). Building
the draft gives this state, or stops at the first slip it comes to: a state that begins nowhere, a
key that comes twice, or an internal transition without targets. Each is a fault of one part of the
draft (`StateDraft.Caught`), so that a draft is built only if no part has one
(`StateDraft.build_eq_ok`), and is stopped only by a part that does (`StateDraft.build_eq_error`).
-/

import Statechart.Draft
import Statechart.Proofs.Lists
import Statechart.Proofs.Sorted.Map
import Statechart.Proofs.Tree.Addresses

namespace Statechart

/-! ## What a draft stands for -/

namespace TransitionDraft

/-- An internal transition that leads nowhere. -/
def LacksTarget (t : TransitionDraft) : Prop := t.spec.isInternal = true ∧ t.spec.targets = []

variable {t : TransitionDraft} {event : String}

theorem build_eq_ok {form : TransitionForm} :
    t.build event = .ok form ↔ ¬ t.LacksTarget ∧ t.form = form := by
  rw [build, LacksTarget]
  cases t.spec.isInternal <;> cases t.spec.targets <;> simp

theorem build_eq_error {x : DraftError} :
    t.build event = .error x ↔ t.LacksTarget ∧ x = .missingTarget event := by
  rw [build, LacksTarget]
  cases t.spec.isInternal <;> cases t.spec.targets <;> simp [eq_comm]

/-- The forms of the transitions for an event, in the order of the calls. -/
def formsFor (event : String) (calls : List (String × TransitionDraft)) : List TransitionForm :=
  (calls.filter (fun call => call.1 = event)).map (fun call => call.2.form)

end TransitionDraft

namespace StateDraft

open TransitionDraft (formsFor)

/-- The transitions by event, those for one event in the order of the calls. -/
def uncheckedOn (calls : List (String × TransitionDraft)) :
    SortedMap String (List TransitionForm) :=
  .ofList (calls.map (fun call => (call.1, formsFor call.1 calls)))

/-- The transitions for completion in the order of the calls, if there are any. -/
def uncheckedOnDone (calls : List TransitionDraft) : Option (List TransitionForm) :=
  if calls.isEmpty then none else some (calls.map TransitionDraft.form)

mutual

/-- The state that a draft stands for, with nothing checked. -/
def unchecked (d : StateDraft) : State :=
  match d with
  | { states, .. } => {
    label := d.label
    kind := d.kind
    initial := d.initial
    states := uncheckedAll states
    on := uncheckedOn d.transitions
    onDone := uncheckedOnDone d.completions
    entry := d.entry
    exit := d.exit
    history := d.history
    target := d.target }

/-- The children that drafts stand for. -/
def uncheckedAll : List (String × StateDraft) → List (String × State)
  | [] => []
  | (key, d) :: rest => (key, unchecked d) :: uncheckedAll rest
termination_by structural l => l

end

theorem unchecked_eq (d : StateDraft) : d.unchecked =
    ⟨d.label, d.kind, d.initial, d.states.map (fun c => (c.1, c.2.unchecked)),
      uncheckedOn d.transitions, uncheckedOnDone d.completions, d.entry, d.exit, d.history,
      d.target⟩ := by
  have hall : ∀ l : List (String × StateDraft),
      uncheckedAll l = l.map (fun c => (c.1, c.2.unchecked)) := by
    intro l
    induction l with
    | nil => rfl
    | cons c l ih => rw [uncheckedAll, ih, List.map_cons]
  rw [← hall]
  cases d
  rfl

/-- A draft is part of another if it is that draft or stands somewhere below it. -/
inductive Part (e : StateDraft) : StateDraft → Prop
  | refl : Part e e
  | child {c d : StateDraft} {key : String} (hc : (key, c) ∈ d.states) (h : Part e c) : Part e d

variable {c d e : StateDraft} {key : String}

/-- What is part of a draft has an address in what the draft stands for. -/
theorem Part.exists_reach (h : Part e d) :
    ∃ address keys, d.unchecked.reach? address = some (keys, e.unchecked) := by
  induction h with
  | refl => exact ⟨[], [], rfl⟩
  | @child c d key hc _ ih =>
    obtain ⟨address, keys, hreach⟩ := ih
    obtain ⟨i, hi⟩ := List.mem_iff_getElem?.mp hc
    refine ⟨i :: address, key :: keys, ?_⟩
    rw [State.reach?, unchecked_eq d]
    simp [List.getElem?_map, hi, hreach]

/-- What is wrong with a state where a slip is found. -/
def Caught (d : StateDraft) : DraftError → Prop
  | .missingMachineId | .rejected _ => False
  | .missingInitialState _ => d.lacksInitial = true
  | .duplicateState _ _ => ¬ (d.states.map Prod.fst).Nodup
  | .missingTarget event => ∃ t : TransitionDraft, t.LacksTarget ∧
      ((event, t) ∈ d.transitions ∨ t ∈ d.completions)

section Build

variable {calls : List (String × TransitionDraft)} {completions : List TransitionDraft}
  {on on' : SortedMap String (List TransitionForm)} {event path : String} {x : DraftError}

@[simp] theorem formsFor_nil (event : String) : formsFor event [] = [] := rfl

theorem formsFor_cons (event : String) (call : String × TransitionDraft)
    (calls : List (String × TransitionDraft)) :
    formsFor event (call :: calls) =
      if call.1 = event then call.2.form :: formsFor event calls else formsFor event calls := by
  by_cases h : call.1 = event <;> simp [formsFor, h]

theorem get?_uncheckedOn {forms : List TransitionForm} :
    (uncheckedOn calls).get? event = some forms ↔ forms ≠ [] ∧ forms = formsFor event calls := by
  rw [← SortedMap.mem_toList, uncheckedOn, SortedMap.mem_toList_ofList]
  · rw [List.mem_map]
    constructor
    · rintro ⟨call, hcall, heq⟩
      obtain ⟨rfl, rfl⟩ := Prod.mk.inj heq
      refine ⟨fun hnil => ?_, rfl⟩
      rw [formsFor, List.map_eq_nil_iff, List.filter_eq_nil_iff] at hnil
      exact hnil call hcall (by simp)
    · rintro ⟨hne, rfl⟩
      obtain ⟨call, hcall⟩ := List.exists_mem_of_ne_nil _ (List.map_eq_nil_iff.not.mp hne)
      obtain ⟨hmem, hevent⟩ := List.mem_filter.mp hcall
      obtain rfl : call.1 = event := by simpa using hevent
      exact ⟨call, hmem, rfl⟩
  · intro e he f hf hef
    obtain ⟨call, -, rfl⟩ := List.mem_map.mp he
    obtain ⟨call', -, rfl⟩ := List.mem_map.mp hf
    exact congrArg (fun event => formsFor event calls) hef

/-- Each call for an event adds its form behind those that are there. -/
theorem get?_of_buildTransitions (h : buildTransitions calls on = .ok on') (event : String) :
    on'.get? event = if formsFor event calls = [] then on.get? event
      else some ((on.get? event).getD [] ++ formsFor event calls) := by
  induction calls generalizing on with
  | nil =>
    obtain rfl := Except.ok.inj h
    rfl
  | cons call calls ih =>
    obtain ⟨event', t⟩ := call
    obtain ⟨form, hform, hrest⟩ := bind_eq_ok.mp h
    obtain ⟨-, rfl⟩ := TransitionDraft.build_eq_ok.mp hform
    rw [ih hrest, SortedMap.modify, SortedMap.get?_insert, formsFor_cons]
    by_cases he : event' = event
    · subst he
      by_cases hnil : formsFor event' calls = [] <;> simp [hnil]
    · simp [he, Ne.symm he]

/-- The transitions that are built are those that the calls stand for. -/
theorem buildTransitions_eq_ok (h : buildTransitions calls .empty = .ok on) :
    on = uncheckedOn calls := by
  refine SortedMap.ext_entries fun ⟨event, forms⟩ => ?_
  rw [SortedMap.mem_toList, SortedMap.mem_toList, get?_uncheckedOn, get?_of_buildTransitions h]
  by_cases hnil : formsFor event calls = []
  · rw [if_pos hnil, hnil]
    simp +contextual
  · rw [if_neg hnil]
    simp only [SortedMap.get?_empty, Option.getD_none, List.nil_append, Option.some.injEq]
    grind

theorem not_lacksTarget_of_buildTransitions (h : buildTransitions calls on = .ok on') :
    ∀ call ∈ calls, ¬ call.2.LacksTarget := by
  induction calls generalizing on with
  | nil => simp
  | cons call calls ih =>
    obtain ⟨event', t⟩ := call
    obtain ⟨form, hform, hrest⟩ := bind_eq_ok.mp h
    exact List.forall_mem_cons.mpr ⟨(TransitionDraft.build_eq_ok.mp hform).1, ih hrest⟩

theorem buildTransitions_eq_error (h : buildTransitions calls on = .error x) :
    ∃ call ∈ calls, call.2.LacksTarget ∧ x = .missingTarget call.1 := by
  induction calls generalizing on with
  | nil => exact nomatch h
  | cons call calls ih =>
    obtain ⟨event', t⟩ := call
    cases hform : t.build event' with
    | error x' =>
      have heq : buildTransitions ((event', t) :: calls) on = .error x' := by
        rw [buildTransitions, hform]
        rfl
      obtain rfl := Except.error.inj (heq.symm.trans h)
      obtain ⟨hlacks, rfl⟩ := TransitionDraft.build_eq_error.mp hform
      exact ⟨_, List.mem_cons_self, hlacks, rfl⟩
    | ok form =>
      rw [buildTransitions, hform] at h
      obtain ⟨call, hcall, hlacks⟩ := ih h
      exact ⟨call, List.mem_cons_of_mem _ hcall, hlacks⟩

theorem buildCompletions_eq_ok {onDone : Option (List TransitionForm)}
    (h : buildCompletions path completions = .ok onDone) :
    onDone = uncheckedOnDone completions ∧ ∀ t ∈ completions, ¬ t.LacksTarget := by
  rw [buildCompletions] at h
  rw [uncheckedOnDone]
  split at h
  · rename_i hempty
    obtain rfl := Except.ok.inj h
    rw [if_pos hempty]
    rw [List.isEmpty_iff] at hempty
    exact ⟨rfl, by simp [hempty]⟩
  · rename_i hempty
    obtain ⟨forms, hforms, heq⟩ := bind_eq_ok.mp h
    obtain rfl := Except.ok.inj heq
    have hnonempty : Nonempty TransitionForm := ⟨.target ""⟩
    obtain ⟨g, hg, rfl⟩ := mapM_eq_ok_iff_exists.mp hforms
    have hall := fun t ht => TransitionDraft.build_eq_ok.mp (hg t ht)
    rw [if_neg hempty, List.map_congr_left fun t ht => (hall t ht).2.symm]
    exact ⟨rfl, fun t ht => (hall t ht).1⟩

theorem buildCompletions_eq_error (h : buildCompletions path completions = .error x) :
    ∃ t ∈ completions, t.LacksTarget ∧ x = .missingTarget (Event.doneName path) := by
  rw [buildCompletions] at h
  split at h
  · exact nomatch h
  · cases hforms : completions.mapM (TransitionDraft.build (Event.doneName path)) with
    | error x' =>
      rw [hforms] at h
      obtain rfl : x' = x := Except.error.inj h
      obtain ⟨t, ht, hbuild⟩ := exists_of_mapM_eq_error hforms
      exact ⟨t, ht, TransitionDraft.build_eq_error.mp hbuild⟩
    | ok forms =>
      rw [hforms] at h
      exact nomatch h

theorem build_eq (path : String) (d : StateDraft) : d.build path =
    if d.lacksInitial then .error (.missingInitialState path)
    else do
      let states ← buildAll path [] d.states
      let on ← buildTransitions d.transitions .empty
      let onDone ← buildCompletions path d.completions
      return ⟨d.label, d.kind, d.initial, states, on, onDone, d.entry, d.exit, d.history,
        d.target⟩ := by
  cases d
  rw [build]
  split <;> rfl

end Build

mutual

/-- A draft that can be built gives what it stands for, and nothing in it is caught. -/
theorem build_eq_ok : ∀ (d : StateDraft) (path : String) (s : State), d.build path = .ok s →
    s = d.unchecked ∧ ∀ e, Part e d → ∀ x, ¬ e.Caught x
  | ⟨label, kind, initial, states, transitions, completions, entry, exit, history, target⟩ => by
    intro path s h
    rw [build_eq] at h
    split at h
    · exact nomatch h
    · rename_i hinitial
      obtain ⟨built, hstates, h⟩ := bind_eq_ok.mp h
      obtain ⟨on, hon, h⟩ := bind_eq_ok.mp h
      obtain ⟨onDone, honDone, h⟩ := bind_eq_ok.mp h
      obtain rfl := Except.ok.inj h
      obtain ⟨hbuilt, hnodup, -, hbelow⟩ := buildAll_eq_ok states path [] built hstates
      obtain ⟨honDone, hcompletions⟩ := buildCompletions_eq_ok honDone
      refine ⟨?_, fun e he x hx => ?_⟩
      · rw [unchecked_eq, hbuilt, buildTransitions_eq_ok hon, honDone]
      · cases he with
        | child hc he => exact hbelow _ hc e he x hx
        | refl =>
          cases x with
          | missingMachineId | rejected => exact hx
          | missingInitialState => exact hinitial hx
          | duplicateState => exact hx hnodup
          | missingTarget event =>
            obtain ⟨t, hlacks, ht | ht⟩ := hx
            · exact not_lacksTarget_of_buildTransitions hon _ ht hlacks
            · exact hcompletions t ht hlacks

theorem buildAll_eq_ok : ∀ (l : List (String × StateDraft)) (path : String)
    (earlier : List String) (built : List (String × State)), buildAll path earlier l = .ok built →
    built = l.map (fun c => (c.1, c.2.unchecked)) ∧ (l.map Prod.fst).Nodup ∧
      (∀ c ∈ l, c.1 ∉ earlier) ∧ ∀ c ∈ l, ∀ e, Part e c.2 → ∀ x, ¬ e.Caught x
  | [] => by
    intro path earlier built h
    obtain rfl := Except.ok.inj h
    simp
  | (key, d) :: rest => by
    intro path earlier built h
    rw [buildAll] at h
    split at h
    · exact nomatch h
    · rename_i hkey
      obtain ⟨s, hs, h⟩ := bind_eq_ok.mp h
      obtain ⟨others, hothers, h⟩ := bind_eq_ok.mp h
      obtain rfl := Except.ok.inj h
      obtain ⟨rfl, hpart⟩ := build_eq_ok d _ s hs
      obtain ⟨rfl, hnodup, hearlier, hrest⟩ :=
        buildAll_eq_ok rest path (key :: earlier) others hothers
      -- no later sibling has the key, since it came before them
      refine ⟨rfl, ?_, ?_, List.forall_mem_cons.mpr ⟨hpart, hrest⟩⟩
      · refine List.nodup_cons.mpr ⟨fun hmem => ?_, hnodup⟩
        obtain ⟨c, hc, rfl⟩ := List.mem_map.mp hmem
        exact hearlier c hc List.mem_cons_self
      · refine List.forall_mem_cons.mpr ⟨by simpa using hkey, fun c hc hmem => ?_⟩
        exact hearlier c hc (List.mem_cons_of_mem key hmem)

end

mutual

/-- A draft that cannot be built is stopped by what is wrong with one of its states. -/
theorem build_eq_error : ∀ (d : StateDraft) (path : String) (x : DraftError),
    d.build path = .error x → ∃ e, Part e d ∧ e.Caught x
  | ⟨label, kind, initial, states, transitions, completions, entry, exit, history, target⟩ => by
    intro path x h
    rw [build_eq] at h
    split at h
    · rename_i hinitial
      obtain rfl := Except.error.inj h
      exact ⟨_, .refl, hinitial⟩
    · cases hstates : buildAll path [] states with
      | error x' =>
        rw [hstates] at h
        obtain rfl : x' = x := Except.error.inj h
        rcases buildAll_eq_error states path [] x' hstates with
          ⟨c, hc, e, he, hx⟩ | ⟨key, rfl, hdup⟩
        · exact ⟨e, .child hc he, hx⟩
        · exact ⟨_, .refl, fun hnodup => hdup hnodup (by simp)⟩
      | ok built =>
        rw [hstates] at h
        cases hon : buildTransitions transitions .empty with
        | error x' =>
          rw [hon] at h
          obtain rfl : x' = x := Except.error.inj h
          obtain ⟨call, hcall, hlacks, rfl⟩ := buildTransitions_eq_error hon
          exact ⟨_, .refl, call.2, hlacks, Or.inl hcall⟩
        | ok on =>
          rw [hon] at h
          cases honDone : buildCompletions path completions with
          | error x' =>
            rw [honDone] at h
            obtain rfl : x' = x := Except.error.inj h
            obtain ⟨t, ht, hlacks, rfl⟩ := buildCompletions_eq_error honDone
            exact ⟨_, .refl, t, hlacks, Or.inr ht⟩
          | ok onDone =>
            rw [honDone] at h
            exact nomatch h

theorem buildAll_eq_error : ∀ (l : List (String × StateDraft)) (path : String)
    (earlier : List String) (x : DraftError), buildAll path earlier l = .error x →
    (∃ c ∈ l, ∃ e, Part e c.2 ∧ e.Caught x) ∨
      ∃ key, x = .duplicateState path key ∧
        ((l.map Prod.fst).Nodup → ¬ ∀ c ∈ l, c.1 ∉ earlier)
  | [] => by
    intro path earlier x h
    exact nomatch h
  | (key, d) :: rest => by
    intro path earlier x h
    rw [buildAll] at h
    split at h
    · rename_i hkey
      obtain rfl := Except.error.inj h
      exact Or.inr ⟨key, rfl, fun _ hall => hall _ List.mem_cons_self (by simpa using hkey)⟩
    · cases hs : d.build (path ++ "." ++ key) with
      | error x' =>
        rw [hs] at h
        obtain rfl : x' = x := Except.error.inj h
        exact Or.inl ⟨_, List.mem_cons_self, build_eq_error d _ x' hs⟩
      | ok s =>
        rw [hs] at h
        cases hothers : buildAll path (key :: earlier) rest with
        | error x' =>
          rw [hothers] at h
          obtain rfl : x' = x := Except.error.inj h
          rcases buildAll_eq_error rest path (key :: earlier) x' hothers with
            ⟨c, hc, hcaught⟩ | ⟨key', rfl, hdup⟩
          · exact Or.inl ⟨c, List.mem_cons_of_mem _ hc, hcaught⟩
          · refine Or.inr ⟨key', rfl, fun hnodup hall => ?_⟩
            obtain ⟨hfresh, hnodup⟩ := List.nodup_cons.mp hnodup
            refine hdup hnodup fun c hc hmem => ?_
            rcases List.mem_cons.mp hmem with rfl | hmem
            · exact hfresh (List.mem_map.mpr ⟨c, hc, rfl⟩)
            · exact hall c (List.mem_cons_of_mem _ hc) hmem
        | ok others =>
          rw [hothers] at h
          exact nomatch h

end

end StateDraft

/-- The description that the draft of a machine stands for, with nothing checked. -/
def MachineDraft.unchecked {γ : Type} (d : MachineDraft γ) : Description :=
  ⟨d.id, d.root.unchecked⟩

end Statechart
