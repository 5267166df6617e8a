/-
# Statechart.Proofs.Description.RoundTrip -- writing a description and reading it again

A description can be written in many ways. Whatever is read leaves free parameters with every key
once, none of them null, and the root without a label (`Description.normal_of_ofJson?`). Such a
description is read back as it is from what it is written as
(`Description.ofJson?_toJson_of_normal`), so what it is written as is a normal form of all its
spellings.
-/

import Statechart.Description.Reader
import Statechart.Description.Writer
import Statechart.Proofs.Json.Distinct
import Statechart.Proofs.Json.Record

namespace Statechart

open Json (written)

variable {j : Json} {spelling : ChoiceSpelling}

/-! ## Members -/

theorem written_append (parts parts' : List (String × Option Json)) :
    written (parts ++ parts') = written parts ++ written parts' :=
  List.flatMap_append

theorem optionalMember_eq {α : Type} (name : String) (write : α → Json) (part : Option α) :
    optionalMember name write part = written [(name, part.map write)] := by
  cases part <;> rfl

/-- A list as a part of a record: there is none if it is empty. -/
def listPart {α : Type} (write : α → Json) (items : List α) : Option Json :=
  if items.isEmpty then none else some (.array (items.map write))

theorem listMember_eq {α : Type} (name : String) (write : α → Json) (items : List α) :
    listMember name write items = written [(name, listPart write items)] := by
  cases items <;> rfl

section

variable {name : String} {parts : List (String × Option Json)}
  (hnodup : (parts.map Prod.fst).Nodup)
include hnodup

/-- An optional text is read back. -/
theorem optional?_string {o : Option String} (h : (name, o.map .string) ∈ parts) :
    Json.Record.optional? (written parts) name Json.asString? = some o :=
  Json.optional?_written hnodup .string h fun _ _ => ⟨by simp, rfl⟩

/-- A list that may be left out if it is empty is read back. -/
theorem orElse?_listPart {α : Type} {read : Json → Option α} {items : List α}
    (write : α → Json) (h : (name, listPart write items) ∈ parts)
    (hread : ∀ a ∈ items, read (write a) = some a) :
    Json.Record.orElse? (written parts) name (Json.oneOrMany? read) [] = some items := by
  refine Json.orElse?_written hnodup _ h (fun hnone => ?_) fun j hj => ?_
  · cases items with
    | nil => rfl
    | cons a rest => cases hnone
  · cases items with
    | nil => cases hj
    | cons a rest =>
      obtain rfl := Option.some.inj hj
      exact Json.oneOrMany?_array hread

end

/-! ## Actions and transitions -/

/-- Free parameters have every key once and are not null. -/
def ActionForm.Normal : ActionForm → Prop
  | .named _ => True
  | .detailed a => ∀ p ∈ a.params, p ≠ .null ∧ p.distinct = p

/-- The actions of a transition are normal. -/
def TransitionForm.Normal : TransitionForm → Prop
  | .target _ => True
  | .detailed spec => ∀ a ∈ spec.actions, a.Normal

theorem ActionForm.normal_of_ofJson? {a : ActionForm} (h : ActionForm.ofJson? j = some a) :
    a.Normal := by
  rw [ActionForm.ofJson?.eq_def] at h
  split at h
  · obtain rfl := Option.some.inj h
    trivial
  · obtain ⟨action, haction, rfl⟩ := Option.map_eq_some_iff.mp h
    obtain ⟨r, -, haction⟩ := Option.bind_eq_some_iff.mp haction
    obtain ⟨kind, -, haction⟩ := Option.bind_eq_some_iff.mp haction
    obtain ⟨params, hparams, haction⟩ := Option.bind_eq_some_iff.mp haction
    obtain rfl := Option.some.inj haction
    refine Json.of_optional? (fun j p hne hp => ?_) hparams
    obtain rfl := Option.some.inj hp
    exact ⟨Json.distinct_ne_null hne, Json.distinct_distinct j⟩

theorem Action.ofJson?_toJson {a : Action} (h : (ActionForm.detailed a).Normal) :
    Action.ofJson? a.toJson = some a := by
  obtain ⟨kind, params⟩ := a
  let parts : List (String × Option Json) := [("type", some (.string kind)), ("params", params)]
  have hwritten : Action.toJson ⟨kind, params⟩ = .object (written parts) := by
    cases params <;> rfl
  have hnodup : (parts.map Prod.fst).Nodup := by simp [parts]
  have hkind : Json.Record.required? (written parts) "type" Json.asString? = some kind :=
    Json.required?_written (j := .string kind) hnodup (by simp [parts])
  have hparams : Json.Record.optional? (written parts) "params" Json.free? = some params :=
    Json.optional?_written hnodup id (by simp [parts]) fun p hp => by
      obtain ⟨hne, hdistinct⟩ := h p hp
      exact ⟨hne, congrArg some hdistinct⟩
  rw [hwritten, Action.ofJson?, Json.record?_written hnodup (by simp [parts])]
  simp [hkind, hparams]

theorem ActionForm.ofJson?_toJson {a : ActionForm} (h : a.Normal) :
    ActionForm.ofJson? a.toJson = some a := by
  cases a with
  | named kind => rfl
  | detailed action =>
    show (Action.ofJson? action.toJson).map ActionForm.detailed = _
    rw [Action.ofJson?_toJson h, Option.map_some]

theorem TransitionForm.normal_of_ofJson? {f : TransitionForm}
    (h : TransitionForm.ofJson? j = some f) : f.Normal := by
  rw [TransitionForm.ofJson?.eq_def] at h
  split at h
  · obtain rfl := Option.some.inj h
    trivial
  · obtain ⟨spec, hspec, rfl⟩ := Option.map_eq_some_iff.mp h
    obtain ⟨r, -, hspec⟩ := Option.bind_eq_some_iff.mp hspec
    obtain ⟨targets, -, hspec⟩ := Option.bind_eq_some_iff.mp hspec
    obtain ⟨guard, -, hspec⟩ := Option.bind_eq_some_iff.mp hspec
    obtain ⟨inState, -, hspec⟩ := Option.bind_eq_some_iff.mp hspec
    obtain ⟨actions, hactions, hspec⟩ := Option.bind_eq_some_iff.mp hspec
    obtain ⟨isInternal, -, hspec⟩ := Option.bind_eq_some_iff.mp hspec
    obtain rfl := Option.some.inj hspec
    exact Json.of_orElse? (P := fun as => ∀ a ∈ as, a.Normal)
      (fun _ _ => Json.forall_of_oneOrMany? fun _ _ => ActionForm.normal_of_ofJson?) hactions
      (by simp)

/-- The parts of a transition as they are written. -/
def TransitionSpec.parts (spec : TransitionSpec) : List (String × Option Json) :=
  [("target", listPart .string spec.targets), ("cond", spec.guard.map .string),
    ("in", spec.inState.map .string), ("actions", listPart ActionForm.toJson spec.actions),
    ("internal", if spec.isInternal then some (.bool true) else none)]

theorem TransitionForm.toJson_detailed (spec : TransitionSpec) :
    (TransitionForm.detailed spec).toJson = .object (written spec.parts) := by
  have hinternal : (if spec.isInternal then [("internal", Json.bool true)] else []) =
      written [("internal", if spec.isInternal then some (.bool true) else none)] := by
    cases spec.isInternal <;> rfl
  simp only [TransitionForm.toJson, listMember_eq, optionalMember_eq, hinternal, ← written_append]
  rfl

theorem TransitionForm.ofJson?_toJson {f : TransitionForm} (h : f.Normal) :
    TransitionForm.ofJson? f.toJson = some f := by
  cases f with
  | target t => rfl
  | detailed spec =>
    have hnodup : (spec.parts.map Prod.fst).Nodup := by simp [TransitionSpec.parts]
    have htargets : Json.Record.orElse? (written spec.parts) "target"
        (Json.oneOrMany? Json.asString?) [] = some spec.targets :=
      orElse?_listPart hnodup .string (by simp [TransitionSpec.parts]) fun _ _ => rfl
    have hguard : Json.Record.optional? (written spec.parts) "cond" Json.asString? =
        some spec.guard := optional?_string hnodup (by simp [TransitionSpec.parts])
    have hin : Json.Record.optional? (written spec.parts) "in" Json.asString? =
        some spec.inState := optional?_string hnodup (by simp [TransitionSpec.parts])
    have hactions : Json.Record.orElse? (written spec.parts) "actions"
        (Json.oneOrMany? ActionForm.ofJson?) [] = some spec.actions :=
      orElse?_listPart hnodup ActionForm.toJson (by simp [TransitionSpec.parts])
        fun a ha => ActionForm.ofJson?_toJson (h a ha)
    have hinternal : Json.Record.orElse? (written spec.parts) "internal" Json.asBool? false =
        some spec.isInternal := by
      refine Json.orElse?_written hnodup (if spec.isInternal then some (.bool true) else none)
        (by simp [TransitionSpec.parts]) ?_ ?_ <;> cases spec.isInternal <;> simp [Json.asBool?]
    rw [TransitionForm.toJson_detailed]
    show (TransitionSpec.ofJson? (.object (written spec.parts))).map TransitionForm.detailed = _
    rw [TransitionSpec.ofJson?, Json.closedRecord?_written hnodup (by simp [TransitionSpec.parts])]
    simp [htargets, hguard, hin, hactions, hinternal]

theorem normal_of_readTransitions? {fs : List TransitionForm} (h : readTransitions? j = some fs) :
    ∀ f ∈ fs, f.Normal :=
  Json.forall_of_oneOrMany? (fun _ _ => TransitionForm.normal_of_ofJson?) h

theorem normal_of_readActions? {as : List ActionForm} (h : readActions? j = some as) :
    ∀ a ∈ as, a.Normal :=
  Json.forall_of_oneOrMany? (fun _ _ => ActionForm.normal_of_ofJson?) h

theorem readTransitions?_transitionsToJson {fs : List TransitionForm} (h : ∀ f ∈ fs, f.Normal) :
    readTransitions? (transitionsToJson fs) = some fs :=
  Json.oneOrMany?_array fun f hf => TransitionForm.ofJson?_toJson (h f hf)

/-! ## States -/

theorem DeclaredKind.ofName?_name (k : DeclaredKind) : DeclaredKind.ofName? k.name = some k := by
  cases k <;> rfl

theorem HistoryDepth.ofName?_name (d : HistoryDepth) : HistoryDepth.ofName? d.name = some d := by
  cases d <;> rfl

namespace State

/-- All transitions and actions of a state, and of the states below it, are normal. -/
inductive Normal : State → Prop
  | mk {s : State} (states : ∀ e ∈ s.states, Normal e.2)
      (on : ∀ e ∈ s.on.toList, ∀ f ∈ e.2, f.Normal)
      (onDone : ∀ fs ∈ s.onDone, ∀ f ∈ fs, f.Normal) (entry : ∀ a ∈ s.entry, a.Normal)
      (exit : ∀ a ∈ s.exit, a.Normal) : Normal s

/-! ### What is read -/

/-- The label, the transitions and the actions of a state are read each from a field of its own. -/
theorem fields_of_ofRecord? {r : Json.Record} {states : List (String × State)} {s : State}
    (h : ofRecord? spelling r states = some s) : s.states = states ∧
      r.optional? "id" Json.asString? = some s.label ∧
      r.orElse? "on" (Json.mapOf? readTransitions?) .empty = some s.on ∧
      r.optional? "onDone" readTransitions? = some s.onDone ∧
      r.orElse? "entry" readActions? [] = some s.entry ∧
      r.orElse? "exit" readActions? [] = some s.exit := by
  obtain ⟨label, hlabel, h⟩ := Option.bind_eq_some_iff.mp h
  obtain ⟨kind, -, h⟩ := Option.bind_eq_some_iff.mp h
  obtain ⟨initial, -, h⟩ := Option.bind_eq_some_iff.mp h
  obtain ⟨on, hon, h⟩ := Option.bind_eq_some_iff.mp h
  obtain ⟨onDone, honDone, h⟩ := Option.bind_eq_some_iff.mp h
  obtain ⟨entry, hentry, h⟩ := Option.bind_eq_some_iff.mp h
  obtain ⟨exit, hexit, h⟩ := Option.bind_eq_some_iff.mp h
  obtain ⟨history, -, h⟩ := Option.bind_eq_some_iff.mp h
  obtain ⟨target, -, h⟩ := Option.bind_eq_some_iff.mp h
  obtain rfl := Option.some.inj h
  exact ⟨rfl, hlabel, hon, honDone, hentry, hexit⟩

/-- What a record is read as is normal if the children are. -/
theorem normal_of_ofRecord? {r : Json.Record} {states : List (String × State)} {s : State}
    (h : ofRecord? spelling r states = some s) (hstates : ∀ e ∈ states, e.2.Normal) :
    s.Normal := by
  obtain ⟨rfl, -, hon, honDone, hentry, hexit⟩ := fields_of_ofRecord? h
  have hactions : ∀ {name as}, r.orElse? name readActions? [] = some as → ∀ a ∈ as, a.Normal :=
    fun h => Json.of_orElse? (P := fun as => ∀ a ∈ as, a.Normal)
      (fun _ _ => normal_of_readActions?) h (by simp)
  refine ⟨hstates, ?_, ?_, hactions hentry, hactions hexit⟩
  · exact Json.of_orElse? (P := fun on => ∀ e ∈ on.toList, ∀ f ∈ e.2, f.Normal)
      (fun _ _ => Json.forall_of_mapOf? fun _ _ => normal_of_readTransitions?) hon
      fun e he => absurd he List.not_mem_nil
  · exact Json.of_optional? (fun _ _ _ => normal_of_readTransitions?) honDone

mutual

/-- What is read as a state is normal. -/
theorem normal_of_ofJson? : ∀ (j : Json) (s : State), ofJson? spelling j = some s → s.Normal
  | .object members, s, h => by
    rw [ofJson?] at h
    obtain ⟨r, -, h⟩ := Option.bind_eq_some_iff.mp h
    obtain ⟨states, hstates, h⟩ := Option.bind_eq_some_iff.mp h
    exact normal_of_ofRecord? h (normal_of_statesAmong? members states hstates)
  | .array items, s, h => by
    rw [ofJson?] at h
    obtain ⟨r, -, h⟩ := Option.bind_eq_some_iff.mp h
    obtain ⟨states, hstates, h⟩ := Option.bind_eq_some_iff.mp h
    exact normal_of_ofRecord? h (normal_of_statesAt? statesPlace items states hstates)
  | .null, s, h | .bool _, s, h | .int _, s, h | .decimal _, s, h | .string _, s, h => by
    simp [ofJson?] at h

theorem normal_of_statesAmong? : ∀ (members : List (String × Json))
    (states : List (String × State)), statesAmong? spelling members = some states →
      ∀ e ∈ states, e.2.Normal
  | [], states, h => by
    rw [statesAmong?, Option.some.injEq] at h
    simp [← h]
  | (name, j) :: rest, states, h => by
    rw [statesAmong?] at h
    split at h
    · exact normal_of_childrenOfJson? j states h
    · exact normal_of_statesAmong? rest states h

theorem normal_of_statesAt? : ∀ (place : Nat) (items : List Json) (states : List (String × State)),
    statesAt? spelling place items = some states → ∀ e ∈ states, e.2.Normal
  | place, [], states, h => by
    rw [statesAt?, Option.some.injEq] at h
    simp [← h]
  | 0, j :: rest, states, h => by
    rw [statesAt?] at h
    exact normal_of_childrenOfJson? j states h
  | place + 1, j :: rest, states, h => by
    rw [statesAt?] at h
    exact normal_of_statesAt? place rest states h

theorem normal_of_childrenOfJson? : ∀ (j : Json) (states : List (String × State)),
    childrenOfJson? spelling j = some states → ∀ e ∈ states, e.2.Normal
  | .object members, states, h => by
    rw [childrenOfJson?] at h
    exact normal_of_childrenOfMembers? members states h
  | .null, s, h | .bool _, s, h | .int _, s, h | .decimal _, s, h | .string _, s, h
  | .array _, s, h => by
    simp [childrenOfJson?] at h

theorem normal_of_childrenOfMembers? : ∀ (members : List (String × Json))
    (states : List (String × State)), childrenOfMembers? spelling members = some states →
      ∀ e ∈ states, e.2.Normal
  | [], states, h => by
    rw [childrenOfMembers?, Option.some.injEq] at h
    simp [← h]
  | (key, j) :: rest, states, h => by
    rw [childrenOfMembers?] at h
    split at h
    · rename_i s states' hs hstates
      obtain rfl := Option.some.inj h
      exact List.forall_mem_cons.mpr
        ⟨normal_of_ofJson? j s hs, normal_of_childrenOfMembers? rest states' hstates⟩
    · cases h

end

/-! ### What is written -/

/-- The parts of a state as they are written. -/
def parts (s : State) : List (String × Option Json) :=
  [("id", s.label.map .string), ("type", s.kind.map fun k => .string k.name),
    ("initial", s.initial.map .string),
    ("states", if s.states.isEmpty then none else some (.object (membersAll s.states))),
    ("on", if s.on.isEmpty then none else some (Json.ofMap transitionsToJson s.on)),
    ("onDone", s.onDone.map transitionsToJson), ("entry", listPart ActionForm.toJson s.entry),
    ("exit", listPart ActionForm.toJson s.exit), ("history", s.history.map fun d => .string d.name),
    ("target", s.target.map .string)]

theorem members_eq (s : State) : s.members = written s.parts := by
  obtain ⟨label, kind, initial, states, on, onDone, entry, exit, history, target⟩ := s
  have hstates : (if states.isEmpty then [] else [("states", Json.object (membersAll states))]) =
      written [("states",
        if states.isEmpty then none else some (.object (membersAll states)))] := by
    cases states.isEmpty <;> rfl
  have hon : (if on.isEmpty then [] else [("on", Json.ofMap transitionsToJson on)]) =
      written [("on", if on.isEmpty then none else some (Json.ofMap transitionsToJson on))] := by
    cases on.isEmpty <;> rfl
  simp only [members, listMember_eq, optionalMember_eq, hstates, hon, ← written_append]
  rfl

theorem statesAmong?_eq (members : List (String × Json)) : statesAmong? spelling members =
    match Json.member? "states" members with
    | some j => childrenOfJson? spelling j
    | none => some [] := by
  induction members with
  | nil => rfl
  | cons m rest ih =>
    rw [statesAmong?, Json.member?]
    split
    · rfl
    · exact ih

/-- A normal record is read back, given the children. -/
theorem ofRecord?_written {s : State} (h : s.Normal) :
    ofRecord? spelling (written s.parts) s.states = some s := by
  obtain ⟨-, hon, honDone, hentry, hexit⟩ := h
  have hnodup : (s.parts.map Prod.fst).Nodup := by simp [parts]
  have hlabel : Json.Record.optional? (written s.parts) "id" Json.asString? = some s.label :=
    optional?_string hnodup (by simp [parts])
  have hkind : Json.Record.optional? (written s.parts) "type"
      (fun j => (spelling.name? j).bind DeclaredKind.ofName?) = some s.kind :=
    Json.optional?_written hnodup (fun k : DeclaredKind => .string k.name)
      (by simp [parts]) fun k _ => ⟨nofun, k.ofName?_name⟩
  have hinitial : Json.Record.optional? (written s.parts) "initial" Json.asString? =
      some s.initial := optional?_string hnodup (by simp [parts])
  have hon : Json.Record.orElse? (written s.parts) "on" (Json.mapOf? readTransitions?) .empty =
      some s.on := by
    refine Json.orElse?_written hnodup
      (if s.on.isEmpty then none else some (Json.ofMap transitionsToJson s.on))
      (by simp [parts]) (fun hnone => ?_) fun j hj => ?_
    · have hempty : s.on.isEmpty = true := by simpa using hnone
      exact SortedMap.isEmpty_iff.mp hempty
    · obtain rfl : Json.ofMap transitionsToJson s.on = j := by simp_all
      exact Json.mapOf?_ofMap fun e he => readTransitions?_transitionsToJson (hon e he)
  have honDone : Json.Record.optional? (written s.parts) "onDone" readTransitions? =
      some s.onDone :=
    Json.optional?_written hnodup transitionsToJson (by simp [parts])
      fun fs hfs => ⟨nofun, readTransitions?_transitionsToJson (honDone fs hfs)⟩
  have hentry : Json.Record.orElse? (written s.parts) "entry" readActions? [] = some s.entry :=
    orElse?_listPart hnodup ActionForm.toJson (by simp [parts])
      fun a ha => ActionForm.ofJson?_toJson (hentry a ha)
  have hexit : Json.Record.orElse? (written s.parts) "exit" readActions? [] = some s.exit :=
    orElse?_listPart hnodup ActionForm.toJson (by simp [parts])
      fun a ha => ActionForm.ofJson?_toJson (hexit a ha)
  have hhistory : Json.Record.optional? (written s.parts) "history"
      (fun j => (spelling.name? j).bind HistoryDepth.ofName?) = some s.history :=
    Json.optional?_written hnodup (fun d : HistoryDepth => .string d.name)
      (by simp [parts]) fun d _ => ⟨nofun, d.ofName?_name⟩
  have htarget : Json.Record.optional? (written s.parts) "target" Json.asString? =
      some s.target := optional?_string hnodup (by simp [parts])
  rw [ofRecord?, hlabel, hkind, hinitial, hon, honDone, hentry, hexit, hhistory, htarget]
  cases s
  rfl

/-- The children that are written are read back if each of them is. -/
theorem childrenOfMembers?_membersAll {states : List (String × State)}
    (h : ∀ e ∈ states, ofJson? spelling e.2.toJson = some e.2) :
    childrenOfMembers? spelling (membersAll states) = some states := by
  induction states with
  | nil => rfl
  | cons e rest ih =>
    have he : ofJson? spelling (.object e.2.members) = some e.2 := h e List.mem_cons_self
    rw [membersAll, childrenOfMembers?, he, ih fun e he => h e (List.mem_cons_of_mem _ he)]

/-- A normal state is read back. -/
theorem ofJson?_toJson {s : State} (h : s.Normal) : ofJson? spelling s.toJson = some s := by
  induction h with
  | @mk s hstates hon honDone hentry hexit ih =>
    have hnodup : (s.parts.map Prod.fst).Nodup := by simp [parts]
    have hchildren : statesAmong? spelling (written s.parts) = some s.states := by
      rw [statesAmong?_eq, Json.member?_written
        (if s.states.isEmpty then none else some (.object (membersAll s.states))) hnodup
        (by simp [parts])]
      cases hempty : s.states.isEmpty with
      | true => rw [if_pos rfl, List.isEmpty_iff.mp hempty]
      | false =>
        rw [if_neg Bool.false_ne_true]
        exact childrenOfMembers?_membersAll ih
    rw [toJson, members_eq, ofJson?, Json.record?_written hnodup (by simp [parts, fieldNames])]
    show (statesAmong? spelling (written s.parts)).bind _ = some s
    rw [hchildren, Option.bind_some]
    exact ofRecord?_written (.mk hstates hon honDone hentry hexit)

end State

/-! ## Descriptions -/

namespace Description

variable {d : Description}

/-- The root has no label, and all transitions and actions are normal. -/
structure Normal (d : Description) : Prop where
  label_eq : d.root.label = none
  root : d.root.Normal

/-- An object is read as a description by its only member `id` and by the other ones. -/
theorem ofJson?_eq_some {members : List (String × Json)} : ofJson? (.object members) = some d ↔
    ∃ m, members.filter (fun m => m.1 = "id") = [m] ∧ m.2.asString? = some d.id ∧
      State.ofJson? .insideMachine (.object (members.filter (fun m => m.1 ≠ "id"))) =
        some d.root := by
  rw [ofJson?]
  split
  · rename_i m hm
    rw [hm]
    simp only [Option.bind_eq_bind, Option.bind_eq_some_iff, List.cons.injEq, and_true]
    constructor
    · rintro ⟨id, hid, root, hroot, heq⟩
      obtain rfl := Option.some.inj heq
      exact ⟨m, rfl, hid, hroot⟩
    · rintro ⟨m', rfl, hid, hroot⟩
      exact ⟨d.id, hid, d.root, hroot, rfl⟩
  · rename_i hids
    refine ⟨nofun, ?_⟩
    rintro ⟨m, hm, -⟩
    exact absurd hm (hids m)

/-- A state has no label where none is given. -/
theorem label_of_ofJson? {members : List (String × Json)} {s : State}
    (h : State.ofJson? spelling (.object members) = some s) (hid : ∀ m ∈ members, m.1 ≠ "id") :
    s.label = none := by
  rw [State.ofJson?] at h
  obtain ⟨r, hr, h⟩ := Option.bind_eq_some_iff.mp h
  obtain ⟨states, -, h⟩ := Option.bind_eq_some_iff.mp h
  have hfield : r.field? "id" = none := by
    simp only [Json.record?, Option.ite_none_right_eq_some, Option.some.injEq] at hr
    obtain ⟨-, rfl⟩ := hr
    exact Json.member?_eq_none fun m hm => hid m (List.mem_of_mem_filter hm)
  obtain ⟨-, hlabel, -⟩ := State.fields_of_ofRecord? h
  rw [Json.Record.optional?, hfield, Option.bind_none, Option.some.injEq] at hlabel
  exact hlabel.symm

/-- What is read as a description is normal. -/
theorem normal_of_ofJson? (h : ofJson? j = some d) : d.Normal := by
  cases j with
  | object members =>
    obtain ⟨-, -, -, hroot⟩ := ofJson?_eq_some.mp h
    refine ⟨label_of_ofJson? hroot fun m hm => ?_, State.normal_of_ofJson? _ _ hroot⟩
    simpa using List.of_mem_filter hm
  | null | bool _ | int _ | decimal _ | string _ | array _ => simp [ofJson?] at h

/-- A normal description is read back. -/
theorem ofJson?_toJson_of_normal (h : d.Normal) : ofJson? d.toJson = some d := by
  have hother : ∀ m ∈ d.root.members, m.1 ≠ "id" := by
    intro m hm hid
    rw [State.members_eq, Json.mem_written] at hm
    simp [State.parts, hid, h.label_eq] at hm
  refine ofJson?_eq_some.mpr ⟨("id", .string d.id), ?_, rfl, ?_⟩
  · rw [List.filter_cons_of_pos (by simp), List.filter_eq_nil_iff.mpr]
    simpa using hother
  · rw [List.filter_cons_of_neg (by simp), List.filter_eq_self.mpr]
    · exact State.ofJson?_toJson h.root
    · simpa using hother

/-- What is read is read again from what it is written as, and written again as that. -/
theorem written_reads_back (h : ofJson? j = some d) :
    ofJson? d.toJson = some d ∧ (ofJson? d.toJson).map toJson = some d.toJson := by
  have hback := ofJson?_toJson_of_normal (normal_of_ofJson? h)
  exact ⟨hback, by rw [hback, Option.map_some]⟩

/-- A door in a mixture of spellings: a state as an array, a kind as an object, an event and a key
of a parameter given twice, one transition and one action without a list, a state key given twice,
null for what is absent, and a member that is none of the parts. -/
def doorSpelled : Json :=
  .object [("initial", .string "open"), ("note", .bool true), ("id", .string "door"),
    ("states", .object [
      ("open", .array [.null, .object [("atomic", .object [])], .null, .object [],
        .object [("CLOSE", .string "open"), ("CLOSE", .object [("target", .string "shut"),
          ("cond", .null), ("actions", .object [("type", .string "log"),
            ("params", .object [("n", .int 1), ("m", .null), ("n", .int 2)])])])]]),
      ("shut", .object [("entry", .string "beep"),
        ("on", .object [("OPEN", .array [.string "open", .object [("internal", .bool true)]])])]),
      ("shut", .object [("type", .string "final"), ("onDone", .null)])])]

/-- The door itself. -/
def door : Description where
  id := "door"
  root := { State.empty with
    initial := some "open"
    states := [
      ("open", { State.empty with
        kind := some .atomic
        on := .ofList [("CLOSE", [.detailed { TransitionSpec.empty with
          targets := ["shut"]
          actions := [.detailed ⟨"log", some (.object [("n", .int 2), ("m", .null)])⟩] }])] }),
      ("shut", { State.empty with
        on := .ofList [("OPEN", [.target "open",
          .detailed { TransitionSpec.empty with isInternal := true }])]
        entry := [.named "beep"] }),
      ("shut", { State.empty with kind := some .final })] }

theorem door_reads_back : ofJson? doorSpelled = some door ∧ ofJson? door.toJson = some door ∧
    doorSpelled ≠ door.toJson := by
  have hread : ofJson? doorSpelled = some door := by decide +kernel
  exact ⟨hread, (written_reads_back hread).1, by decide +kernel⟩

end Description

end Statechart
