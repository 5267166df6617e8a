/-
# Statechart.Proofs.Tree.Declared -- states and their declarations

Each state of the tree of a description comes from one declaration, and its place repeats what the
declaration says: its label, its kind, and the keys and kinds of its children
(`Description.map_children`), which are declared by the children of its declaration
(`Description.states_child`). What is found by looking at the places is therefore found by looking
at the declarations, even where keys come twice.
-/

import Statechart.Proofs.Tree.Layout

namespace Statechart

namespace Description

/-- The declaration of a state; an empty one if there is no such state. -/
def declaration (d : Description) (n : Nat) : State := (d.states[n]?).getD .empty

variable {d : Description} {n : Nat} {s : State}

theorem declaration_of_getElem? (hs : d.states[n]? = some s) : d.declaration n = s := by
  rw [declaration, hs]
  rfl

theorem declaration_root (d : Description) : d.declaration Tree.root = d.root := by
  rw [declaration, states, layOut, layOut_eq]
  rfl

theorem length_states (d : Description) : d.states.length = d.tree.size := by
  rw [states, List.length_map, size_tree]

theorem getElem?_states (hn : n < d.tree.size) : d.states[n]? = some (d.declaration n) := by
  rw [← length_states] at hn
  rw [declaration, List.getElem?_eq_getElem hn, Option.getD_some]

/-- A pass over all declarations is a pass over the numbers of the states. -/
theorem mapIdx_states {α : Type} (f : Nat → State → α) :
    d.states.mapIdx f = (List.range d.tree.size).map (fun n => f n (d.declaration n)) := by
  refine List.ext_getElem? fun n => ?_
  rw [List.getElem?_mapIdx, List.getElem?_map]
  by_cases hn : n < d.tree.size
  · rw [List.getElem?_range hn, getElem?_states hn]
    rfl
  · have hn := Nat.le_of_not_lt hn
    rw [List.getElem?_eq_none (by rwa [length_states]),
      List.getElem?_eq_none (by rwa [List.length_range])]
    rfl

theorem places_eq (t : Tree) : t.places.toList = (List.range t.size).map t.place := by
  refine List.ext_getElem? fun n => ?_
  rw [List.getElem?_map]
  by_cases hn : n < t.size
  · rw [List.getElem?_range hn]
    have hn : n < t.places.size := hn
    simp [Tree.place, Tree.place?, hn]
  · have hn : t.places.size ≤ n := Nat.le_of_not_lt hn
    simp [Tree.size, hn]

/-! ## What places repeat -/

/-- A state has the label and the kind of its declaration. -/
theorem place_declaration (hn : n < d.tree.size) :
    (d.tree.place n).label = (d.declaration n).label ∧
      d.tree.kind n = (d.declaration n).effectiveKind := by
  rw [size_tree] at hn
  obtain ⟨⟨p, s⟩, he⟩ : ∃ e, d.layOut[n]? = some e := ⟨_, List.getElem?_eq_getElem hn⟩
  have hplace : d.tree.place n = p := place_of_getElem? he
  have hs : d.declaration n = s := by
    rw [declaration, states, List.getElem?_map, he]
    rfl
  obtain ⟨before, behind, hb, e⟩ := layOut_split d.id d.id none 0 [] 0 d.root n p s he
  have e : d.layOut =
      before ++ Statechart.layOut p.key p.id p.parent p.depth p.ancestors (0 + n) s ++ behind := e
  rw [layOut_eq, List.append_assoc, List.cons_append] at e
  rw [e, List.getElem?_append_right (Nat.le_of_eq hb), hb, Nat.sub_self] at he
  have hp := (Prod.mk.inj (Option.some.inj he)).1
  rw [Tree.kind, hplace, hs, ← hp]
  exact ⟨rfl, rfl⟩

end Description

/-- Sibling states have the keys and kinds of their declarations. -/
theorem map_childNumbers {place : Nat → Place} (id : String) (parent : Option Nat) (depth : Nat)
    (above : List Nat) {k : Nat} {l : List (String × State)}
    (h : ∀ i e, (layOutAll id parent depth above k l)[i]? = some e → place (k + i) = e.1) :
    (childNumbers k l).map (fun c => ((place c).key, (place c).kind)) =
      l.map (fun e => (e.1, e.2.effectiveKind)) := by
  induction l generalizing k with
  | nil => rfl
  | cons e rest ih =>
    obtain ⟨key, s⟩ := e
    rw [layOutAll] at h
    rw [childNumbers, List.map_cons, List.map_cons, ih]
    · rw [layOut_eq] at h
      rw [show place k = _ from h 0 _ rfl]
    · intro i e he
      rw [Nat.add_assoc]
      refine h (s.size + i) e ?_
      rwa [List.getElem?_append_right (by rw [length_layOut]; omega), length_layOut,
        Nat.add_sub_cancel_left]

/-- Sibling states stand at their numbers, with all that is declared below them after them. -/
theorem exists_sibling (id : String) (parent : Option Nat) (depth : Nat) (above : List Nat)
    {k i c : Nat} {l : List (String × State)} (h : (childNumbers k l)[i]? = some c) :
    ∃ p s, l[i]? = some (p.key, s) ∧
      (layOutAll id parent depth above k l)[c - k]? = some (p, s) ∧
      k ≤ c ∧ c + s.size ≤ k + State.sizeAll l := by
  induction l generalizing k i with
  | nil => simp [childNumbers] at h
  | cons e rest ih =>
    obtain ⟨key, s⟩ := e
    rw [childNumbers] at h
    rw [layOutAll, State.sizeAll]
    cases i with
    | zero =>
      obtain rfl := Option.some.inj h
      rw [layOut_eq, Nat.sub_self]
      exact ⟨_, s, rfl, rfl, Nat.le_refl k, by omega⟩
    | succ i =>
      rw [List.getElem?_cons_succ] at h
      obtain ⟨p, s', hl, hp, hle, hend⟩ := ih h
      refine ⟨p, s', hl, ?_, by omega, by omega⟩
      rw [List.getElem?_append_right (by rw [length_layOut]; omega), length_layOut,
        show c - k - s.size = c - (k + s.size) by omega]
      exact hp

namespace Description

variable {d : Description} {n : Nat}

/-- The child in a place is declared by the child of the declaration in that place, and what is
declared below it is part of what is declared below its parent. -/
theorem states_child {i c : Nat} (h : (d.tree.children n)[i]? = some c) :
    (d.declaration n).states[i]? = some (d.tree.key c, d.declaration c) ∧
      c + (d.declaration c).size ≤ n + (d.declaration n).size := by
  have hn : n < d.tree.size := Tree.lt_size_of_child (List.mem_of_getElem? h)
  obtain ⟨s, hs, -, hch, hblock⟩ := exists_block hn
  rw [hch] at h
  obtain ⟨p, s', hl, hp, hle, hend⟩ := exists_sibling (d.tree.id n) (some n)
    (d.tree.depth n + 1) (n :: d.tree.ancestors n) h
  have hlen := (List.getElem?_eq_some_iff.mp hp).1
  rw [length_layOutAll] at hlen
  rw [← hblock _ hlen, show n + 1 + (c - (n + 1)) = c by omega] at hp
  have hc : d.states[c]? = some s' := by rw [states, List.getElem?_map, hp]; rfl
  rw [declaration_of_getElem? hs, declaration_of_getElem? hc, Tree.key, place_of_getElem? hp,
    size_eq s]
  exact ⟨hl, by omega⟩

/-- The children of a state have the keys and kinds that are declared, in the same order. -/
theorem map_children (hn : n < d.tree.size) :
    (d.tree.children n).map (fun c => (d.tree.key c, d.tree.kind c)) =
      (d.declaration n).states.map (fun e => (e.1, e.2.effectiveKind)) := by
  obtain ⟨s, hs, -, hch, hblock⟩ := exists_block hn
  rw [hch, declaration_of_getElem? hs]
  refine map_childNumbers (d.tree.id n) (some n) (d.tree.depth n + 1) (n :: d.tree.ancestors n)
    fun i e he => ?_
  have hlen := (List.getElem?_eq_some_iff.mp he).1
  rw [length_layOutAll] at hlen
  exact place_of_getElem? ((hblock i hlen).trans he)

theorem length_children (hn : n < d.tree.size) :
    (d.tree.children n).length = (d.declaration n).states.length := by
  have h := congrArg List.length (map_children hn)
  rwa [List.length_map, List.length_map] at h

/-- The first child with a key has the kind of the first declared one. -/
theorem map_childByKey? (hn : n < d.tree.size) (key : String) :
    (d.tree.childByKey? n key).map d.tree.kind =
      ((d.declaration n).child? key).map State.effectiveKind := by
  have h := congrArg (fun l => (l.find? (fun e => e.1 = key)).map Prod.snd) (map_children hn)
  simpa [List.find?_map, Function.comp_def, Tree.childByKey?, State.child?] using h

/-- A state can begin in a child with a key if the first declared one is no history state. -/
theorem isSome_initialChild? (hn : n < d.tree.size) (key : String) :
    (d.tree.initialChild? n key).isSome = true ↔
      ∃ c, (d.declaration n).child? key = some c ∧ c.effectiveKind.isHistory = false := by
  have hkind := map_childByKey? hn key
  rw [Tree.initialChild?]
  cases hc : d.tree.childByKey? n key with
  | none =>
    rw [hc] at hkind
    simp [Option.map_eq_none_iff.mp hkind.symm]
  | some c =>
    rw [hc] at hkind
    obtain ⟨s, hs, hk⟩ := Option.map_eq_some_iff.mp hkind.symm
    simp [hs, hk, Option.isSome_filter]

/-- A state has no regions if it declares only history states. -/
theorem regions_eq_nil (hn : n < d.tree.size) :
    d.tree.regions n = [] ↔
      ∀ e ∈ (d.declaration n).states, e.2.effectiveKind.isHistory = true := by
  have h := congrArg (fun l => l.all (fun e => e.2.isHistory)) (map_children hn)
  simp only [List.all_map, Function.comp_def] at h
  rw [← List.all_eq_true, ← h]
  simp [Tree.regions, List.filter_eq_nil_iff]

end Description

end Statechart
