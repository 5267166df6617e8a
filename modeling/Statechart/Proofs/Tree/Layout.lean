/-
# Statechart.Proofs.Tree.Layout -- laying a description out numbers it in document order

A layout is self-similar: from the number of a state on, it continues with the layout of that state
alone (`layOut_split`). All facts about the tree of a description are read off the block that a
state opens (`Description.exists_block`); together they say that its states are numbered in
document order (`Description.inOrder`).
-/

import Statechart.Chart.Compile
import Statechart.Proofs.Tree.Lineage

namespace Statechart

open State (size sizeAll)

/-! ## Blocks -/

theorem size_eq (s : State) : s.size = sizeAll s.states + 1 := by
  cases s; rfl

theorem layOut_eq (key id : String) (parent : Option Nat) (depth : Nat) (above : List Nat) (k : Nat)
    (s : State) : layOut key id parent depth above k s =
      (⟨key, id, s.label, s.effectiveKind, parent, depth, above,
        childNumbers (k + 1) s.states⟩, s) ::
        layOutAll id (some k) (depth + 1) (k :: above) (k + 1) s.states := by
  cases s; rfl

mutual

theorem length_layOut (key id : String) (parent : Option Nat) (depth : Nat) (above : List Nat)
    (k : Nat) : ∀ s : State, (layOut key id parent depth above k s).length = s.size
  | ⟨label, kind, initial, states, on, onDone, entry, exit, history, target⟩ => by
    rw [layOut_eq, size_eq, List.length_cons, length_layOutAll]

theorem length_layOutAll (id : String) (parent : Option Nat) (depth : Nat) (above : List Nat)
    (k : Nat) : ∀ l : List (String × State),
      (layOutAll id parent depth above k l).length = sizeAll l
  | [] => rfl
  | (key, s) :: rest => by
    rw [layOutAll, List.length_append, length_layOut, length_layOutAll]
    rfl

end

mutual

/-- A layout goes on from each of its states with the layout of that state. -/
theorem layOut_split (key id : String) (parent : Option Nat) (depth : Nat) (above : List Nat)
    (k : Nat) : ∀ (s : State) (i : Nat) (p : Place) (s' : State),
      (layOut key id parent depth above k s)[i]? = some (p, s') →
      ∃ before behind, before.length = i ∧ layOut key id parent depth above k s =
        before ++ layOut p.key p.id p.parent p.depth p.ancestors (k + i) s' ++ behind
  | ⟨label, kind, initial, states, on, onDone, entry, exit, history, target⟩ => by
    intro i p s' h
    cases i with
    | zero =>
      rw [layOut_eq, List.getElem?_cons_zero, Option.some.injEq, Prod.mk.injEq] at h
      obtain ⟨rfl, rfl⟩ := h
      exact ⟨[], [], rfl, by simp⟩
    | succ i =>
      rw [layOut_eq, List.getElem?_cons_succ] at h
      obtain ⟨before, behind, rfl, e⟩ :=
        layOutAll_split id (some k) (depth + 1) (k :: above) (k + 1) states i p s' h
      rw [layOut_eq, e, show k + (before.length + 1) = k + 1 + before.length by omega]
      exact ⟨_ :: before, behind, rfl, rfl⟩

theorem layOutAll_split (id : String) (parent : Option Nat) (depth : Nat) (above : List Nat)
    (k : Nat) : ∀ (l : List (String × State)) (i : Nat) (p : Place) (s' : State),
      (layOutAll id parent depth above k l)[i]? = some (p, s') →
      ∃ before behind, before.length = i ∧ layOutAll id parent depth above k l =
        before ++ layOut p.key p.id p.parent p.depth p.ancestors (k + i) s' ++ behind
  | [] => by
    intro i p s' h
    exact absurd h (by simp [layOutAll])
  | (key, s) :: rest => by
    intro i p s' h
    rw [layOutAll] at h ⊢
    -- a position is in the block of the first sibling or in those of the others
    by_cases hi : i < s.size
    · rw [List.getElem?_append_left (by rwa [length_layOut])] at h
      obtain ⟨before, behind, hb, e⟩ :=
        layOut_split key (id ++ "." ++ key) parent depth above k s i p s' h
      refine ⟨before, behind ++ layOutAll id parent depth above (k + s.size) rest, hb, ?_⟩
      rw [e]
      simp
    · rw [List.getElem?_append_right (by rw [length_layOut]; omega), length_layOut] at h
      obtain ⟨before, behind, hb, e⟩ :=
        layOutAll_split id parent depth above (k + s.size) rest (i - s.size) p s' h
      refine ⟨layOut key (id ++ "." ++ key) parent depth above k s ++ before, behind, ?_, ?_⟩
      · rw [List.length_append, length_layOut, hb]
        omega
      · rw [e, show k + s.size + (i - s.size) = k + i by omega]
        simp

end

mutual

theorem suffix_of_mem_layOut (key id : String) (parent : Option Nat) (depth : Nat)
    (above : List Nat) (k : Nat) : ∀ (s : State) (e : Place × State),
      e ∈ layOut key id parent depth above k s → above <:+ e.1.ancestors
  | ⟨label, kind, initial, states, on, onDone, entry, exit, history, target⟩ => by
    intro e h
    rw [layOut_eq] at h
    rcases List.mem_cons.mp h with rfl | h
    · exact List.suffix_refl above
    · have hsuffix :=
        suffix_of_mem_layOutAll id (some k) (depth + 1) (k :: above) (k + 1) states e h
      exact (List.suffix_cons k above).trans hsuffix

/-- The states of a layout have all that it is laid out below above them. -/
theorem suffix_of_mem_layOutAll (id : String) (parent : Option Nat) (depth : Nat)
    (above : List Nat) (k : Nat) : ∀ (l : List (String × State)) (e : Place × State),
      e ∈ layOutAll id parent depth above k l → above <:+ e.1.ancestors
  | [] => by
    intro e h
    exact absurd h (by simp [layOutAll])
  | (key, s) :: rest => by
    intro e h
    rw [layOutAll] at h
    rcases List.mem_append.mp h with h | h
    · exact suffix_of_mem_layOut key (id ++ "." ++ key) parent depth above k s e h
    · exact suffix_of_mem_layOutAll id parent depth above (k + s.size) rest e h

end

/-! ## Children -/

theorem le_of_mem_childNumbers {k c : Nat} {l : List (String × State)}
    (h : c ∈ childNumbers k l) : k ≤ c := by
  induction l generalizing k with
  | nil => simp [childNumbers] at h
  | cons e rest ih =>
    rcases List.mem_cons.mp h with rfl | h
    · exact Nat.le_refl c
    · exact Nat.le_trans (Nat.le_add_right k e.2.size) (ih h)

theorem childNumbers_ascending (k : Nat) (l : List (String × State)) :
    (childNumbers k l).Pairwise (· < ·) := by
  induction l generalizing k with
  | nil => exact List.Pairwise.nil
  | cons e rest ih =>
    refine List.pairwise_cons.mpr ⟨fun c hc => ?_, ih (k + e.2.size)⟩
    have hle := le_of_mem_childNumbers hc
    have hpos := size_eq e.2
    omega

@[simp] theorem childNumbers_eq_nil {k : Nat} {l : List (String × State)} :
    childNumbers k l = [] ↔ l = [] := by
  cases l <;> simp [childNumbers]

/-- The siblings of a layout stand at their numbers. -/
theorem getElem?_of_mem_childNumbers (id : String) (parent : Option Nat) (depth : Nat)
    (above : List Nat) {k c : Nat} {l : List (String × State)} (h : c ∈ childNumbers k l) :
    ∃ e, (layOutAll id parent depth above k l)[c - k]? = some e ∧ e.1.parent = parent ∧
      e.1.depth = depth ∧ e.1.ancestors = above ∧ e.1.id = id ++ "." ++ e.1.key := by
  induction l generalizing k with
  | nil => simp [childNumbers] at h
  | cons e rest ih =>
    obtain ⟨key, s⟩ := e
    rw [layOutAll]
    rcases List.mem_cons.mp h with rfl | h
    · rw [Nat.sub_self, layOut_eq]
      exact ⟨_, rfl, rfl, rfl, rfl, rfl⟩
    · have hle := le_of_mem_childNumbers h
      obtain ⟨e, he, hplace⟩ := ih h
      refine ⟨e, ?_, hplace⟩
      rw [List.getElem?_append_right (by rw [length_layOut]; omega), length_layOut,
        show c - k - s.size = c - (k + s.size) by omega]
      exact he

mutual

theorem listed_of_mem_layOut (key id : String) (parent : Option Nat) (depth : Nat)
    (above : List Nat) (k : Nat) : ∀ (s : State) (i : Nat), 0 < i → i < s.size →
      ∃ j < i, ∃ e, (layOut key id parent depth above k s)[j]? = some e ∧ k + i ∈ e.1.children
  | ⟨label, kind, initial, states, on, onDone, entry, exit, history, target⟩ => by
    intro i hpos hi
    have hi : i < sizeAll states + 1 := hi
    obtain ⟨i, rfl⟩ := Nat.exists_eq_add_one_of_ne_zero (Nat.ne_of_gt hpos)
    rw [layOut_eq]
    rcases listed_of_mem_layOutAll id (some k) (depth + 1) (k :: above) (k + 1) states i
      (by omega) with h | h
    · exact ⟨0, hpos, _, rfl, by rwa [show k + (i + 1) = k + 1 + i by omega]⟩
    · obtain ⟨j, hj, e, he, hm⟩ := h
      exact ⟨j + 1, by omega, e, he, by rwa [show k + (i + 1) = k + 1 + i by omega]⟩

/-- Every state of a layout is one of the siblings or a child of a state before it. -/
theorem listed_of_mem_layOutAll (id : String) (parent : Option Nat) (depth : Nat)
    (above : List Nat) (k : Nat) : ∀ (l : List (String × State)) (i : Nat), i < sizeAll l →
      k + i ∈ childNumbers k l ∨
        ∃ j < i, ∃ e, (layOutAll id parent depth above k l)[j]? = some e ∧ k + i ∈ e.1.children
  | [] => by
    intro i hi
    exact absurd hi (Nat.not_lt_zero i)
  | (key, s) :: rest => by
    intro i hi
    rw [sizeAll] at hi
    rw [layOutAll, childNumbers]
    by_cases hs : i < s.size
    · rcases Nat.eq_zero_or_pos i with rfl | hpos
      · exact Or.inl (by simp)
      · obtain ⟨j, hj, e, he, hm⟩ :=
          listed_of_mem_layOut key (id ++ "." ++ key) parent depth above k s i hpos hs
        refine Or.inr ⟨j, hj, e, ?_, hm⟩
        rwa [List.getElem?_append_left (by rw [length_layOut]; omega)]
    · rcases listed_of_mem_layOutAll id parent depth above (k + s.size) rest (i - s.size)
        (by omega) with h | h
      · rw [show k + s.size + (i - s.size) = k + i by omega] at h
        exact Or.inl (List.mem_cons_of_mem k h)
      · obtain ⟨j, hj, e, he, hm⟩ := h
        refine Or.inr ⟨s.size + j, by omega, e, ?_, ?_⟩
        · rw [List.getElem?_append_right (by rw [length_layOut]; omega), length_layOut,
            Nat.add_sub_cancel_left]
          exact he
        · rwa [show k + s.size + (i - s.size) = k + i by omega] at hm

end

/-! ## The tree of a description -/

namespace Description

variable {d : Description} {n : Nat}

theorem size_tree (d : Description) : d.tree.size = d.layOut.length := by
  simp [tree, Tree.size]

theorem place_of_getElem? {e : Place × State} (h : d.layOut[n]? = some e) :
    d.tree.place n = e.1 := by
  simp [tree, Tree.place, Tree.place?, h]

/-- The root stands at the beginning of the layout. -/
theorem getElem?_layOut_root (d : Description) : ∃ e, d.layOut[0]? = some e ∧ e.1.parent = none ∧
    e.1.depth = 0 ∧ e.1.ancestors = [] ∧ e.1.key = d.id ∧ e.1.id = d.id := by
  rw [layOut, layOut_eq]
  exact ⟨_, rfl, rfl, rfl, rfl, rfl, rfl⟩

/-- The declaration of a state, and what is laid out after it for its children. -/
theorem exists_block (hn : n < d.tree.size) :
    ∃ s, d.states[n]? = some s ∧ d.tree.kind n = s.effectiveKind ∧
      d.tree.children n = childNumbers (n + 1) s.states ∧
      ∀ i < sizeAll s.states, d.layOut[n + 1 + i]? =
        (layOutAll (d.tree.id n) (some n) (d.tree.depth n + 1) (n :: d.tree.ancestors n) (n + 1)
          s.states)[i]? := by
  rw [size_tree] at hn
  obtain ⟨⟨p, s⟩, he⟩ : ∃ e, d.layOut[n]? = some e := ⟨_, List.getElem?_eq_getElem hn⟩
  have hplace : d.tree.place n = p := place_of_getElem? he
  -- cut the layout where the block of the state begins
  obtain ⟨before, behind, hb, e⟩ := layOut_split d.id d.id none 0 [] 0 d.root n p s he
  have e : d.layOut =
      before ++ Statechart.layOut p.key p.id p.parent p.depth p.ancestors (0 + n) s ++ behind := e
  rw [Nat.zero_add, layOut_eq, List.append_assoc, List.cons_append] at e
  rw [e, List.getElem?_append_right (Nat.le_of_eq hb), hb, Nat.sub_self] at he
  have hp := (Prod.mk.inj (Option.some.inj he)).1
  refine ⟨s, ?_, ?_, ?_, fun i hi => ?_⟩
  · rw [states, List.getElem?_map, e, List.getElem?_append_right (Nat.le_of_eq hb), hb,
      Nat.sub_self]
    rfl
  · rw [Tree.kind, hplace, ← hp]
  · rw [Tree.children, hplace, ← hp]
  · rw [Tree.id, Tree.depth, Tree.ancestors, hplace, e, List.getElem?_append_right (by omega), hb,
      show n + 1 + i - n = i + 1 by omega, List.getElem?_cons_succ,
      List.getElem?_append_left (by rwa [length_layOutAll])]

/-- A child stands in the block of its parent. -/
theorem child_block {c : Nat} (hc : c ∈ d.tree.children n) :
    n < c ∧ c < d.tree.size ∧ d.tree.parent? c = some n ∧ d.tree.depth c = d.tree.depth n + 1 ∧
      d.tree.ancestors c = n :: d.tree.ancestors n ∧
      d.tree.id c = d.tree.id n ++ "." ++ d.tree.key c := by
  obtain ⟨s, -, -, hch, hblock⟩ := exists_block (Tree.lt_size_of_child hc)
  rw [hch] at hc
  have hle := le_of_mem_childNumbers hc
  obtain ⟨x, hx, hparent, hdepth, habove, hid⟩ := getElem?_of_mem_childNumbers (d.tree.id n)
    (some n) (d.tree.depth n + 1) (n :: d.tree.ancestors n) hc
  have hlen := (List.getElem?_eq_some_iff.mp hx).1
  rw [length_layOutAll] at hlen
  rw [← hblock _ hlen, show n + 1 + (c - (n + 1)) = c by omega] at hx
  refine ⟨hle, ?_, ?_, ?_, ?_, ?_⟩
  · rw [size_tree]
    exact (List.getElem?_eq_some_iff.mp hx).1
  · rw [Tree.parent?, place_of_getElem? hx, hparent]
  · rw [Tree.depth, place_of_getElem? hx, hdepth]
  · rw [Tree.ancestors, place_of_getElem? hx, habove]
  · rw [Tree.key, Tree.id, place_of_getElem? hx, hid]

/-- The id of a child is that of its parent with its own key behind. -/
theorem id_child {c : Nat} (hc : c ∈ d.tree.children n) :
    d.tree.id c = d.tree.id n ++ "." ++ d.tree.key c := (child_block hc).2.2.2.2.2

/-- What stands in the block of a state lies below it. -/
theorem below_of_lt_block {m : Nat} {s : State} (hs : d.states[n]? = some s) (hnm : n < m)
    (hm : m < n + s.size) : d.tree.Below m n := by
  have hn : n < d.tree.size := by
    rw [size_tree, ← List.length_map, ← states]
    exact (List.getElem?_eq_some_iff.mp hs).1
  obtain ⟨s', hs', -, -, hblock⟩ := exists_block hn
  obtain rfl := Option.some.inj (hs'.symm.trans hs)
  rw [size_eq] at hm
  obtain ⟨y, hy⟩ : ∃ y, (layOutAll (d.tree.id n) (some n) (d.tree.depth n + 1)
      (n :: d.tree.ancestors n) (n + 1) s'.states)[m - (n + 1)]? = some y :=
    ⟨_, List.getElem?_eq_getElem (by rw [length_layOutAll]; omega)⟩
  -- what stands in the block has all above it that the block is laid out below
  have hsuffix := suffix_of_mem_layOutAll _ _ _ _ _ _ y (List.mem_of_getElem? hy)
  rw [← hblock _ (by omega), show n + 1 + (m - (n + 1)) = m by omega] at hy
  rw [Tree.Below, Tree.ancestors, place_of_getElem? hy]
  exact hsuffix.subset (by simp)

/-- Between a state and a child of it stand only states from its block. -/
theorem below_of_between {p c : Nat} (hc : c ∈ d.tree.children p) (hpn : p < n) (hnc : n < c) :
    d.tree.Below n p := by
  obtain ⟨s, hs, -, hch, -⟩ := exists_block (Tree.lt_size_of_child hc)
  rw [hch] at hc
  obtain ⟨x, hx, -⟩ := getElem?_of_mem_childNumbers (d.tree.id p) (some p)
    (d.tree.depth p + 1) (p :: d.tree.ancestors p) hc
  have hlen := (List.getElem?_eq_some_iff.mp hx).1
  rw [length_layOutAll] at hlen
  refine below_of_lt_block hs hpn ?_
  rw [size_eq]
  omega

/-- The states of a description are numbered in document order. -/
theorem inOrder (d : Description) : d.tree.InOrder where
  size_pos := by
    rw [size_tree, layOut, length_layOut, size_eq]
    omega
  parent?_root := by
    obtain ⟨e, he, hp, -⟩ := d.getElem?_layOut_root
    rw [Tree.parent?, Tree.root, place_of_getElem? he, hp]
  parent?_child := fun hc => (child_block hc).2.2.1
  depth_root := by
    obtain ⟨e, he, -, hd, -⟩ := d.getElem?_layOut_root
    rw [Tree.depth, Tree.root, place_of_getElem? he, hd]
  depth_child := fun hc => (child_block hc).2.2.2.1
  ancestors_root := by
    obtain ⟨e, he, -, -, ha, -⟩ := d.getElem?_layOut_root
    rw [Tree.ancestors, Tree.root, place_of_getElem? he, ha]
  ancestors_child := fun hc => (child_block hc).2.2.2.2.1
  lt_child := fun hc => (child_block hc).1
  child_lt_size := fun hc => (child_block hc).2.1
  exists_parent := by
    intro n hne hn
    rw [size_tree, layOut, length_layOut] at hn
    obtain ⟨j, -, e, he, hm⟩ := listed_of_mem_layOut d.id d.id none 0 [] 0 d.root n
      (Nat.pos_of_ne_zero hne) hn
    rw [Nat.zero_add] at hm
    exact ⟨j, by rwa [Tree.children, place_of_getElem? he]⟩
  below_of_between := below_of_between
  children_ascending := by
    intro n
    by_cases hn : n < d.tree.size
    · obtain ⟨s, -, -, hch, -⟩ := exists_block hn
      rw [hch]
      exact childNumbers_ascending (n + 1) s.states
    · rw [Tree.children_of_size_le (Nat.le_of_not_lt hn)]
      exact List.Pairwise.nil

end Description

end Statechart
