/-
# Statechart.Proofs.Tree.Addresses -- a machine shows the states of its description

A state of a description has an address: the numbers of the children to go down through, counted
from zero at each level (`State.reach?`). The tree of a machine is a list of places that know
nothing of addresses, but these can be read off it (`Tree.address`). `Tree.Depicts` says what makes
a tree the picture of a description: numbers follow the lexicographic order of addresses, each place
repeats what is declared at its address, and what the tree is asked is answered as it would be by
looking at the description. What compiles is depicted so (`Description.depicted_of_compile`).
-/

import Mathlib.Data.List.Induction
import Statechart.Proofs.Tree.Climbing
import Statechart.Proofs.Tree.Declared
import Statechart.Proofs.Tree.Keys

namespace Statechart

/-! ## Addresses in a description -/

namespace State

/-- What is at an address: the keys that are passed on the way there, and the state. -/
def reach? : State → List Nat → Option (List String × State)
  | s, [] => some ([], s)
  | s, i :: address =>
    (s.states[i]?).bind fun e => (e.2.reach? address).map fun found => (e.1 :: found.1, found.2)

theorem reach?_concat {s : State} {address : List Nat} {i : Nat} :
    s.reach? (address ++ [i]) = (s.reach? address).bind fun found =>
      (found.2.states[i]?).map fun e => (found.1 ++ [e.1], e.2) := by
  induction address generalizing s with
  | nil => cases h : s.states[i]? <;> simp [reach?, h]
  | cons j address ih =>
    rw [List.cons_append, reach?, reach?]
    cases s.states[j]? with
    | none => rfl
    | some e =>
      simp only [Option.bind_some, ih, Option.map_bind, Option.bind_map, Function.comp_def,
        Option.map_map, List.cons_append]

end State

/-! ## Addresses in a tree -/

namespace Tree

/-- How many siblings come before a state. -/
def rank (t : Tree) (n : Nat) : Nat :=
  match t.parent? n with
  | none => 0
  | some p => (t.children p).idxOf n

/-- The ranks on the way from the root to a state, without the root's. -/
def address (t : Tree) (n : Nat) : List Nat :=
  (((t.lineage n).filter (fun m => m ≠ root)).map t.rank).reverse

variable {t : Tree} {a b c m n p : Nat}

namespace InOrder

variable (ht : t.InOrder)
include ht

theorem rank_child (hc : c ∈ t.children p) : t.rank c = (t.children p).idxOf c := by
  rw [rank, ht.parent?_child hc]

theorem children_rank (hc : c ∈ t.children p) : (t.children p)[t.rank c]? = some c := by
  rw [ht.rank_child hc, List.getElem?_idxOf hc]

theorem rank_eq {i : Nat} (h : (t.children p)[i]? = some c) : t.rank c = i := by
  obtain ⟨hi, rfl⟩ := List.getElem?_eq_some_iff.mp h
  rw [ht.rank_child (List.getElem_mem hi), (ht.nodup_children p).idxOf_getElem]

/-- Later siblings have higher ranks. -/
theorem rank_lt (hb : b ∈ t.children p) (hc : c ∈ t.children p) (h : b < c) :
    t.rank b < t.rank c := by
  obtain ⟨hi, hib⟩ := List.getElem?_eq_some_iff.mp (ht.children_rank hb)
  obtain ⟨hj, hjc⟩ := List.getElem?_eq_some_iff.mp (ht.children_rank hc)
  rcases Nat.lt_trichotomy (t.rank b) (t.rank c) with hlt | heq | hgt
  · exact hlt
  · simp only [heq, hjc] at hib
    omega
  · have hcb := List.pairwise_iff_getElem.mp (ht.children_ascending p) _ _ hj hi hgt
    omega

@[simp] theorem address_root : t.address root = [] := by
  simp [address, lineage, ht.ancestors_root]

/-- The address of a child is that of its parent with its rank behind. -/
theorem address_child (hc : c ∈ t.children p) : t.address c = t.address p ++ [t.rank c] :=
  ht.way_child t.rank hc

theorem length_address (hn : n < t.size) : (t.address n).length = (t.ancestors n).length := by
  induction n, hn using ht.induction with
  | root => rw [ht.address_root, ht.ancestors_root]
  | child p c hc ih =>
    rw [ht.address_child hc, ht.ancestors_child hc, List.length_append, ih]
    rfl

/-- The address of a state begins with those of the states around it. -/
theorem prefix_address (h : t.Within n p) : t.address p <+: t.address n :=
  ht.prefix_of_within (fun hc => ht.address_child hc ▸ List.prefix_append _ _) h

/-- A state comes before another if its address comes before the other's. -/
theorem address_lt (hm : m < t.size) (hn : n < t.size) (h : m < n) :
    t.address m < t.address n := by
  by_cases hnm : t.Within n m
  · -- what lies below a state goes on from its address
    obtain ⟨c, hc, hnc⟩ := ht.exists_child_within (hnm.below_of_ne (Nat.ne_of_gt h))
    obtain ⟨rest, hrest⟩ := ht.prefix_address hnc
    rw [← hrest, ht.address_child hc, List.append_assoc]
    have hlonger : t.address m ++ [] < t.address m ++ t.rank c :: rest :=
      List.append_left_lt (List.nil_lt_cons (t.rank c) rest)
    rwa [List.append_nil] at hlonger
  · -- otherwise the two go different ways from some state on
    have hmn : ¬ t.Within m n := fun hmn => Nat.not_le_of_lt h (ht.le_of_within hmn)
    obtain ⟨p, q, q', hq, hq', hne, hmq, hnq'⟩ := ht.exists_split hm hn hmn hnm
    have hlt : q < q' := by
      refine Nat.lt_of_le_of_ne (Nat.le_of_not_lt fun hgt => ?_) hne
      have hnq := ht.lt_of_within_child hq' hq hgt hnq'
      exact absurd (ht.le_of_within hmq) (by omega)
    obtain ⟨rest, hrest⟩ := ht.prefix_address hmq
    obtain ⟨rest', hrest'⟩ := ht.prefix_address hnq'
    rw [← hrest, ← hrest', ht.address_child hq, ht.address_child hq', List.append_assoc,
      List.append_assoc]
    exact List.append_left_lt (List.cons_lt_cons_iff.mpr (Or.inl (ht.rank_lt hq hq' hlt)))

/-- Numbers follow the lexicographic order of addresses. -/
theorem address_lt_iff (hm : m < t.size) (hn : n < t.size) :
    t.address m < t.address n ↔ m < n := by
  refine ⟨fun h => ?_, ht.address_lt hm hn⟩
  rcases Nat.lt_trichotomy m n with hlt | rfl | hgt
  · exact hlt
  · exact absurd h (List.lt_irrefl _)
  · exact absurd (ht.address_lt hn hm hgt) (List.lt_asymm h)

theorem address_inj (hm : m < t.size) (hn : n < t.size) (h : t.address m = t.address n) :
    m = n := by
  rcases Nat.lt_trichotomy m n with hlt | heq | hgt
  · exact absurd (ht.address_lt hm hn hlt) (h ▸ List.lt_irrefl _)
  · exact heq
  · exact absurd (ht.address_lt hn hm hgt) (h ▸ List.lt_irrefl _)

/-- A state is around another if its address is the beginning of the other's. -/
theorem prefix_address_iff (hp : p < t.size) (hn : n < t.size) :
    t.address p <+: t.address n ↔ t.Within n p := by
  refine ⟨fun h => ?_, fun h => ht.prefix_address h⟩
  induction n, hn using ht.induction with
  | root =>
    rw [ht.address_root, List.prefix_nil, ← ht.address_root] at h
    exact ht.address_inj hp ht.size_pos h ▸ within_self t p
  | child q c hc ih =>
    rw [ht.address_child hc, List.prefix_concat_iff, ← ht.address_child hc] at h
    rcases h with h | h
    · exact ht.address_inj hp (ht.child_lt_size hc) h ▸ within_self t p
    · exact ((ht.below_child_iff hc).mpr (ih h)).within

/-- It lies above if the two are not the same. -/
theorem below_iff_address (hp : p < t.size) (hn : n < t.size) :
    t.Below n p ↔ t.address p <+: t.address n ∧ n ≠ p := by
  rw [ht.prefix_address_iff hp hn]
  exact ⟨fun h => ⟨h.within, fun e => ht.not_below_self (e ▸ h)⟩,
    fun ⟨h, hne⟩ => h.below_of_ne hne⟩

theorem parent?_iff_address (hp : p < t.size) (hn : n < t.size) :
    t.parent? n = some p ↔ ∃ i, t.address n = t.address p ++ [i] := by
  rw [ht.parent?_eq_some]
  refine ⟨fun h => ⟨t.rank n, ht.address_child h⟩, fun ⟨i, hi⟩ => ?_⟩
  have hne : n ≠ root := by
    rintro rfl
    rw [ht.address_root] at hi
    exact absurd hi (by simp)
  obtain ⟨q, hq⟩ := ht.exists_parent hne hn
  rw [ht.address_child hq] at hi
  obtain rfl := ht.address_inj (lt_size_of_child hq) hp (List.append_inj_left' hi rfl)
  exact hq

/-- The addresses of the children of a state. -/
theorem map_address_children (p : Nat) :
    (t.children p).map t.address =
      (List.range (t.children p).length).map fun i => t.address p ++ [i] := by
  refine List.ext_getElem? fun i => ?_
  rw [List.getElem?_map, List.getElem?_map]
  cases hc : (t.children p)[i]? with
  | none => rw [List.getElem?_eq_none (by simpa using hc)]; rfl
  | some c =>
    rw [List.getElem?_range (List.getElem?_eq_some_iff.mp hc).1, Option.map_some, Option.map_some,
      ht.address_child (List.mem_of_getElem? hc), ht.rank_eq hc]

/-- Of all states around two others, the innermost has the longest address. -/
theorem commonAncestor_deepest (ha : a < t.size) (hb : b < t.size) :
    t.Within a (t.commonAncestor a b) ∧ t.Within b (t.commonAncestor a b) ∧
      ∀ n, t.Within a n → t.Within b n → n ≠ t.commonAncestor a b →
        (t.address n).length < (t.address (t.commonAncestor a b)).length := by
  obtain ⟨hac, hbc, hall⟩ := ht.commonAncestor_spec ha hb
  refine ⟨hac, hbc, fun n hna hnb hne => ?_⟩
  have hc := ht.lt_size_of_within hac ha
  have hn := ht.lt_size_of_within hna ha
  have hbegins := ht.prefix_address (hall n hna hnb)
  refine Nat.lt_of_le_of_ne hbegins.length_le fun hlen => hne ?_
  exact ht.address_inj hn hc (hbegins.eq_of_length hlen)

end InOrder

/-- A tree is the picture of a description: its states are those at the addresses, numbered in
preorder, and what it is asked about them is answered as the description would have it. -/
structure Depicts (t : Tree) (d : Description) : Prop where
  /-- Every state has an address. -/
  exists_reach : ∀ {n}, n < t.size → ∃ keys s, d.root.reach? (t.address n) = some (keys, s)
  /-- Every address has a state. -/
  exists_number : ∀ {address keys s}, d.root.reach? address = some (keys, s) →
    ∃ n < t.size, t.address n = address
  /-- A state comes before those below it, and these before the next one beside it. -/
  lt_iff : ∀ {m n}, m < t.size → n < t.size → (m < n ↔ t.address m < t.address n)
  /-- A state stands with its key, its full id, its label and its kind. -/
  place : ∀ {n keys s}, n < t.size → d.root.reach? (t.address n) = some (keys, s) →
    (d.id :: keys).getLast? = some (t.key n) ∧ t.id n = Path.join (d.id :: keys) ∧
      (t.place n).label = s.label ∧ t.kind n = s.effectiveKind
  depth : ∀ {n}, n < t.size → t.depth n = (t.address n).length
  parent? : ∀ {n p}, n < t.size → p < t.size →
    (t.parent? n = some p ↔ ∃ i, t.address n = t.address p ++ [i])
  /-- The children are those that are written, in the same order. -/
  children : ∀ {n keys s}, n < t.size → d.root.reach? (t.address n) = some (keys, s) →
    (t.children n).map t.address =
      (List.range s.states.length).map fun i => t.address n ++ [i]
  /-- What lies below a state follows it without a gap. -/
  block : ∀ {m n keys s}, n < t.size → d.root.reach? (t.address n) = some (keys, s) →
    (t.isDescendant? m n = some true ↔ n < m ∧ m < n + s.size)
  /-- Climbing from the parent on passes the states above one, those that it lies below. -/
  upwards? : ∀ {n}, n < t.size → ∃ above, t.upwards? (t.parent? n) = some above ∧
    above = t.ancestors n ∧
      ∀ {a}, a < t.size → (a ∈ above ↔ t.address a <+: t.address n ∧ n ≠ a)
  /-- A state lies below another if its address goes on from the other's. -/
  isDescendant? : ∀ {a b}, a < t.size → b < t.size →
    t.isDescendant? a b = some (t.isBelow a b) ∧
      (t.isBelow a b = true ↔ t.address b <+: t.address a ∧ a ≠ b)
  /-- Climbing finds the common ancestor, and that is the deepest state around both. -/
  commonAncestor? : ∀ {a b}, a < t.size → b < t.size →
    ∃ c, t.commonAncestor? a b = some c ∧ c = t.commonAncestor a b ∧ c < t.size ∧
      t.address c <+: t.address a ∧ t.address c <+: t.address b ∧
      ∀ n < t.size, t.address n <+: t.address a → t.address n <+: t.address b → n ≠ c →
        (t.address n).length < (t.address c).length
  lookup? : ∀ {name n}, t.lookup? name = some n ↔
    n < t.size ∧ (t.id n = name ∨ (t.place n).label = some name)
  findPath? : ∀ {path n}, t.findPath? path = some n ↔
    n < t.size ∧ ∃ keys s, d.root.reach? (t.address n) = some (keys, s) ∧ keys ≠ [] ∧
      path = Path.join keys

end Tree

/-! ## The tree of a description -/

namespace Description

variable {d : Description} {m n : Nat}

theorem place_root (d : Description) :
    d.tree.key Tree.root = d.id ∧ d.tree.id Tree.root = d.id := by
  obtain ⟨e, he, -, -, -, hkey, hid⟩ := d.getElem?_layOut_root
  rw [Tree.key, Tree.id, Tree.root, place_of_getElem? he]
  exact ⟨hkey, hid⟩

/-- The address of a state leads to its declaration, by the keys on the way to it. -/
theorem reach?_address (hn : n < d.tree.size) :
    d.root.reach? (d.tree.address n) = some (d.tree.keyPath n, d.declaration n) := by
  have ht := d.inOrder
  induction n, hn using ht.induction with
  | root => rw [ht.address_root, ht.keyPath_root, declaration_root]; rfl
  | child p c hc ih =>
    rw [ht.address_child hc, State.reach?_concat, ih, ht.keyPath_child hc]
    simp [(states_child (ht.children_rank hc)).1]

/-- What is found at an address has a number. -/
theorem exists_number {address : List Nat} {found : List String × State}
    (h : d.root.reach? address = some found) : ∃ n < d.tree.size, d.tree.address n = address := by
  have ht := d.inOrder
  induction address using List.reverseRecOn generalizing found with
  | nil => exact ⟨Tree.root, ht.size_pos, ht.address_root⟩
  | append_singleton address i ih =>
    rw [State.reach?_concat] at h
    obtain ⟨above, habove, hbelow⟩ := Option.bind_eq_some_iff.mp h
    obtain ⟨p, hp, rfl⟩ := ih habove
    rw [reach?_address hp, Option.some.injEq] at habove
    obtain ⟨e, he, -⟩ := Option.map_eq_some_iff.mp hbelow
    rw [← habove] at he
    have hi : i < (d.tree.children p).length := by
      rw [length_children hp]
      exact (List.getElem?_eq_some_iff.mp he).1
    have hc : (d.tree.children p)[i]? = some (d.tree.children p)[i] := List.getElem?_eq_getElem hi
    have hmem := List.mem_of_getElem? hc
    exact ⟨_, ht.child_lt_size hmem, by rw [ht.address_child hmem, ht.rank_eq hc]⟩

/-- The key of a state is the last on the way to it. -/
theorem getLast?_keyPath (hn : n < d.tree.size) :
    (d.id :: d.tree.keyPath n).getLast? = some (d.tree.key n) := by
  have ht := d.inOrder
  induction n, hn using ht.induction with
  | root => rw [ht.keyPath_root, (place_root d).1]; rfl
  | child p c hc ih =>
    rw [ht.keyPath_child hc, ← List.cons_append, List.getLast?_concat]

/-- The full id of a state is that of the machine with the keys to the state behind. -/
theorem id_eq_join (hn : n < d.tree.size) :
    d.tree.id n = Path.join (d.id :: d.tree.keyPath n) := by
  have ht := d.inOrder
  induction n, hn using ht.induction with
  | root => rw [ht.keyPath_root, (place_root d).2]; rfl
  | child p c hc ih =>
    rw [id_child hc, ih, ht.keyPath_child hc, ← List.cons_append,
      Path.join_append (List.cons_ne_nil _ _) (List.cons_ne_nil _ _)]
    rfl

/-- What lies below a state stands in its block. -/
theorem lt_block_of_below (h : d.tree.Below m n) : m < n + (d.declaration n).size := by
  have ht := d.inOrder
  generalize hj : m - n = j
  -- inwards, from the child that the state lies within
  induction j using Nat.strongRecOn generalizing n with
  | ind j ih =>
    obtain ⟨c, hc, hmc⟩ := ht.exists_child_within h
    have hend := (states_child (ht.children_rank hc)).2
    have hnc := ht.lt_child hc
    rcases Tree.within_iff.mp hmc with rfl | hbelow
    · have hpos := size_eq (d.declaration m)
      omega
    · have hcm := ht.lt_of_below hbelow
      have hlt := ih (m - c) (by omega) hbelow rfl
      omega

/-- The states below one are those of its block. -/
theorem below_iff_block (hn : n < d.tree.size) :
    d.tree.Below m n ↔ n < m ∧ m < n + (d.declaration n).size := by
  exact ⟨fun h => ⟨d.inOrder.lt_of_below h, lt_block_of_below h⟩,
    fun ⟨hnm, hm⟩ => below_of_lt_block (getElem?_states hn) hnm hm⟩

variable {γ : Type} {guards : Guards γ} {options : Options}

/-- What compiles shows the states of its description. Each state has the number that its address
has among all addresses in lexicographic order, with the key, full id, label, kind, parent, depth
and children that are declared there; what is found by climbing from parent to parent, and what is
looked up by names and paths, is what the description has. -/
theorem depicted_of_compile {m : Machine γ} (h : d.compile guards options = .ok m) :
    m.Depicts d := by
  have haccepted := violations_of_compile h
  have hnamed := wellNamed_of_accepted haccepted
  have hkeyed := keyed_of_wellNamed hnamed
  have ht := d.inOrder
  have hm : m.toTree = d.tree := by rw [compile_eq h]; rfl
  rw [hm]
  have hfound : ∀ {n keys s}, n < d.tree.size →
      d.root.reach? (d.tree.address n) = some (keys, s) →
      d.tree.keyPath n = keys ∧ d.declaration n = s := fun hn hs => by
    rwa [reach?_address hn, Option.some.injEq, Prod.mk.injEq] at hs
  exact {
    exists_reach := fun hn => ⟨_, _, reach?_address hn⟩
    exists_number := exists_number
    lt_iff := fun hm hn => (ht.address_lt_iff hm hn).symm
    place := by
      intro n keys s hn hs
      obtain ⟨rfl, rfl⟩ := hfound hn hs
      exact ⟨getLast?_keyPath hn, id_eq_join hn, place_declaration hn⟩
    depth := fun hn => by rw [ht.depth_eq, ht.length_address hn]
    parent? := fun hn hp => ht.parent?_iff_address hp hn
    children := by
      intro n keys s hn hs
      obtain ⟨-, rfl⟩ := hfound hn hs
      rw [ht.map_address_children, length_children hn]
    block := by
      intro m n keys s hn hs
      obtain ⟨-, rfl⟩ := hfound hn hs
      rw [ht.isDescendant?_eq, Option.some.injEq, Tree.isBelow_iff, below_iff_block hn]
    upwards? := fun hn => ⟨_, ht.upwards?_parent _, rfl, fun ha => ht.below_iff_address ha hn⟩
    isDescendant? := by
      intro a b ha hb
      rw [Tree.isBelow_iff]
      exact ⟨ht.isDescendant?_eq a b, ht.below_iff_address hb ha⟩
    commonAncestor? := by
      intro a b ha hb
      obtain ⟨hac, hbc, hall⟩ := ht.commonAncestor_deepest ha hb
      refine ⟨_, ht.commonAncestor?_eq ha hb, rfl, ht.lt_size_of_within hac ha,
        ht.prefix_address hac, ht.prefix_address hbc, fun n hn hna hnb hne => ?_⟩
      exact hall n ((ht.prefix_address_iff hn ha).mp hna) ((ht.prefix_address_iff hn hb).mp hnb) hne
    lookup? := hnamed.lookup?_eq_some
    findPath? := by
      intro path n
      constructor
      · intro hpath
        have hn := Tree.descend?_lt hpath ht.size_pos ht
        have hkeys := (hkeyed.findPath?_eq_some ht hn).mp hpath
        refine ⟨hn, _, _, reach?_address hn, ?_, by rw [hkeys, Path.join_segments]⟩
        rw [hkeys, Path.segments]
        simp [Path.cut_ne_nil]
      · rintro ⟨hn, keys, s, hs, hne, rfl⟩
        obtain ⟨rfl, -⟩ := hfound hn hs
        rw [hkeyed.findPath?_eq_some ht hn,
          Path.segments_join (hkeyed.plain_of_mem_keyPath ht hn) hne] }

/-! ## A theatre -/

/-- A theatre that is closed, or open with a stage and a house. -/
def theatre : Description where
  id := "theatre"
  root := { State.empty with
    initial := some "closed"
    states := [
      ("closed", { State.empty with on := .ofList [("OPEN", [.target "#main"]),
        ("REHEARSE", [.target "open.stage.lit"])] }),
      ("open", { State.empty with
        label := some "main"
        kind := some .parallel
        states := [
          ("stage", { State.empty with
            initial := some "dark"
            states := [
              ("dark", { State.empty with on := .ofList [("BEGIN", [.target "#lit"])] }),
              ("lit", { State.empty with label := some "lit" })] }),
          ("house", { State.empty with
            initial := some "empty"
            states := [
              ("empty", { State.empty with on := .ofList [("BEGIN", [.target "full"])] }),
              ("full", State.empty)] })]
        on := .ofList [("PAUSE", [.target ".stage.dark"]),
          ("CLOSE", [.target "#theatre.closed"])] })] }

end Description

/-- The theatre as a machine without guards. -/
def Machine.theatre : Machine Unit :=
  { Description.theatre.chart with guards := .empty, options := .standard }

theorem Machine.compile_theatre : Description.theatre.compile .empty .standard = .ok theatre :=
  Description.compile_of_accepted (by decide +kernel)

/-- The lit stage is the second state of the first region of the second state: nothing else has its
names or its path; it is three levels down, as is the full house, and both are in the open theatre,
below which are the six states after it. -/
theorem Machine.theatre_depicted :
    Description.theatre.compile .empty .standard = .ok theatre ∧
      theatre.Depicts Description.theatre ∧ theatre.address 5 = [1, 0, 1] ∧
      (∀ name, theatre.lookup? name = some 5 ↔ name = "theatre.open.stage.lit" ∨ name = "lit") ∧
      (∀ path, theatre.findPath? path = some 5 ↔ path = "open.stage.lit") ∧
      theatre.depth 5 = 3 ∧ theatre.commonAncestor? 5 8 = some 2 ∧
      ∀ n, theatre.isDescendant? n 2 = some true ↔ 2 < n ∧ n < 9 := by
  have h := Description.depicted_of_compile compile_theatre
  have hsize : theatre.size = 9 := by decide +kernel
  have haddress : theatre.address 5 = [1, 0, 1] := by decide +kernel
  obtain ⟨s, hs⟩ : ∃ s, Description.theatre.root.reach? [1, 0, 1] =
      some (["open", "stage", "lit"], s) := ⟨_, rfl⟩
  have hdepth : theatre.depth 5 = 3 := by
    rw [h.depth (by rw [hsize]; decide), haddress]
    rfl
  have hmeet : theatre.commonAncestor? 5 8 = some 2 := by
    obtain ⟨c, hc, heq, -⟩ := h.commonAncestor? (a := 5) (b := 8) (by rw [hsize]; decide)
      (by rw [hsize]; decide)
    have htwo : theatre.commonAncestor 5 8 = 2 := by decide +kernel
    rw [hc, heq, htwo]
  refine ⟨compile_theatre, h, haddress, fun name => ?_, fun path => ?_, hdepth, hmeet,
    fun n => ?_⟩
  · have hlabel : (theatre.place 5).label = some "lit" := by decide +kernel
    have hid : theatre.id 5 = "theatre.open.stage.lit" := by decide +kernel
    rw [h.lookup?, hsize, hlabel, hid]
    simp [eq_comm]
  · rw [h.findPath?, hsize, haddress, hs]
    simp [Path.join]
  · obtain ⟨s, hs, hcount⟩ : ∃ s, Description.theatre.root.reach? [1] = some (["open"], s) ∧
        s.size = 7 := ⟨_, rfl, by decide⟩
    have hopen : theatre.address 2 = [1] := by decide +kernel
    have hblock := h.block (m := n) (n := 2) (by rw [hsize]; decide) (hopen ▸ hs)
    rwa [hcount] at hblock

end Statechart
