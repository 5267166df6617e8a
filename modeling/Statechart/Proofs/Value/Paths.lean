/-
# Statechart.Proofs.Value.Paths -- nested values as trees of keys

A nested value is a tree of keys written with fewer levels: the tree is found again
(`StateValue.tree_value`), and writing it anew keeps the paths (`StateValue.paths_value_tree`). With
plain keys the tree holds just what the paths begin with (`StateValue.has_tree`), so the value of
the paths of a value is its tree written anew (`StateValue.ofPaths_paths`). A path is found in the
value exactly if its keys lead into the tree (`StateValue.hasPath_iff`).

Entries are listed by ascending key: in what is read (`StateValue.ordered_of_ofJson?`) and in what
is made from paths (`StateValue.ordered_ofPaths`).
-/

import Statechart.Proofs.Path
import Statechart.Proofs.Value.KeyTree

namespace Statechart.StateValue

/-- The entries of a nested value are listed by ascending key at every level. -/
inductive Ordered : StateValue → Prop
  | leaf (key : String) : Ordered (.leaf key)
  | nested {children : List (String × StateValue)}
      (ascending : (children.map Prod.fst).Pairwise (· < ·))
      (below : ∀ e ∈ children, Ordered e.2) : Ordered (.nested children)

mutual

/-- The tree of keys that a value writes. -/
def tree : StateValue → KeyTree
  | .leaf key => .node [(key, .node [])]
  | .nested children => .node (trees children)

/-- The trees of the entries of a nested value. -/
def trees : List (String × StateValue) → List (String × KeyTree)
  | [] => []
  | (key, child) :: rest => (key, child.tree) :: trees rest

end

theorem trees_eq_map (children : List (String × StateValue)) :
    trees children = children.map (fun e => (e.1, e.2.tree)) := by
  induction children with
  | nil => rfl
  | cons e rest ih => rw [trees, ih, List.map_cons]

@[simp] theorem mem_trees {children : List (String × StateValue)} {k : String} {t : KeyTree} :
    (k, t) ∈ trees children ↔ ∃ v, (k, v) ∈ children ∧ v.tree = t := by
  rw [trees_eq_map]
  simp [Prod.ext_iff]

@[simp] theorem trees_eq_nil {children : List (String × StateValue)} :
    trees children = [] ↔ children = [] := by
  rw [trees_eq_map, List.map_eq_nil_iff]

@[simp] theorem keys_trees (children : List (String × StateValue)) :
    (trees children).map Prod.fst = children.map Prod.fst := by
  rw [trees_eq_map, List.map_map]
  rfl

variable {v : StateValue}

theorem Ordered.tree (hv : v.Ordered) : v.tree.Ordered := by
  induction hv with
  | leaf key => exact .node (by simp) (by simpa [KeyTree.empty] using KeyTree.ordered_empty)
  | nested ascending _ ih =>
    refine .node (by rwa [keys_trees]) fun e he => ?_
    obtain ⟨v, hv, htree⟩ := mem_trees.mp (show (e.1, e.2) ∈ _ from he)
    exact htree ▸ ih _ hv

theorem tree_eq_nil : v.tree = .node [] ↔ v = empty := by
  cases v <;> simp [tree, empty]

/-- The value of a tree is a single key, or has an entry for each child of the tree. -/
theorem value_cases (cs : List (String × KeyTree)) :
    (∃ k, cs = [(k, .node [])] ∧ (KeyTree.node cs).value = .leaf k) ∨
      (KeyTree.node cs).value = .nested (cs.map (fun e => (e.1, e.2.value))) := by
  have hvalues : KeyTree.values cs = cs.map (fun e => (e.1, e.2.value)) := by
    induction cs with
    | nil => rfl
    | cons e rest ih => rw [KeyTree.values, ih, List.map_cons]
  rw [KeyTree.value.eq_def]
  split
  · rename_i k heq
    exact Or.inl ⟨k, KeyTree.node.inj heq, rfl⟩
  · rename_i heq
    exact Or.inr (by rw [← KeyTree.node.inj heq, hvalues])

/-- The tree that the value of a tree writes is that tree. -/
theorem tree_value {t : KeyTree} (ht : t.Ordered) : t.value.tree = t := by
  induction ht with
  | @node cs _ _ ih =>
    rcases value_cases cs with ⟨k, rfl, h⟩ | h
    · rw [h, tree]
    · rw [h, tree, trees_eq_map, List.map_map]
      refine congrArg KeyTree.node ((List.map_congr_left fun e he => ?_).trans (List.map_id cs))
      exact Prod.ext rfl (ih e he)

theorem ordered_value {t : KeyTree} (ht : t.Ordered) : t.value.Ordered := by
  induction ht with
  | @node cs ascending _ ih =>
    rcases value_cases cs with ⟨k, -, h⟩ | h
    · exact h ▸ .leaf k
    · rw [h]
      refine .nested (by rwa [List.map_map]) fun e he => ?_
      obtain ⟨f, hf, rfl⟩ := List.mem_map.mp he
      exact ih f hf

theorem ordered_ofPaths (ps : List String) : (ofPaths ps).Ordered :=
  ordered_value (KeyTree.ordered_ofPaths _)

mutual

/-- What is read lists its entries by ascending key. -/
theorem ordered_of_ofJson? : ∀ (j : Json) (v : StateValue), ofJson? j = some v → v.Ordered
  | .string key, v, h => by
    rw [ofJson?, Option.some.injEq] at h
    exact h ▸ .leaf key
  | .object members, v, h => by
    rw [ofJson?, Option.map_eq_some_iff] at h
    obtain ⟨entries, hentries, rfl⟩ := h
    refine .nested (SortedMap.ofList entries).ascending fun e he => ?_
    have hget : (SortedMap.ofList entries).get? e.1 = some e.2 := SortedMap.mem_toList.mp he
    exact ordered_of_entriesOf? members entries hentries _ (SortedMap.mem_of_get?_ofList hget)
  | .null, v, h | .bool _, v, h | .int _, v, h | .decimal _, v, h | .array _, v, h => by
    simp [ofJson?] at h

theorem ordered_of_entriesOf? : ∀ (members : List (String × Json))
    (entries : List (String × StateValue)), entriesOf? members = some entries →
      ∀ e ∈ entries, e.2.Ordered
  | [], entries, h => by
    rw [entriesOf?, Option.some.injEq] at h
    simp [← h]
  | (key, j) :: rest, entries, h => by
    rw [entriesOf?] at h
    split at h
    · rename_i v entries' hv hentries
      obtain rfl := Option.some.inj h
      intro e he
      rcases List.mem_cons.mp he with rfl | he
      · exact ordered_of_ofJson? j v hv
      · exact ordered_of_entriesOf? rest entries' hentries e he
    · cases h

end

/-! ## Paths -/

/-- The paths by way of a key, given those from there. -/
def pathsVia (key : String) : List String → List String
  | [] => [key]
  | below => below.map (fun path => key ++ "." ++ path)

theorem pathsBelow_eq_flatMap (children : List (String × StateValue)) :
    pathsBelow children = children.flatMap (fun e => pathsVia e.1 e.2.paths) := by
  induction children with
  | nil => rfl
  | cons e rest ih =>
    rw [List.flatMap_cons, ← ih]
    cases hp : e.2.paths <;> simp only [pathsBelow, pathsVia, hp]

/-- Written with fewer levels, a value has the paths that it had. -/
theorem paths_value_tree (hv : v.Ordered) : v.tree.value.paths = v.paths := by
  induction hv with
  | leaf key => rfl
  | @nested children _ _ ih =>
    rw [tree]
    rcases value_cases (trees children) with ⟨k, htrees, h⟩ | h
    · rw [trees_eq_map, List.map_eq_singleton_iff] at htrees
      obtain ⟨⟨key, child⟩, rfl, heq⟩ := htrees
      obtain ⟨rfl, hchild⟩ := Prod.mk.inj heq
      have hempty : child = empty := tree_eq_nil.mp hchild
      rw [h, hempty]
      rfl
    · rw [h, trees_eq_map, List.map_map, paths, paths, pathsBelow_eq_flatMap,
        pathsBelow_eq_flatMap, List.flatMap_map]
      refine List.flatMap_congr fun e he => ?_
      exact congrArg (pathsVia e.1) (ih e he)

/-- What the paths by way of a plain key begin with. -/
theorem exists_mem_pathsVia {key k : String} {below : List String} {ks : List String}
    (hkey : Path.Plain key) : (∃ p ∈ pathsVia key below, k :: ks <+: Path.keys p) ↔
      key = k ∧ (ks = [] ∨ ∃ p ∈ below, ks <+: Path.keys p) := by
  cases below with
  | nil => simp [pathsVia, hkey.keys_eq, List.cons_prefix_cons, eq_comm]
  | cons p rest =>
    have hnil : ks = [] → ∃ p' ∈ p :: rest, ks <+: Path.keys p' := fun h =>
      ⟨p, List.mem_cons_self, h ▸ List.nil_prefix⟩
    rw [or_iff_right_of_imp hnil, pathsVia.eq_def]
    simp only [List.mem_map, exists_exists_and_eq_and, hkey.keys_append, List.cons_prefix_cons]
    constructor
    · rintro ⟨p, hp, hk, hpre⟩
      exact ⟨hk.symm, p, hp, hpre⟩
    · rintro ⟨hk, p, hp, hpre⟩
      exact ⟨p, hp, hk.symm, hpre⟩

/-- Where the keys of a nested value are plain, so are that of an entry and those below it. -/
theorem plain_of_mem_children {children : List (String × StateValue)} {e : String × StateValue}
    (hplain : ∀ q, (nested children).tree.Has q → ∀ k ∈ q, Path.Plain k) (he : e ∈ children) :
    Path.Plain e.1 ∧ ∀ q, e.2.tree.Has q → ∀ k ∈ q, Path.Plain k := by
  have hmem : (e.1, e.2.tree) ∈ trees children := mem_trees.mpr ⟨e.2, he, rfl⟩
  refine ⟨hplain [e.1] ⟨_, hmem, trivial⟩ e.1 (by simp), fun q hq j hj => ?_⟩
  exact hplain (e.1 :: q) ⟨_, hmem, hq⟩ j (List.mem_cons_of_mem _ hj)

/-- With plain keys, the tree of a value holds what its paths begin with. -/
theorem has_tree (hv : v.Ordered) (hplain : ∀ q, v.tree.Has q → ∀ k ∈ q, Path.Plain k)
    {q : List String} : v.tree.Has q ↔ q = [] ∨ ∃ p ∈ v.paths, q <+: Path.keys p := by
  induction hv generalizing q with
  | leaf key =>
    have hkey : Path.Plain key := hplain [key] ⟨_, List.mem_cons_self, trivial⟩ key (by simp)
    cases q with
    | nil => simp
    | cons k ks => simp [tree, paths, hkey.keys_eq, List.cons_prefix_cons, KeyTree.has_leaf]
  | @nested children ascending below ih =>
    cases q with
    | nil => simp
    | cons k ks =>
      rw [tree, KeyTree.has_node_cons, paths, pathsBelow_eq_flatMap]
      have hchild : ∀ e ∈ children, Path.Plain e.1 ∧
          (e.2.tree.Has ks ↔ ks = [] ∨ ∃ p ∈ e.2.paths, ks <+: Path.keys p) := by
        intro e he
        obtain ⟨hkey, hbelow⟩ := plain_of_mem_children hplain he
        exact ⟨hkey, ih e he hbelow⟩
      have hvia : ∀ e ∈ children, ((∃ p ∈ pathsVia e.1 e.2.paths, k :: ks <+: Path.keys p) ↔
          e.1 = k ∧ e.2.tree.Has ks) := fun e he => by
        rw [exists_mem_pathsVia (hchild e he).1, (hchild e he).2]
      constructor
      · rintro ⟨t, ht, hhas⟩
        obtain ⟨v, hv, rfl⟩ := mem_trees.mp ht
        obtain ⟨p, hp, hpre⟩ := (hvia _ hv).mpr ⟨rfl, hhas⟩
        exact Or.inr ⟨p, List.mem_flatMap.mpr ⟨_, hv, hp⟩, hpre⟩
      · rintro (h | ⟨p, hp, hpre⟩)
        · exact absurd h (List.cons_ne_nil k ks)
        · obtain ⟨e, he, hp⟩ := List.mem_flatMap.mp hp
          obtain ⟨rfl, hhas⟩ := (hvia e he).mp ⟨p, hp, hpre⟩
          exact ⟨_, mem_trees.mpr ⟨e.2, he, rfl⟩, hhas⟩

/-- A value with plain keys is the value of its paths, up to the way it is written. -/
theorem ofPaths_paths (hv : v.Ordered) (hplain : ∀ q, v.tree.Has q → ∀ k ∈ q, Path.Plain k) :
    ofPaths v.paths = v.tree.value := by
  refine congrArg KeyTree.value ?_
  refine (KeyTree.ordered_ofPaths _).ext hv.tree fun q => ?_
  rw [KeyTree.has_ofPaths, has_tree hv hplain]
  simp only [List.mem_map, exists_exists_and_eq_and]

/-- With plain keys, no path of a value has an empty segment. -/
theorem keys_eq_segments (hv : v.Ordered) (hplain : ∀ q, v.tree.Has q → ∀ k ∈ q, Path.Plain k) :
    ∀ p ∈ v.paths, Path.keys p = Path.segments p := by
  induction hv with
  | leaf key =>
    have hkey : Path.Plain key := hplain [key] ⟨_, List.mem_cons_self, trivial⟩ key (by simp)
    simp [paths, hkey.keys_eq, hkey.segments_eq]
  | @nested children ascending below ih =>
    rw [paths, pathsBelow_eq_flatMap]
    intro p hp
    obtain ⟨e, he, hp⟩ := List.mem_flatMap.mp hp
    obtain ⟨hkey, hbelow⟩ := plain_of_mem_children hplain he
    have hchild : ∀ p ∈ e.2.paths, Path.keys p = Path.segments p := ih e he hbelow
    unfold pathsVia at hp
    split at hp
    · rw [List.mem_singleton.mp hp, hkey.keys_eq, hkey.segments_eq]
    · obtain ⟨path, hpath, rfl⟩ := List.mem_map.mp hp
      rw [hkey.keys_append, hkey.segments_append, hchild path hpath]

/-- A path is found in a value with plain keys exactly if its keys, of which there must be some,
lead into the tree. -/
theorem hasPath_iff (hv : v.Ordered) (hplain : ∀ q, v.tree.Has q → ∀ k ∈ q, Path.Plain k)
    {path : String} :
    v.hasPath path = true ↔ Path.keys path ≠ [] ∧ v.tree.Has (Path.keys path) := by
  rw [hasPath, Bool.and_eq_true, Bool.not_eq_true', List.isEmpty_eq_false_iff, List.any_eq_true,
    has_tree hv hplain]
  refine and_congr_right fun hne => ?_
  rw [or_iff_right hne]
  refine exists_congr fun p => and_congr_right fun hp => ?_
  rw [List.isPrefixOf_iff_prefix, keys_eq_segments hv hplain p hp]

end Statechart.StateValue
