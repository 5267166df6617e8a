/-
# Statechart.Proofs.Value.Agreement -- configurations and values describe each other

What is active in a legal set is written by a tree of keys that fits the root
(`WellFormed.exists_fits`), and the leaves of a tree that fits the root make a legal set
(`WellFormed.legal_around`). The leaves determine the tree, so the value of a set is that of the
tree (`WellFormed.value_eq`), and reading values and rendering configurations undo each other
(`Machine.values_mirror_configurations`).
-/

import Statechart.Proofs.Run
import Statechart.Proofs.Value.Fits

namespace Statechart

namespace Chart

variable {c : Chart} {a : Active} {l m n : Nat} {leaves : List Nat} {s : KeyTree}

/-- Leaves with everything around them. -/
def around (c : Chart) (leaves : List Nat) : Active := ⟨.ofList (leaves.flatMap c.lineage), .empty⟩

@[simp] theorem mem_around : n ∈ c.around leaves ↔ ∃ l ∈ leaves, c.Within l n := by
  rw [Active.mem_iff, around, SortedSet.mem_ofList, List.mem_flatMap]
  rfl

/-- The regions of an active state that are active are a choice it can be active with. -/
theorem Legal.exists_opens (ha : c.Legal a) (hn : n ∈ a) (hleaf : (c.kind n).isLeaf = false) :
    ∃ qs, c.Opens n qs ∧ ∀ q, q ∈ qs ↔ q ∈ c.children n ∧ q ∈ a := by
  have hregion : ∀ {q}, q ∈ c.children n → q ∈ a → q ∈ c.regions n := fun hq hqa =>
    Tree.mem_regions.mpr ⟨hq, ha.not_history hqa⟩
  cases hkind : c.kind n with
  | atomic | final => simp [hkind, Kind.isLeaf] at hleaf
  | compound =>
    obtain ⟨q, ⟨hq, hqa⟩, -⟩ := ha.exists_unique hn hkind
    refine ⟨[q], Or.inl ⟨hkind, q, hq, rfl⟩, fun r => ?_⟩
    rw [List.mem_singleton]
    constructor
    · rintro rfl
      exact ⟨Tree.region_child hq, hqa⟩
    · rintro ⟨hr, hra⟩
      exact ha.unique hkind hr (Tree.region_child hq) hra hqa
  | parallel =>
    refine ⟨c.regions n, Or.inr ⟨hkind, rfl⟩, fun q => ⟨fun hq => ?_, fun hq => hregion hq.1 hq.2⟩⟩
    exact ⟨Tree.region_child hq, ha.region_mem hn hkind hq⟩
  | history depth => simpa [hkind, Kind.isHistory] using ha.not_history hn

namespace WellFormed

variable (hc : c.WellFormed)
include hc

/-- A state that can be active with nothing below it is a leaf of every set it is in. -/
theorem mem_leaves_of_isLeaf (hl : (c.kind l).isLeaf = true) :
    l ∈ a.leaves c.toTree ↔ l ∈ a := by
  have hnone : c.children l = [] := by
    refine hc.children_eq_nil ?_ ?_ <;> intro hkind <;> simp [hkind, Kind.isLeaf] at hl
  rw [mem_leaves, hnone]
  simp

/-- What is active inside a state of a legal set is written by a tree of keys. -/
theorem exists_fits (hk : c.Keyed) (ha : c.Legal a) (hn : n ∈ a) :
    ∃ s leaves, c.Fits n s leaves ∧ ∀ l, l ∈ leaves ↔ l ∈ a.leaves c.toTree ∧ c.Within l n := by
  have hsound := ha.sound hc
  -- downwards, so by induction on how many states come after
  generalize hj : c.size - n = j
  induction j using Nat.strongRecOn generalizing n with
  | ind j ih =>
    by_cases hleaf : (c.kind n).isLeaf = true
    · have hmem := (hc.mem_leaves_of_isLeaf hleaf).mpr hn
      refine ⟨_, _, .leaf hleaf, fun l => ?_⟩
      rw [List.mem_singleton]
      constructor
      · rintro rfl
        exact ⟨hmem, Tree.within_self _ l⟩
      · rintro ⟨hl, hln⟩
        exact hsound.leaf_unique hc hmem (mem_leaves.mp hl).1 hln
    · obtain ⟨qs, hopens, hqs⟩ := ha.exists_opens hn (Bool.eq_false_iff.mpr hleaf)
      have hbelow : ∀ q ∈ qs, ∃ s leaves, c.Fits q s leaves ∧
          ∀ l, l ∈ leaves ↔ l ∈ a.leaves c.toTree ∧ c.Within l q := by
        intro q hq
        obtain ⟨hchild, hqa⟩ := (hqs q).mp hq
        have hlt := hc.inOrder.lt_child hchild
        have hsize := ha.lt_size hqa
        exact ih (c.size - q) (by omega) hqa rfl
      have : Nonempty KeyTree := ⟨.empty⟩
      choose! part leaves hfits hleaves using hbelow
      obtain ⟨s, hs⟩ := hopens.exists_fits hk hfits
      refine ⟨s, _, hs, fun l => ?_⟩
      rw [List.mem_flatMap]
      constructor
      · rintro ⟨q, hq, hl⟩
        obtain ⟨hl, hlq⟩ := (hleaves q hq l).mp hl
        exact ⟨hl, (hc.inOrder.below_of_within_child ((hqs q).mp hq).1 hlq).within⟩
      · rintro ⟨hl, hln⟩
        obtain ⟨hla, hnone⟩ := mem_leaves.mp hl
        -- a state with an active child is no leaf
        have hne : l ≠ n := by
          rintro rfl
          obtain ⟨q, hq⟩ := List.exists_mem_of_ne_nil qs (hopens.ne_nil hc)
          exact hnone q ((hqs q).mp hq).1 ((hqs q).mp hq).2
        obtain ⟨q, hq, hlq⟩ := hc.inOrder.exists_child_within (hln.below_of_ne hne)
        have hmem := (hqs q).mpr ⟨hq, hsound.mem_of_within hc hla hlq⟩
        exact ⟨q, hmem, (hleaves q hmem l).mpr ⟨hl, hlq⟩⟩

/-! ## Leaves with what is around them -/

/-- Leaves that a tree leads to from the root make a legal set. -/
theorem legal_around (hs : c.Fits Tree.root s leaves) : c.Legal (c.around leaves) := by
  have hlt : ∀ {l}, l ∈ leaves → l < c.size := by
    intro l hl
    rcases Tree.within_iff.mp (hs.mem_leaves hc l hl).1 with rfl | hbelow
    · exact hc.inOrder.size_pos
    · exact hbelow.lt_size
  have hsub : ∀ {n}, n ∈ c.around leaves → ∃ u inside, c.Fits n u inside ∧
      ∀ l, l ∈ inside ↔ l ∈ leaves ∧ c.Within l n := by
    intro n hn
    obtain ⟨l, hl, hln⟩ := mem_around.mp hn
    have hsize := hc.inOrder.lt_size_of_within hln (hlt hl)
    exact hs.exists_within hc (hc.inOrder.within_root hsize) hl hln
  refine ⟨?_, ?_, ?_, ?_, ?_, ?_⟩
  · obtain ⟨l, hl⟩ := hs.exists_leaf hc
    exact mem_around.mpr ⟨l, hl, (hs.mem_leaves hc l hl).1⟩
  · intro n hn
    obtain ⟨l, hl, hln⟩ := mem_around.mp hn
    exact hc.inOrder.lt_size_of_within hln (hlt hl)
  · intro n p hn hp
    obtain ⟨l, hl, hln⟩ := mem_around.mp hn
    exact mem_around.mpr ⟨l, hl, hc.inOrder.within_trans hln (hc.inOrder.below_child hp).within⟩
  · intro n hn
    obtain ⟨u, inside, hfits, -⟩ := hsub hn
    by_contra hkind
    exact Tree.not_fits_history (by simpa using hkind) hfits
  · intro n hn hkind
    obtain ⟨u, inside, hfits, hinside⟩ := hsub hn
    obtain ⟨q, hq, u, -, hbelow⟩ := (Tree.fits_compound_iff hkind).mp hfits
    obtain ⟨l, hl⟩ := hbelow.exists_leaf hc
    refine ⟨q, ⟨hq, mem_around.mpr ⟨l, ((hinside l).mp hl).1, (hbelow.mem_leaves hc l hl).1⟩⟩, ?_⟩
    -- a leaf inside another region would be inside both
    rintro r ⟨hr, hra⟩
    obtain ⟨l, hl, hlr⟩ := mem_around.mp hra
    have hln := (hc.inOrder.below_of_within_child (Tree.region_child hr) hlr).within
    have hlq := (hbelow.mem_leaves hc l ((hinside l).mpr ⟨hl, hln⟩)).1
    exact hc.inOrder.child_unique (Tree.region_child hr) (Tree.region_child hq) hlr hlq
  · intro n q hn hkind hq
    obtain ⟨u, inside, hfits, hinside⟩ := hsub hn
    obtain ⟨-, -, below, rfl, hbelow⟩ := (Tree.fits_parallel_iff hkind).mp hfits
    obtain ⟨u, -, hq'⟩ := hbelow q hq
    obtain ⟨l, hl⟩ := hq'.exists_leaf hc
    have hmem := (hinside l).mp (List.mem_flatMap.mpr ⟨q, hq, hl⟩)
    exact mem_around.mpr ⟨l, hmem.1, (hq'.mem_leaves hc l hl).1⟩

/-- Where a sound set is what is around some leaves, these are its leaves. -/
theorem mem_leaves_iff_of_around (ha : c.Sound a) (leaves : List Nat)
    (haround : ∀ n, n ∈ a ↔ ∃ l ∈ leaves, c.Within l n)
    (hleaf : ∀ l ∈ leaves, (c.kind l).isLeaf = true) : l ∈ a.leaves c.toTree ↔ l ∈ leaves := by
  constructor
  · intro hl
    obtain ⟨m, hm, hml⟩ := (haround l).mp (mem_leaves.mp hl).1
    have hma := (haround m).mpr ⟨m, hm, Tree.within_self _ m⟩
    exact ha.leaf_unique hc hl hma hml ▸ hm
  · intro hl
    exact (hc.mem_leaves_of_isLeaf (hleaf l hl)).mpr
      ((haround l).mpr ⟨l, hl, Tree.within_self _ l⟩)

/-- The leaves of a set described by a checked configuration are the states it names. -/
theorem mem_leaves_iff_of_resolve {configuration : Configuration}
    (h : Active.resolve c.toTree true configuration = .ok a) : l ∈ a.leaves c.toTree ↔
      ∃ name ∈ configuration.leaves, c.lookup? name = some l := by
  have ha := hc.legal_of_resolve h
  obtain ⟨-, leaves, hleaves, records, -, rfl, -⟩ := Active.resolve_eq_ok.mp h
  obtain ⟨number, hnumber, rfl⟩ := mapM_eq_ok_iff_exists.mp hleaves
  have hfound := fun name hname => Active.resolveLeaf_eq_ok.mp (hnumber name hname)
  rw [hc.mem_leaves_iff_of_around (ha.sound hc) (configuration.leaves.toList.map number)]
  · rw [List.mem_map]
    refine exists_congr fun name => and_congr_right fun hname => ?_
    rw [(hfound name hname).1, Option.some.injEq]
  · intro n
    rw [Active.mem_iff, SortedSet.mem_ofList, List.mem_flatMap]
    rfl
  · intro l hl
    obtain ⟨name, hname, rfl⟩ := List.mem_map.mp hl
    exact (hfound name hname).2 rfl

/-- The value of a set is that of the tree that leads to its leaves. -/
theorem value_eq (hk : c.Keyed) (hs : c.Fits Tree.root s leaves)
    (hlt : ∀ {n}, n ∈ a → n < c.size) (hleaves : ∀ l, l ∈ a.leaves c.toTree ↔ l ∈ leaves) :
    a.value c.toTree = s.value := by
  refine congrArg KeyTree.value ((KeyTree.ordered_ofPaths _).ext hs.ordered fun q => ?_)
  have hkeys : ∀ l ∈ a.leaves c.toTree, Path.keys (c.relativePath l) = c.keyPath l := fun l hl =>
    hk.keys_relativePath hc.inOrder (hlt (mem_leaves.mp hl).1)
  rw [KeyTree.has_ofPaths, hs.has_iff hc, hc.inOrder.keyPath_root]
  simp only [List.mem_map, exists_exists_and_eq_and, List.nil_append]
  constructor
  · rintro (rfl | ⟨l, hl, hpre⟩)
    · obtain ⟨l, hl⟩ := hs.exists_leaf hc
      exact ⟨l, hl, List.nil_prefix⟩
    · exact ⟨l, (hleaves l).mp hl, hkeys l hl ▸ hpre⟩
  · rintro ⟨l, hl, hpre⟩
    exact Or.inr ⟨l, (hleaves l).mpr hl, (hkeys l ((hleaves l).mpr hl)).symm ▸ hpre⟩

end WellFormed

/-- A set that consists of what lies around its leaves is written as their full ids. -/
theorem configuration_around (hleaves : ∀ l, l ∈ (c.around leaves).leaves c.toTree ↔ l ∈ leaves) :
    (c.around leaves).configuration c.toTree = .ofLeaves (leaves.map c.id) := by
  have hids : ((c.around leaves).configuration c.toTree).leaves = .ofList (leaves.map c.id) := by
    refine SortedSet.ext fun id => ?_
    rw [mem_leaves_configuration, SortedSet.mem_ofList, List.mem_map]
    simp only [hleaves]
  rw [Configuration.ofLeaves, ← hids]
  rfl

end Chart

/-! ## Reading and rendering -/

theorem StateValue.configuration_eq_ok {t : Tree} {v : StateValue} {configuration : Configuration} :
    v.configuration t = .ok configuration ↔
      ∃ leaves, leavesUnder t Tree.root v = .ok leaves ∧
        configuration = .ofLeaves (leaves.map t.id) := by
  rw [StateValue.configuration, bind_eq_ok]
  refine exists_congr fun leaves => and_congr_right fun _ => ?_
  exact ⟨fun h => (Except.ok.inj h).symm, fun h => congrArg Except.ok h.symm⟩

namespace Machine

variable {γ : Type} {d : Description} {guards : Guards γ} {options : Options} {m : Machine γ}
  {configuration : Configuration} {a : Active}

/-- An accepted configuration has the value of the set it describes. -/
theorem stateValue_of_resolve (h : Active.resolve m.toTree true configuration = .ok a) :
    m.stateValue configuration = .ok (a.value m.toTree) := by
  rw [stateValue, resolve_of_checked h]
  rfl

/-- Configurations and values describe each other. The value of a configuration that is accepted is
read back to a configuration with its leaves by their full ids. A value, its entries by ascending
key, that can be read is read to a configuration that is accepted, whose value has the same paths
and is the value of these paths. -/
theorem values_mirror_configurations (hm : d.compile guards options = .ok m) :
    (∀ configuration a, Active.resolve m.toTree true configuration = .ok a →
      ∃ v configuration', m.stateValue configuration = .ok v ∧ v.Ordered ∧
        StateValue.configuration m.toTree v = .ok configuration' ∧
        ∀ id, id ∈ configuration'.leaves ↔
          ∃ name ∈ configuration.leaves, ∃ n, m.lookup? name = some n ∧ m.id n = id) ∧
    ∀ v configuration, v.Ordered → StateValue.configuration m.toTree v = .ok configuration →
      (∃ a, Active.resolve m.toTree true configuration = .ok a) ∧
        ∃ w, m.stateValue configuration = .ok w ∧ w.paths = v.paths ∧ w = .ofPaths v.paths := by
  have hc := Description.wellFormed_of_compile hm
  have hk := Description.keyed_of_compile hm
  constructor
  · intro configuration a h
    have ha := hc.legal_of_resolve h
    obtain ⟨s, leaves, hs, hleaves⟩ := hc.exists_fits hk ha ha.root_mem
    have hiff : ∀ l, l ∈ a.leaves m.toTree ↔ l ∈ leaves := fun l => by
      rw [hleaves, iff_self_and]
      exact fun hl => hc.inOrder.within_root (ha.lt_size (Chart.mem_leaves.mp hl).1)
    have hread : StateValue.leavesUnder m.toTree Tree.root s.value = .ok leaves := by
      rw [StateValue.leavesUnder_eq_ok hc hk (StateValue.ordered_value hs.ordered),
        StateValue.tree_value hs.ordered]
      exact hs
    refine ⟨s.value, _, ?_, StateValue.ordered_value hs.ordered,
      StateValue.configuration_eq_ok.mpr ⟨leaves, hread, rfl⟩, fun id => ?_⟩
    · rw [stateValue_of_resolve h, hc.value_eq hk hs ha.lt_size hiff]
    · rw [Configuration.ofLeaves, SortedSet.mem_ofList, List.mem_map]
      simp only [← hiff, hc.mem_leaves_iff_of_resolve h]
      grind
  · intro v configuration hv h
    obtain ⟨leaves, hread, rfl⟩ := StateValue.configuration_eq_ok.mp h
    have hs := (StateValue.leavesUnder_eq_ok hc hk hv).mp hread
    have ha := hc.legal_around hs
    have hiff : ∀ l, l ∈ (m.around leaves).leaves m.toTree ↔ l ∈ leaves := fun l =>
      hc.mem_leaves_iff_of_around (ha.sound hc) leaves (fun n => Chart.mem_around)
        fun l hl => (hs.mem_leaves hc l hl).2
    have hresolve := hc.resolve_legal ha (fun _ _ hr => by cases hr)
      (fun _ _ _ hr => by cases hr) true
    rw [Chart.configuration_around hiff] at hresolve
    refine ⟨⟨_, hresolve⟩, _, stateValue_of_resolve hresolve, ?_⟩
    rw [hc.value_eq hk hs ha.lt_size hiff]
    refine ⟨StateValue.paths_value_tree hv, (StateValue.ofPaths_paths hv fun q hq k hkq => ?_).symm⟩
    obtain ⟨l, hl, hpre⟩ := (hs.has_iff hc).mp hq
    rw [hc.inOrder.keyPath_root, List.nil_append] at hpre
    exact hk.plain_of_mem_keyPath hc.inOrder (ha.lt_size ((Chart.mem_leaves.mp
      ((hiff l).mpr hl)).1)) k (hpre.subset hkq)

/-- A value that says of the player that it is off in more words than are needed. -/
def player.offInFull : StateValue := .nested [("off", .nested [])]

/-- The player on is rendered and read back, and off in many words is off in few. -/
theorem player_values_mirrored :
    (∃ v configuration, player.stateValue
        (.ofLeaves ["player.on.volume.low", "player.on.screen.dim"]) = .ok v ∧
      StateValue.configuration player.toTree v = .ok configuration ∧
        "player.on.screen.dim" ∈ configuration.leaves) ∧
    StateValue.configuration player.toTree player.offInFull = .ok (.ofLeaves ["player.off"]) ∧
      ∃ w, player.stateValue (.ofLeaves ["player.off"]) = .ok w ∧ w.paths = ["off"] := by
  obtain ⟨hrender, hread⟩ := values_mirror_configurations compile_player
  have hon : Active.resolve player.toTree true
      (.ofLeaves ["player.on.volume.low", "player.on.screen.dim"]) =
        .ok ⟨.ofList [0, 1, 2, 3, 5, 6], .empty⟩ := by decide +kernel
  have hoff : StateValue.configuration player.toTree player.offInFull =
      .ok (.ofLeaves ["player.off"]) := by decide +kernel
  have hordered : player.offInFull.Ordered :=
    .nested (by simp) (by simpa using .nested List.Pairwise.nil (by simp))
  obtain ⟨v, configuration, hv, -, hconfiguration, hids⟩ := hrender _ _ hon
  obtain ⟨-, w, hw, hpaths, -⟩ := hread _ _ hordered hoff
  refine ⟨⟨v, configuration, hv, hconfiguration, (hids _).mpr ?_⟩, hoff, w, hw, hpaths⟩
  exact ⟨"player.on.screen.dim", by decide, 6, by decide +kernel, by decide +kernel⟩

end Machine

end Statechart
