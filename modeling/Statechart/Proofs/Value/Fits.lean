/-
# Statechart.Proofs.Value.Fits -- which values describe the inside of a state

A tree of keys fits a state if it names one region of a compound state, all regions of a parallel
one and nothing below a leaf, and what stands below each key fits the region again. Reading a value
succeeds just if its tree fits, and yields the leaves the tree leads to
(`StateValue.leavesUnder_eq_ok`). A tree that fits holds just the keys on the way to these leaves
(`Fits.has_iff`), and what it says of a state is said by what it holds below that state
(`Fits.exists_within`).
-/

import Statechart.Proofs.Active.RoundTrip
import Statechart.Proofs.Tree.Keys
import Statechart.Proofs.Value.Paths

namespace Statechart

/-- With a state some of its regions can be active: one of a compound state, all of a parallel
one. -/
def Tree.Opens (t : Tree) (n : Nat) (qs : List Nat) : Prop :=
  (t.kind n = .compound ∧ ∃ q ∈ t.regions n, qs = [q]) ∨
    (t.kind n = .parallel ∧ qs = t.regions n)

/-- A tree of keys names what is active inside a state, down to the leaves given. -/
inductive Tree.Fits (t : Tree) : Nat → KeyTree → List Nat → Prop
  | leaf {n : Nat} (kind : (t.kind n).isLeaf = true) : Fits t n (.node []) [n]
  | inner {n : Nat} {qs : List Nat} {cs : List (String × KeyTree)} {part : Nat → KeyTree}
      {leaves : Nat → List Nat} (opens : t.Opens n qs)
      (ascending : (cs.map Prod.fst).Pairwise (· < ·))
      (named : ∀ e ∈ cs, ∃ q ∈ qs, t.key q = e.1) (listed : ∀ q ∈ qs, (t.key q, part q) ∈ cs)
      (below : ∀ q ∈ qs, Fits t q (part q) (leaves q)) :
      Fits t n (.node cs) (qs.flatMap leaves)

namespace Tree

variable {t : Tree} {n q : Nat} {qs : List Nat} {s : KeyTree} {leaves : List Nat}

theorem Opens.not_leaf (h : t.Opens n qs) : (t.kind n).isLeaf = false := by
  rcases h with ⟨hkind, -⟩ | ⟨hkind, -⟩ <;> rw [hkind] <;> rfl

theorem Opens.region (h : t.Opens n qs) (hq : q ∈ qs) : q ∈ t.regions n := by
  rcases h with ⟨-, r, hr, rfl⟩ | ⟨-, rfl⟩
  · exact List.mem_singleton.mp hq ▸ hr
  · exact hq

theorem Opens.ne_nil {c : Chart} (hc : c.WellFormed) (h : c.Opens n qs) : qs ≠ [] := by
  rcases h with ⟨-, q, -, rfl⟩ | ⟨hkind, rfl⟩
  · exact List.cons_ne_nil q []
  · exact hc.regions_ne_nil hkind

/-- Trees that fit the regions make a tree that fits the state. -/
theorem Opens.exists_fits (hk : t.Keyed) (h : t.Opens n qs) {part : Nat → KeyTree}
    {below : Nat → List Nat} (hbelow : ∀ q ∈ qs, t.Fits q (part q) (below q)) :
    ∃ s, t.Fits n s (qs.flatMap below) := by
  let entries := SortedMap.ofList (qs.map fun q => (t.key q, part q))
  have hmem : ∀ e, e ∈ entries.toList ↔ ∃ q ∈ qs, (t.key q, part q) = e := by
    intro e
    rw [SortedMap.mem_toList_ofList, List.mem_map]
    simp only [List.forall_mem_map]
    intro q hq r hr hkey
    rw [hk.child_eq (region_child (h.region hq)) (region_child (h.region hr)) hkey]
  refine ⟨.node entries.toList, .inner h entries.ascending (fun e he => ?_)
    (fun q hq => (hmem _).mpr ⟨q, hq, rfl⟩) hbelow⟩
  obtain ⟨q, hq, rfl⟩ := (hmem e).mp he
  exact ⟨q, hq, rfl⟩

/-! ## By the kind of a state -/

theorem fits_leaf_iff (hn : (t.kind n).isLeaf = true) :
    t.Fits n s leaves ↔ s = .node [] ∧ leaves = [n] := by
  constructor
  · rintro (_ | ⟨hopens, -, -, -, -⟩)
    · exact ⟨rfl, rfl⟩
    · exact absurd hn (by rw [hopens.not_leaf]; exact Bool.false_ne_true)
  · rintro ⟨rfl, rfl⟩
    exact .leaf hn

theorem fits_compound_iff (hn : t.kind n = .compound) : t.Fits n s leaves ↔
    ∃ q ∈ t.regions n, ∃ u, s = .node [(t.key q, u)] ∧ t.Fits q u leaves := by
  constructor
  · rintro (⟨hkind⟩ | ⟨⟨-, q, hq, rfl⟩ | ⟨hkind, -⟩, hasc, hnamed, hlisted, hbelow⟩)
    · exact absurd hkind (by rw [hn]; exact Bool.false_ne_true)
    · have hlisted := hlisted q (List.mem_singleton_self q)
      have hbelow := hbelow q (List.mem_singleton_self q)
      rw [List.flatMap_singleton]
      refine ⟨q, hq, _, congrArg _ (SortedMap.eq_singleton hasc hlisted fun e he => ?_), hbelow⟩
      obtain ⟨r, hr, hkey⟩ := hnamed e he
      rw [← hkey, List.mem_singleton.mp hr]
    · exact absurd (hn.symm.trans hkind) nofun
  · rintro ⟨q, hq, u, rfl, hbelow⟩
    have hpart : ∀ r ∈ [q], t.Fits r ((fun _ => u) r) ((fun _ => leaves) r) := by
      simpa using hbelow
    have hfits : t.Fits n (.node [(t.key q, u)]) ([q].flatMap fun _ => leaves) :=
      .inner (Or.inl ⟨hn, q, hq, rfl⟩) (by simp) (by simp) (by simp) hpart
    rwa [List.flatMap_singleton] at hfits

theorem fits_parallel_iff (hn : t.kind n = .parallel) : t.Fits n s leaves ↔
    (s.children.map Prod.fst).Pairwise (· < ·) ∧
      (∀ e ∈ s.children, ∃ q ∈ t.regions n, t.key q = e.1) ∧
        ∃ below : Nat → List Nat, leaves = (t.regions n).flatMap below ∧
          ∀ q ∈ t.regions n, ∃ u, (t.key q, u) ∈ s.children ∧ t.Fits q u (below q) := by
  constructor
  · rintro (⟨hkind⟩ | ⟨⟨hkind, -⟩ | ⟨-, rfl⟩, hasc, hnamed, hlisted, hbelow⟩)
    · exact absurd hkind (by rw [hn]; exact Bool.false_ne_true)
    · exact absurd (hn.symm.trans hkind) nofun
    · exact ⟨hasc, hnamed, _, rfl, fun q hq => ⟨_, hlisted q hq, hbelow q hq⟩⟩
  · rintro ⟨hasc, hnamed, below, rfl, hbelow⟩
    obtain ⟨cs⟩ := s
    have : Nonempty KeyTree := ⟨.empty⟩
    choose! part hlisted hpart using hbelow
    exact .inner (Or.inr ⟨hn, rfl⟩) hasc hnamed hlisted hpart

theorem not_fits_history (hn : (t.kind n).isHistory = true) : ¬ t.Fits n s leaves := by
  obtain ⟨depth, hdepth⟩ := Kind.exists_depth hn
  rintro (⟨hkind⟩ | ⟨⟨hkind, -⟩ | ⟨hkind, -⟩, -, -, -, -⟩) <;> rw [hdepth] at hkind <;> cases hkind

end Tree

namespace StateValue

variable {c : Chart} {n q r : Nat} {key : String} {v : StateValue}
  {children : List (String × StateValue)} {leaves : List Nat}

/-! ## Reading a value -/

theorem childFor_eq_ok (hk : c.Keyed) :
    childFor c.toTree n key = .ok q ↔ q ∈ c.regions n ∧ c.key q = key := by
  have hiff : (c.childByKey? n key).filter (fun q => !(c.kind q).isHistory) = some q ↔
      q ∈ c.regions n ∧ c.key q = key := by
    rw [Option.filter_eq_some_iff, hk.childByKey?_eq_some, Tree.mem_regions]
    simp [and_right_comm]
  rw [← hiff, childFor]
  split
  · rename_i h
    rw [h, Option.some.injEq, Except.ok.injEq]
  · rename_i h
    rw [h]
    constructor <;> intro hq <;> cases hq

/-- No key is stray just if each is that of a region. -/
theorem strayKey?_eq_none (hk : c.Keyed) : strayKey? c.toTree n children = none ↔
    ∀ e ∈ children, ∃ q ∈ c.regions n, c.key q = e.1 := by
  have hkey : ∀ key, ¬ (childFor c.toTree n key).toOption.isNone = true ↔
      ∃ q ∈ c.regions n, c.key q = key := by
    intro key
    simp only [← childFor_eq_ok hk]
    cases childFor c.toTree n key <;> simp [Except.toOption]
  simp only [strayKey?, List.find?_eq_none, List.mem_map, forall_exists_index, and_imp,
    forall_apply_eq_imp_iff₂, hkey]

theorem leavesOfRegion_eq_ok (hasc : (children.map Prod.fst).Pairwise (· < ·)) :
    leavesOfRegion c.toTree n r children = .ok leaves ↔
      ∃ v, (c.key r, v) ∈ children ∧ leavesUnder c.toTree r v = .ok leaves := by
  simp only [← SortedMap.valueOf_eq_some hasc]
  clear hasc
  induction children with
  | nil => simp [leavesOfRegion, SortedMap.valueOf]
  | cons e rest ih =>
    rw [leavesOfRegion, SortedMap.valueOf]
    by_cases hkey : e.1 = c.key r
    · simp [hkey]
    · rw [if_neg hkey, if_neg (Ne.symm hkey), ih]

theorem leavesOfOnly_eq_ok (hk : c.Keyed) : leavesOfOnly c.toTree n children = .ok leaves ↔
    ∃ q ∈ c.regions n, ∃ v, children = [(c.key q, v)] ∧ leavesUnder c.toTree q v = .ok leaves := by
  match children with
  | [] => simp [leavesOfOnly]
  | [(key, v)] =>
    rw [leavesOfOnly, bind_eq_ok]
    simp only [childFor_eq_ok hk]
    constructor
    · rintro ⟨q, ⟨hq, rfl⟩, h⟩
      exact ⟨q, hq, v, rfl, h⟩
    · rintro ⟨q, hq, v', heq, h⟩
      obtain ⟨rfl, rfl⟩ : key = c.key q ∧ v = v' := by simpa using heq
      exact ⟨q, ⟨hq, rfl⟩, h⟩
  | _ :: _ :: _ => simp [leavesOfOnly]

/-- Reading nothing succeeds just at leaves. -/
theorem bareLeaves_eq_ok (hc : c.WellFormed) :
    bareLeaves c.toTree n = .ok leaves ↔ c.Fits n (.node []) leaves := by
  unfold bareLeaves
  cases hn : c.kind n with
  | atomic | final =>
    rw [Tree.fits_leaf_iff (by rw [hn]; rfl)]
    simp [eq_comm]
  | compound =>
    rw [Tree.fits_compound_iff hn]
    simp
  | parallel =>
    obtain ⟨r, rest, hregions⟩ := List.exists_cons_of_ne_nil (hc.regions_ne_nil hn)
    rw [Tree.fits_parallel_iff hn, hregions]
    refine ⟨nofun, fun ⟨_, _, _, _, hlisted⟩ => ?_⟩
    obtain ⟨u, hu, -⟩ := hlisted r List.mem_cons_self
    exact absurd hu List.not_mem_nil
  | history depth => simpa using Tree.not_fits_history (by rw [hn]; rfl)

/-- What reading a single key below a parallel state takes is that it has one region. -/
theorem regions_eq_singleton (hc : c.WellFormed) (hk : c.Keyed) (hq : q ∈ c.regions n)
    (h : ∀ r ∈ c.regions n, c.key r = c.key q) : c.regions n = [q] := by
  have hnodup : (c.regions n).Nodup :=
    (hc.inOrder.nodup_children n).filter _
  have heq : ∀ r ∈ c.regions n, r = q := fun r hr =>
    hk.child_eq (Tree.region_child hr) (Tree.region_child hq) (h r hr)
  obtain ⟨r, hr⟩ := List.length_eq_one_iff.mp (Nat.le_antisymm
    (length_le_one hnodup fun x hx y hy => (heq x hx).trans (heq y hy).symm)
    (List.length_pos_of_mem hq))
  rw [hr, List.mem_singleton] at hq
  rw [hr, hq]

theorem leavesUnder_leaf_eq_ok (hc : c.WellFormed) (hk : c.Keyed) :
    leavesUnder c.toTree n (.leaf key) = .ok leaves ↔
      c.Fits n (.node [(key, .node [])]) leaves := by
  rw [leavesUnder]
  cases hn : c.kind n with
  | atomic | final =>
    rw [Tree.fits_leaf_iff (by rw [hn]; rfl)]
    simp
  | compound =>
    rw [Tree.fits_compound_iff hn, bind_eq_ok]
    simp only [childFor_eq_ok hk, bareLeaves_eq_ok hc]
    constructor
    · rintro ⟨q, ⟨hq, rfl⟩, h⟩
      exact ⟨q, hq, _, rfl, h⟩
    · rintro ⟨q, hq, u, heq, h⟩
      obtain ⟨rfl, rfl⟩ : key = c.key q ∧ .node [] = u := by simpa using heq
      exact ⟨q, ⟨hq, rfl⟩, h⟩
  | parallel =>
    rw [Tree.fits_parallel_iff hn, bind_eq_ok]
    simp only [childFor_eq_ok hk, KeyTree.children, List.mem_singleton, forall_eq, Prod.mk.injEq]
    constructor
    · rintro ⟨q, ⟨hq, rfl⟩, h⟩
      split at h
      · rename_i hone
        obtain ⟨r, hr⟩ := List.length_eq_one_iff.mp hone
        rw [hr, List.mem_singleton] at hq
        subst hq
        refine ⟨by simp, ⟨q, by simp [hr], rfl⟩, fun _ => leaves, by simp [hr], fun r' hr' => ?_⟩
        rw [hr, List.mem_singleton] at hr'
        subst hr'
        exact ⟨_, ⟨rfl, rfl⟩, (bareLeaves_eq_ok hc).mp h⟩
      · cases h
    · rintro ⟨-, ⟨q, hq, rfl⟩, below, rfl, hbelow⟩
      have hregions := regions_eq_singleton hc hk hq fun r hr => (hbelow r hr).choose_spec.1.1
      obtain ⟨u, ⟨-, rfl⟩, hfits⟩ := hbelow q hq
      refine ⟨q, ⟨hq, rfl⟩, ?_⟩
      rw [hregions, if_pos List.length_singleton, List.flatMap_singleton]
      exact (bareLeaves_eq_ok hc).mpr hfits
  | history depth => simpa using Tree.not_fits_history (by rw [hn]; rfl)

/-- Reading a value below a state succeeds just if its tree fits the state. -/
theorem leavesUnder_eq_ok (hc : c.WellFormed) (hk : c.Keyed) (hv : v.Ordered) :
    leavesUnder c.toTree n v = .ok leaves ↔ c.Fits n v.tree leaves := by
  induction hv generalizing n leaves with
  | leaf key => exact leavesUnder_leaf_eq_ok hc hk
  | @nested children hasc _ ih =>
    rw [leavesUnder, tree]
    cases hn : c.kind n with
    | atomic | final =>
      rw [Tree.fits_leaf_iff (by rw [hn]; rfl)]
      cases children with
      | nil => simp [trees, eq_comm]
      | cons e rest => simp [trees]
    | compound =>
      rw [Tree.fits_compound_iff hn, leavesOfOnly_eq_ok hk]
      refine exists_congr fun q => and_congr_right fun _ => ⟨?_, ?_⟩
      · rintro ⟨v, rfl, h⟩
        exact ⟨v.tree, rfl, (ih _ List.mem_cons_self).mp h⟩
      · rintro ⟨u, heq, h⟩
        rw [trees_eq_map, KeyTree.node.injEq, List.map_eq_singleton_iff] at heq
        obtain ⟨⟨key, v⟩, rfl, heq⟩ := heq
        obtain ⟨rfl, rfl⟩ := Prod.mk.inj heq
        exact ⟨v, rfl, (ih _ List.mem_cons_self).mpr h⟩
    | parallel =>
      have hnamed : (∀ e ∈ trees children, ∃ q ∈ c.regions n, c.key q = e.1) ↔
          strayKey? c.toTree n children = none := by
        rw [strayKey?_eq_none hk, trees_eq_map, List.forall_mem_map]
      have hlisted : ∀ q L, (∃ u, (c.key q, u) ∈ trees children ∧ c.Fits q u L) ↔
          leavesOfRegion c.toTree n q children = .ok L := by
        intro q L
        rw [leavesOfRegion_eq_ok hasc]
        constructor
        · rintro ⟨u, hu, hfits⟩
          obtain ⟨v, hv, rfl⟩ := mem_trees.mp hu
          exact ⟨v, hv, (ih _ hv).mpr hfits⟩
        · rintro ⟨v, hv, h⟩
          exact ⟨v.tree, mem_trees.mpr ⟨v, hv, rfl⟩, (ih _ hv).mp h⟩
      rw [Tree.fits_parallel_iff hn, KeyTree.children, hnamed, keys_trees]
      simp only [hasc, hlisted, true_and]
      cases strayKey? c.toTree n children with
      | some key => simp
      | none =>
        simp only [bind_eq_ok, mapM_eq_ok_iff_exists, true_and]
        constructor
        · rintro ⟨parts, ⟨below, hbelow, rfl⟩, h⟩
          exact ⟨below, (Except.ok.inj h).symm.trans List.flatMap_def.symm, hbelow⟩
        · rintro ⟨below, rfl, hbelow⟩
          exact ⟨_, ⟨below, hbelow, rfl⟩, congrArg Except.ok List.flatMap_def.symm⟩
    | history depth => simpa using Tree.not_fits_history (by rw [hn]; rfl)

end StateValue

/-! ## What a tree that fits says -/

namespace Tree.Fits

variable {c : Chart} {l m n : Nat} {s : KeyTree} {leaves : List Nat}

theorem ordered (h : c.Fits n s leaves) : s.Ordered := by
  induction h with
  | leaf => exact KeyTree.ordered_empty
  | inner _ hasc hnamed hlisted _ ih =>
    refine .node hasc fun e he => ?_
    obtain ⟨q, hq, hkey⟩ := hnamed e he
    have hpart := (SortedMap.valueOf_eq_some hasc).mpr (hlisted q hq)
    rw [hkey, (SortedMap.valueOf_eq_some hasc).mpr he, Option.some.injEq] at hpart
    exact hpart ▸ ih q hq

variable (hc : c.WellFormed)
include hc

/-- The leaves a tree leads to are leaves inside the state. -/
theorem mem_leaves (h : c.Fits n s leaves) : ∀ l ∈ leaves, c.Within l n ∧
    (c.kind l).isLeaf = true := by
  induction h with
  | leaf hkind => simpa using hkind
  | inner hopens _ _ _ _ ih =>
    intro l hl
    obtain ⟨q, hq, hl⟩ := List.mem_flatMap.mp hl
    obtain ⟨hwithin, hleaf⟩ := ih q hq l hl
    have hchild := region_child (hopens.region hq)
    exact ⟨(hc.inOrder.below_of_within_child hchild hwithin).within, hleaf⟩

theorem exists_leaf (h : c.Fits n s leaves) : ∃ l, l ∈ leaves := by
  induction h with
  | leaf => exact ⟨_, List.mem_singleton_self _⟩
  | @inner n qs _ _ _ hopens _ _ _ _ ih =>
    obtain ⟨q, hq⟩ := List.exists_mem_of_ne_nil qs (hopens.ne_nil hc)
    obtain ⟨l, hl⟩ := ih q hq
    exact ⟨l, List.mem_flatMap.mpr ⟨q, hq, hl⟩⟩

/-- A tree that fits holds just the keys on the way to its leaves. -/
theorem has_iff (h : c.Fits n s leaves) {ks : List String} :
    s.Has ks ↔ ∃ l ∈ leaves, c.keyPath n ++ ks <+: c.keyPath l := by
  induction ks generalizing n s leaves with
  | nil =>
    obtain ⟨l, hl⟩ := h.exists_leaf hc
    have hprefix := hc.inOrder.keyPath_prefix (h.mem_leaves hc l hl).1
    simpa using ⟨l, hl, hprefix⟩
  | cons k ks ih =>
    cases h with
    | leaf hkind =>
      have hlonger : ¬ c.keyPath n ++ k :: ks <+: c.keyPath n := by
        intro hpre
        have hle := hpre.length_le
        rw [List.length_append, List.length_cons] at hle
        omega
      simpa using hlonger
    | @inner _ qs cs part leaves hopens hasc hnamed hlisted hbelow =>
      have hiff : ∀ q ∈ qs, ∀ l ∈ leaves q, (c.keyPath n ++ k :: ks <+: c.keyPath l ↔
          c.key q = k ∧ c.keyPath q ++ ks <+: c.keyPath l) := fun q hq l hl =>
        hc.inOrder.keyPath_cons_prefix_iff (region_child (hopens.region hq))
          ((hbelow q hq).mem_leaves hc l hl).1
      rw [KeyTree.has_node_cons]
      constructor
      · rintro ⟨u, hu, hhas⟩
        obtain ⟨q, hq, rfl⟩ := hnamed _ hu
        have hordered := (inner hopens hasc hnamed hlisted hbelow).ordered
        obtain rfl := hordered.child_unique hu (hlisted q hq)
        obtain ⟨l, hl, hpre⟩ := (ih (hbelow q hq)).mp hhas
        exact ⟨l, List.mem_flatMap.mpr ⟨q, hq, hl⟩, (hiff q hq l hl).mpr ⟨rfl, hpre⟩⟩
      · rintro ⟨l, hl, hpre⟩
        obtain ⟨q, hq, hl⟩ := List.mem_flatMap.mp hl
        obtain ⟨hkey, hpre⟩ := (hiff q hq l hl).mp hpre
        exact ⟨part q, hkey ▸ hlisted q hq, (ih (hbelow q hq)).mpr ⟨l, hl, hpre⟩⟩

/-- What a tree says of a state, it says of each state on the way to a leaf. -/
theorem exists_within (h : c.Fits n s leaves) (hm : c.Within m n) (hl : l ∈ leaves)
    (hlm : c.Within l m) :
    ∃ u inside, c.Fits m u inside ∧ ∀ l, l ∈ inside ↔ l ∈ leaves ∧ c.Within l m := by
  induction h with
  | @leaf n hkind =>
    obtain rfl := List.mem_singleton.mp hl
    obtain rfl : m = l := Nat.le_antisymm (hc.inOrder.le_of_within hlm) (hc.inOrder.le_of_within hm)
    exact ⟨_, _, .leaf hkind, by simp +contextual⟩
  | @inner n qs cs part leaves hopens hasc hnamed hlisted hbelow ih =>
    have hall := inner hopens hasc hnamed hlisted hbelow
    by_cases hmn : m = n
    · subst hmn
      exact ⟨_, _, hall, fun l => ⟨fun hl => ⟨hl, (hall.mem_leaves hc l hl).1⟩, And.left⟩⟩
    · -- the state lies within the region that the leaf lies within
      obtain ⟨r, hr, hmr⟩ := hc.inOrder.exists_child_within (hm.below_of_ne hmn)
      have hregion : ∀ q ∈ qs, ∀ l ∈ leaves q, c.Within l m → q = r := fun q hq l hl hlm =>
        hc.inOrder.child_unique (region_child (hopens.region hq)) hr
          ((hbelow q hq).mem_leaves hc l hl).1 (hc.inOrder.within_trans hlm hmr)
      obtain ⟨q, hq, hl⟩ := List.mem_flatMap.mp hl
      obtain rfl := hregion q hq l hl hlm
      obtain ⟨u, inside, hfits, hinside⟩ := ih q hq hmr hl
      refine ⟨u, inside, hfits, fun l => ?_⟩
      rw [hinside, List.mem_flatMap]
      constructor
      · rintro ⟨hl, hlm⟩
        exact ⟨⟨q, hq, hl⟩, hlm⟩
      · rintro ⟨⟨q', hq', hl⟩, hlm⟩
        exact ⟨hregion q' hq' l hl hlm ▸ hl, hlm⟩

end Tree.Fits

end Statechart
