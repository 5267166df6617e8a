/-
# Statechart.Proofs.Tree.Keys -- states by the keys that lead to them

The keys on the way to a state are those on the way to its parent and its own
(`InOrder.keyPath_child`). Where keys are valid and no two states answer to one text
(`Tree.WellNamed`), as in a machine that compiles, keys can stand in dotted paths, and the children
of a state have different ones (`Description.keyed_of_wellNamed`), so that a key leads from a state
to at most one child (`Keyed.childByKey?_eq_some`) and a dotted path from the root to at most one
state (`Keyed.findPath?_eq_some`).
-/

import Statechart.Proofs.Chart.WellFormed
import Statechart.Proofs.Path

namespace Statechart

namespace Tree

/-- Keys are plain and tell the children of a state apart. -/
structure Keyed (t : Tree) : Prop where
  plain : ∀ {n c}, c ∈ t.children n → Path.Plain (t.key c)
  child_eq : ∀ {n b c}, b ∈ t.children n → c ∈ t.children n → t.key b = t.key c → b = c

variable {t : Tree} {b c l m n p : Nat} {key : String}

namespace InOrder

variable (ht : t.InOrder)
include ht

@[simp] theorem keyPath_root : t.keyPath root = [] := by
  simp [keyPath, lineage, ht.ancestors_root]

/-- The keys to a child are those to its parent and its own. -/
theorem keyPath_child (hc : c ∈ t.children p) : t.keyPath c = t.keyPath p ++ [t.key c] :=
  ht.way_child t.key hc

/-- The keys to a state begin with those to any state around it. -/
theorem keyPath_prefix (h : t.Within n p) : t.keyPath p <+: t.keyPath n :=
  ht.prefix_of_within (fun hc => ht.keyPath_child hc ▸ List.prefix_append _ _) h

/-- What keys lead to a state within a child, as seen from the parent. -/
theorem keyPath_cons_prefix_iff {ks : List String} (hc : c ∈ t.children p) (hl : t.Within l c) :
    t.keyPath p ++ key :: ks <+: t.keyPath l ↔
      t.key c = key ∧ t.keyPath c ++ ks <+: t.keyPath l := by
  obtain ⟨rest, hrest⟩ := ht.keyPath_prefix hl
  rw [← hrest, ht.keyPath_child hc, List.append_assoc, List.append_assoc,
    List.prefix_append_right_inj, List.prefix_append_right_inj, List.singleton_append,
    List.singleton_append, List.cons_prefix_cons, List.cons_prefix_cons]
  simp [eq_comm]

/-- What the keys to a state begin with are the keys to the states around it. -/
theorem prefix_keyPath_iff {ks : List String} (hn : n < t.size) :
    ks <+: t.keyPath n ↔ ∃ p, t.Within n p ∧ t.keyPath p = ks := by
  refine ⟨fun h => ?_, fun ⟨p, hp, heq⟩ => heq ▸ ht.keyPath_prefix hp⟩
  induction n, hn using ht.induction with
  | root =>
    rw [ht.keyPath_root, List.prefix_nil] at h
    exact ⟨root, within_self t root, by rw [ht.keyPath_root, h]⟩
  | child q c hc ih =>
    rw [ht.keyPath_child hc, List.prefix_concat_iff, ← ht.keyPath_child hc] at h
    rcases h with rfl | h
    · exact ⟨c, within_self t c, rfl⟩
    · obtain ⟨p, hp, heq⟩ := ih h
      exact ⟨p, ht.within_trans (ht.below_child hc).within hp, heq⟩

/-- Keys that lead from one state to another are added to those of the first. -/
theorem keyPath_of_descend? {ks : List String} (h : t.descend? n ks = some c) :
    t.keyPath c = t.keyPath n ++ ks := by
  induction ks generalizing n with
  | nil =>
    cases h
    rw [List.append_nil]
  | cons key ks ih =>
    rw [descend?, List.foldlM_cons] at h
    obtain ⟨b, hb, h⟩ := Option.bind_eq_some_iff.mp h
    have hkey : t.key b = key := by simpa using List.find?_some hb
    rw [ih h, ht.keyPath_child (List.mem_of_find?_eq_some hb), hkey, List.append_assoc,
      List.singleton_append]

end InOrder

namespace Keyed

variable (hk : t.Keyed) (ht : t.InOrder)
include hk

include ht in
theorem plain_of_mem_keyPath (hn : n < t.size) : ∀ k ∈ t.keyPath n, Path.Plain k := by
  induction n, hn using ht.induction with
  | root => simp [ht.keyPath_root]
  | child p c hc ih =>
    intro k hmem
    rw [ht.keyPath_child hc, List.mem_append, List.mem_singleton] at hmem
    rcases hmem with hmem | rfl
    · exact ih k hmem
    · exact hk.plain hc

theorem childByKey?_eq_some : t.childByKey? n key = some c ↔ c ∈ t.children n ∧ t.key c = key := by
  constructor
  · intro h
    exact ⟨List.mem_of_find?_eq_some h, by simpa using List.find?_some h⟩
  · rintro ⟨hc, rfl⟩
    -- something with the key is found, and only this child has it
    cases hfind : t.childByKey? n (t.key c) with
    | none => exact absurd (List.find?_eq_none.mp hfind c hc) (by simp)
    | some b =>
      have hkey : t.key b = t.key c := by simpa using List.find?_some hfind
      rw [hk.child_eq (List.mem_of_find?_eq_some hfind) hc hkey]

include ht

/-- The path to a state below the root is cut into the keys that lead there. -/
theorem keys_relativePath (hn : n < t.size) : Path.keys (t.relativePath n) = t.keyPath n :=
  Path.keys_join (hk.plain_of_mem_keyPath ht hn)

/-- The keys to a state lead there from the root. -/
theorem descend?_keyPath (hn : n < t.size) : t.descend? root (t.keyPath n) = some n := by
  induction n, hn using ht.induction with
  | root => rw [ht.keyPath_root]; rfl
  | child p c hc ih =>
    rw [descend?] at ih
    rw [ht.keyPath_child hc, descend?, List.foldlM_append, ih]
    show t.childByKey? p (t.key c) >>= pure = some c
    rw [hk.childByKey?_eq_some.mpr ⟨hc, rfl⟩]
    rfl

theorem keyPath_inj (hm : m < t.size) (hn : n < t.size) (h : t.keyPath m = t.keyPath n) :
    m = n := by
  have hm' := hk.descend?_keyPath ht hm
  rw [h, hk.descend?_keyPath ht hn] at hm'
  exact (Option.some.inj hm').symm

/-- A dotted path leads to the state whose keys are its segments. -/
theorem findPath?_eq_some {path : String} (hn : n < t.size) :
    t.findPath? path = some n ↔ t.keyPath n = Path.segments path := by
  constructor
  · intro h
    rw [ht.keyPath_of_descend? h, ht.keyPath_root, List.nil_append]
  · intro h
    rw [findPath?, ← h, hk.descend?_keyPath ht hn]

end Keyed

/-! ## Keys that are accepted -/

/-- Where no name is at fault, neither is the key of any state. -/
theorem keyViolations_eq_nil {taken : List String} {places : List Place}
    (h : t.nameViolations taken places = []) : ∀ p ∈ places, t.keyViolations p = [] := by
  induction places generalizing taken with
  | nil => simp
  | cons p rest ih =>
    rw [nameViolations, List.append_eq_nil_iff, List.append_eq_nil_iff] at h
    intro q hq
    rcases List.mem_cons.mp hq with rfl | hq
    · exact h.1.1
    · exact ih h.2 q hq

theorem place_mem (hn : n < t.size) : t.place n ∈ t.places.toList := by
  rw [place, place?, Array.getElem?_eq_getElem hn, Option.getD_some]
  exact Array.mem_toList_iff.mpr (Array.getElem_mem hn)

end Tree

theorem plain_of_isValidKey {key : String} (h : isValidKey key = true) : Path.Plain key := by
  rw [isValidKey, Bool.and_eq_true, Bool.and_eq_true] at h
  obtain ⟨⟨hne, hdot⟩, -⟩ := h
  exact ⟨by simpa using hne, by simpa using hdot⟩

namespace Tree

/-- A state answers to its full id and to its label. -/
def Answers (t : Tree) (n : Nat) (name : String) : Prop :=
  n < t.size ∧ (t.id n = name ∨ (t.place n).label = some name)

instance (t : Tree) (n : Nat) (name : String) : Decidable (t.Answers n name) :=
  inferInstanceAs (Decidable (n < t.size ∧ (t.id n = name ∨ (t.place n).label = some name)))

/-- Keys are valid, and no two states answer to the same text. -/
structure WellNamed (t : Tree) : Prop where
  valid : ∀ {p c}, c ∈ t.children p → isValidKey (t.key c) = true
  eq_of_answers : ∀ {m n name}, t.Answers m name → t.Answers n name → m = n

/-- A text is looked up to the state that answers to it. -/
theorem WellNamed.lookup?_eq_some {t : Tree} (hw : t.WellNamed) {name : String} {n : Nat} :
    t.lookup? name = some n ↔ t.Answers n name := by
  have hplace : ∀ {i} (hi : i < t.places.toList.length), t.places.toList[i] = t.place i :=
    fun hi => by simp [place, place?, Array.getElem?_eq_getElem hi]
  have hdistinct : t.places.toList.Pairwise (fun p q => ∀ x ∈ q.names, x ∉ p.names) := by
    refine List.pairwise_iff_getElem.mpr fun i j hi hj hij x hxj hxi => ?_
    rw [hplace hi, mem_names] at hxi
    rw [hplace hj, mem_names] at hxj
    exact absurd (hw.eq_of_answers ⟨hi, hxi⟩ ⟨hj, hxj⟩) (Nat.ne_of_lt hij)
  rw [lookup?_eq_some_of_pairwise hdistinct, mem_names]
  rfl

end Tree

namespace Description

variable {d : Description} {hasGuard : String → Bool}

/-- What is accepted is well named. -/
theorem wellNamed_of_accepted (h : d.violations hasGuard = []) : d.tree.WellNamed where
  valid := by
    intro p c hc
    have hkey := Tree.keyViolations_eq_nil (nameViolations_eq_nil h) _
      (Tree.place_mem (d.inOrder.child_lt_size hc))
    have hparent : (d.tree.place c).parent = some p := d.inOrder.parent?_child hc
    rw [Tree.keyViolations, hparent] at hkey
    rw [Tree.key]
    by_contra hvalid
    simp [hvalid] at hkey
  eq_of_answers := by
    intro m n name hm hn
    have hlookup : ∀ {k}, d.tree.Answers k name → d.tree.lookup? name = some k := fun hk =>
      (Tree.lookup?_eq_some_of_pairwise
        (Tree.names_of_nameViolations (nameViolations_eq_nil h)).2).mpr
        ⟨hk.1, Tree.mem_names.mpr hk.2⟩
    exact Option.some.inj ((hlookup hm).symm.trans (hlookup hn))

/-- Valid keys are plain, and siblings with one key would have one id. -/
theorem keyed_of_wellNamed (h : d.tree.WellNamed) : d.tree.Keyed where
  plain := fun hc => plain_of_isValidKey (h.valid hc)
  child_eq := by
    intro n b c hb hc hkey
    have hid : d.tree.id c = d.tree.id b := by rw [id_child hb, id_child hc, hkey]
    exact h.eq_of_answers ⟨d.inOrder.child_lt_size hb, Or.inl rfl⟩
      ⟨d.inOrder.child_lt_size hc, Or.inl hid⟩

/-- What is accepted has plain keys that tell siblings apart. -/
theorem keyed_of_accepted (h : d.violations hasGuard = []) : d.tree.Keyed :=
  keyed_of_wellNamed (wellNamed_of_accepted h)

theorem keyed_of_compile {γ : Type} {guards : Guards γ} {options : Options} {m : Machine γ}
    (h : d.compile guards options = .ok m) : m.Keyed := by
  have hc : m.toChart = d.chart := by rw [compile_eq h]
  rw [hc]
  exact keyed_of_accepted (violations_of_compile h)

end Description

end Statechart
