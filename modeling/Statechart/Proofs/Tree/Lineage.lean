/-
# Statechart.Proofs.Tree.Lineage -- what lies below what

The states above a state form a chain from its parent to the root, and numbers follow document
order. `Tree.InOrder` says so in terms of parents and children only; everything else about
ancestors is derived from it here: `Below` is a strict order that respects the numbers, two states
above a third are comparable, and the states below one follow it without a gap
(`InOrder.within_of_between`).
-/

import Mathlib.Tactic.Common
import Statechart.Chart.Tree

namespace Statechart.Tree

/-! ## Below and within -/

/-- One state lies strictly below another. -/
def Below (t : Tree) (n above : Nat) : Prop := above ∈ t.ancestors n

/-- One state is another or lies below it. -/
def Within (t : Tree) (n top : Nat) : Prop := top ∈ t.lineage n

instance (t : Tree) (n above : Nat) : Decidable (t.Below n above) :=
  inferInstanceAs (Decidable (above ∈ t.ancestors n))

instance (t : Tree) (n top : Nat) : Decidable (t.Within n top) :=
  inferInstanceAs (Decidable (top ∈ t.lineage n))

variable {t : Tree} {a b c m n p : Nat}

@[simp] theorem isBelow_iff : t.isBelow n a = true ↔ t.Below n a := by
  simp [isBelow, Below]

@[simp] theorem isWithin_iff : t.isWithin n a = true ↔ t.Within n a := by
  simp [isWithin, Within]

theorem within_iff : t.Within n a ↔ n = a ∨ t.Below n a := by
  simp [Within, Below, lineage, eq_comm]

@[simp] theorem within_self (t : Tree) (n : Nat) : t.Within n n := by
  simp [Within, lineage]

theorem Below.within (h : t.Below n a) : t.Within n a := within_iff.mpr (Or.inr h)

theorem Within.below_of_ne (h : t.Within n a) (hne : n ≠ a) : t.Below n a :=
  (within_iff.mp h).resolve_left hne

theorem mem_regions : c ∈ t.regions n ↔ c ∈ t.children n ∧ (t.kind c).isHistory = false := by
  simp [regions]

theorem region_child (h : c ∈ t.regions n) : c ∈ t.children n := (mem_regions.mp h).1

/-- A number that no state has stands for a state alone. -/
theorem place_of_size_le (h : t.size ≤ n) :
    t.place n = ⟨"", "", none, .atomic, none, 0, [], []⟩ := by
  have hn : t.places[n]? = none := Array.getElem?_eq_none h
  simp [place, place?, hn]

theorem ancestors_of_size_le (h : t.size ≤ n) : t.ancestors n = [] := by
  simp [ancestors, place_of_size_le h]

theorem parent?_of_size_le (h : t.size ≤ n) : t.parent? n = none := by
  simp [parent?, place_of_size_le h]

theorem children_of_size_le (h : t.size ≤ n) : t.children n = [] := by
  simp [children, place_of_size_le h]

theorem Below.lt_size (h : t.Below n a) : n < t.size := by
  by_contra hn
  rw [Below, ancestors_of_size_le (Nat.le_of_not_lt hn)] at h
  exact List.not_mem_nil h

theorem lt_size_of_child (h : c ∈ t.children n) : n < t.size := by
  by_contra hn
  rw [children_of_size_le (Nat.le_of_not_lt hn)] at h
  exact List.not_mem_nil h

/-! ## Document order -/

/-- A tree whose states are numbered in document order. -/
structure InOrder (t : Tree) : Prop where
  size_pos : 0 < t.size
  parent?_root : t.parent? root = none
  parent?_child : ∀ {n c}, c ∈ t.children n → t.parent? c = some n
  depth_root : t.depth root = 0
  depth_child : ∀ {n c}, c ∈ t.children n → t.depth c = t.depth n + 1
  ancestors_root : t.ancestors root = []
  /-- The chain above a child is its parent and the chain above that. -/
  ancestors_child : ∀ {n c}, c ∈ t.children n → t.ancestors c = n :: t.ancestors n
  lt_child : ∀ {n c}, c ∈ t.children n → n < c
  child_lt_size : ∀ {n c}, c ∈ t.children n → c < t.size
  exists_parent : ∀ {n}, n ≠ root → n < t.size → ∃ p, n ∈ t.children p
  /-- Between a state and a child of it come only states below it. -/
  below_of_between : ∀ {p c n}, c ∈ t.children p → p < n → n < c → t.Below n p
  children_ascending : ∀ n, (t.children n).Pairwise (· < ·)

namespace InOrder

variable (ht : t.InOrder)
include ht

/-- What holds of the root and passes from parents to children holds of every state. -/
@[elab_as_elim]
theorem induction {motive : ∀ n, n < t.size → Prop} (root : motive root ht.size_pos)
    (child : ∀ p c (h : c ∈ t.children p), motive p (lt_size_of_child h) →
      motive c (ht.child_lt_size h)) (n : Nat) (hn : n < t.size) : motive n hn := by
  induction n using Nat.strongRecOn with
  | ind n ih =>
    by_cases h0 : n = Tree.root
    · subst h0
      exact root
    · obtain ⟨p, hp⟩ := ht.exists_parent h0 hn
      exact child p n hp (ih p (ht.lt_child hp) (lt_size_of_child hp))

theorem nodup_children (p : Nat) : (t.children p).Nodup :=
  (ht.children_ascending p).imp Nat.ne_of_lt

theorem lineage_child (h : c ∈ t.children p) : t.lineage c = c :: t.lineage p := by
  rw [lineage, ht.ancestors_child h]
  rfl

theorem below_child (h : c ∈ t.children p) : t.Below c p := by
  simp [Below, ht.ancestors_child h]

theorem parent?_eq_some : t.parent? c = some p ↔ c ∈ t.children p := by
  refine ⟨fun h => ?_, ht.parent?_child⟩
  have hc : c < t.size := by
    by_contra hc
    rw [parent?_of_size_le (Nat.le_of_not_lt hc)] at h
    exact nomatch h
  have hroot : c ≠ root := by
    rintro rfl
    rw [ht.parent?_root] at h
    exact nomatch h
  obtain ⟨q, hq⟩ := ht.exists_parent hroot hc
  rw [ht.parent?_child hq] at h
  exact Option.some.inj h ▸ hq

@[simp] theorem not_below_root : ¬ t.Below root a := by
  simp [Below, ht.ancestors_root]

/-- The states above one are its parent and those above that. -/
theorem ancestors_eq (n : Nat) : t.ancestors n =
    match t.parent? n with
    | none => []
    | some p => t.lineage p := by
  by_cases hn : n < t.size
  · induction n, hn using ht.induction with
    | root => rw [ht.ancestors_root, ht.parent?_root]
    | child p c hc _ =>
      rw [ht.ancestors_child hc, ht.parent?_child hc]
      rfl
  · rw [ancestors_of_size_le (Nat.le_of_not_lt hn), parent?_of_size_le (Nat.le_of_not_lt hn)]

theorem not_root_child : root ∉ t.children p := fun h =>
  absurd (ht.lt_child h) (Nat.not_lt_zero p)

/-- What lies below a state as seen from one of its children. -/
theorem below_child_iff (h : c ∈ t.children p) : t.Below c a ↔ t.Within p a := by
  simp [Below, Within, lineage, ht.ancestors_child h]

theorem below_iff_parent : t.Below n a ↔ ∃ p, n ∈ t.children p ∧ t.Within p a := by
  constructor
  · intro h
    have hroot : n ≠ root := fun e => ht.not_below_root (e ▸ h)
    obtain ⟨p, hp⟩ := ht.exists_parent hroot h.lt_size
    exact ⟨p, hp, (ht.below_child_iff hp).mp h⟩
  · rintro ⟨p, hp, h⟩
    exact (ht.below_child_iff hp).mpr h

theorem lt_of_below (h : t.Below n a) : a < n := by
  have hn := h.lt_size
  induction n, hn using ht.induction with
  | root => exact absurd h ht.not_below_root
  | child p c hc ih =>
    have hpc := ht.lt_child hc
    rcases within_iff.mp ((ht.below_child_iff hc).mp h) with rfl | hp
    · exact hpc
    · exact Nat.lt_trans (ih hp) hpc

theorem not_below_self : ¬ t.Below n n := fun h => Nat.lt_irrefl n (ht.lt_of_below h)

theorem le_of_within (h : t.Within n a) : a ≤ n := by
  rcases within_iff.mp h with rfl | h
  · exact Nat.le_refl n
  · exact Nat.le_of_lt (ht.lt_of_below h)

theorem within_antisymm (h : t.Within n a) (h' : t.Within a n) : n = a :=
  Nat.le_antisymm (ht.le_of_within h') (ht.le_of_within h)

theorem below_trans (h : t.Below n m) (h' : t.Below m a) : t.Below n a := by
  have hn := h.lt_size
  induction n, hn using ht.induction with
  | root => exact absurd h ht.not_below_root
  | child p c hc ih =>
    rw [ht.below_child_iff hc] at h ⊢
    rcases within_iff.mp h with rfl | hp
    · exact h'.within
    · exact (ih hp).within

theorem below_of_within_of_below (h : t.Within n m) (h' : t.Below m a) : t.Below n a := by
  rcases within_iff.mp h with rfl | h
  · exact h'
  · exact ht.below_trans h h'

theorem below_of_below_of_within (h : t.Below n m) (h' : t.Within m a) : t.Below n a := by
  rcases within_iff.mp h' with rfl | h'
  · exact h
  · exact ht.below_trans h h'

theorem within_trans (h : t.Within n m) (h' : t.Within m a) : t.Within n a := by
  rcases within_iff.mp h with rfl | h
  · exact h'
  · exact (ht.below_of_below_of_within h h').within

theorem lt_size_of_within (h : t.Within n a) (hn : n < t.size) : a < t.size :=
  Nat.lt_of_le_of_lt (ht.le_of_within h) hn

theorem within_root (hn : n < t.size) : t.Within n root := by
  induction n, hn using ht.induction with
  | root => exact within_self t root
  | child p c hc ih => exact ((ht.below_child_iff hc).mpr ih).within

theorem below_root (hn : n < t.size) (h : n ≠ root) : t.Below n root :=
  (ht.within_root hn).below_of_ne h

/-- Two states above a third lie on one chain. -/
theorem within_or_within (ha : t.Within n a) (hb : t.Within n b) :
    t.Within a b ∨ t.Within b a := by
  by_cases hn : n < t.size
  · induction n, hn using ht.induction with
    | root =>
      rcases within_iff.mp ha with rfl | ha
      · exact Or.inl hb
      · exact absurd ha ht.not_below_root
    | child p c hc ih =>
      -- the first of the two to be met on the way up lies within the other
      rcases within_iff.mp ha with rfl | ha
      · exact Or.inl hb
      · rcases within_iff.mp hb with rfl | hb
        · exact Or.inr ha.within
        · exact ih ((ht.below_child_iff hc).mp ha) ((ht.below_child_iff hc).mp hb)
  · rcases within_iff.mp ha with rfl | ha
    · exact Or.inl hb
    · exact absurd ha.lt_size hn

/-- A state below another lies within one of its children. -/
theorem exists_child_within (h : t.Below n a) : ∃ c ∈ t.children a, t.Within n c := by
  have hn := h.lt_size
  induction n, hn using ht.induction with
  | root => exact absurd h ht.not_below_root
  | child p c hc ih =>
    rcases within_iff.mp ((ht.below_child_iff hc).mp h) with rfl | hp
    · exact ⟨c, hc, within_self t c⟩
    · obtain ⟨d, hd, hpd⟩ := ih hp
      exact ⟨d, hd, ht.within_trans (ht.below_child hc).within hpd⟩

/-- The way down to a child is that to its parent and one step more. -/
theorem way_child {α : Type} (f : Nat → α) (hc : c ∈ t.children p) :
    (((t.lineage c).filter (fun m => m ≠ root)).map f).reverse =
      (((t.lineage p).filter (fun m => m ≠ root)).map f).reverse ++ [f c] := by
  have hne : c ≠ root := fun e => ht.not_root_child (e ▸ hc)
  rw [ht.lineage_child hc, List.filter_cons_of_pos (by simpa using hne), List.map_cons,
    List.reverse_cons]

/-- What only gets longer on the way down begins, for a state, with what there is for each state
around it. -/
theorem prefix_of_within {α : Type} {f : Nat → List α}
    (hf : ∀ {p c}, c ∈ t.children p → f p <+: f c) (h : t.Within n p) : f p <+: f n := by
  rcases within_iff.mp h with rfl | hbelow
  · exact List.prefix_rfl
  · have hn := hbelow.lt_size
    induction n, hn using ht.induction with
    | root => exact absurd hbelow ht.not_below_root
    | child q c hc ih =>
      have hqp := (ht.below_child_iff hc).mp hbelow
      rcases within_iff.mp hqp with rfl | hq
      · exact hf hc
      · exact (ih hqp hq).trans (hf hc)

theorem below_of_within_child (hc : c ∈ t.children a) (h : t.Within n c) : t.Below n a :=
  ht.below_of_within_of_below h (ht.below_child hc)

/-- That child is the only one. -/
theorem child_unique (hb : b ∈ t.children a) (hc : c ∈ t.children a) (hnb : t.Within n b)
    (hnc : t.Within n c) : b = c := by
  have key : ∀ {b c}, b ∈ t.children a → c ∈ t.children a → t.Within b c → b = c := by
    -- if one lay below the other, their parent would lie within a child of its own
    intro b c hb hc h
    by_contra hne
    have hac := (ht.below_child_iff hb).mp (h.below_of_ne hne)
    exact absurd (ht.le_of_within hac) (Nat.not_le_of_lt (ht.lt_child hc))
  rcases ht.within_or_within hnb hnc with h | h
  · exact key hb hc h
  · exact (key hc hb h).symm

theorem parent_unique (hp : c ∈ t.children a) (hq : c ∈ t.children b) : a = b := by
  have h := ht.parent?_child hp
  rw [ht.parent?_child hq] at h
  exact (Option.some.inj h).symm

/-- A state within one that is not the same has its parent there. -/
theorem parent_within (hc : c ∈ t.children p) (h : t.Within c a) (hne : c ≠ a) : t.Within p a :=
  (ht.below_child_iff hc).mp (h.below_of_ne hne)

/-- Two states of which neither lies around the other lie in different children of a state. -/
theorem exists_split (ha : a < t.size) (hb : b < t.size) (hab : ¬ t.Within a b)
    (hba : ¬ t.Within b a) :
    ∃ n q q', q ∈ t.children n ∧ q' ∈ t.children n ∧ q ≠ q' ∧ t.Within a q ∧ t.Within b q' := by
  induction a, ha using ht.induction with
  | root => exact absurd (ht.within_root hb) hba
  | child p a ha ih =>
    have hpa := (ht.below_child ha).within
    -- climb from `a` until the other state lies within the one reached
    by_cases hbp : t.Within b p
    · have hne : b ≠ p := fun e => hab (e ▸ hpa)
      obtain ⟨q, hq, hbq⟩ := ht.exists_child_within (hbp.below_of_ne hne)
      exact ⟨p, a, q, ha, hq, fun e => hba (e ▸ hbq), within_self t a, hbq⟩
    · obtain ⟨n, q, q', hq, hq', hne, hpq, hbq⟩ := ih (fun h => hab (ht.within_trans hpa h)) hbp
      exact ⟨n, q, q', hq, hq', hne, ht.within_trans hpa hpq, hbq⟩

/-- That state is the only one. -/
theorem split_unique {q q' u u' : Nat} (hq : q ∈ t.children n) (hq' : q' ∈ t.children n)
    (hne : q ≠ q') (hu : u ∈ t.children m) (hu' : u' ∈ t.children m) (hne' : u ≠ u')
    (haq : t.Within a q) (hbq : t.Within b q') (hau : t.Within a u) (hbu : t.Within b u') :
    n = m := by
  have key : ∀ {n m q q' u u'}, q ∈ t.children n → q' ∈ t.children n → u ∈ t.children m →
      u' ∈ t.children m → u ≠ u' → t.Within a q → t.Within b q' → t.Within a u →
      t.Within b u' → ¬ t.Below n m := by
    intro n m q q' u u' hq hq' hu hu' hne' haq hbq hau hbu hnm
    -- all of the one split would lie within one child of the other
    obtain ⟨v, hv, hnv⟩ := ht.exists_child_within hnm
    have hav := ht.within_trans (ht.below_of_within_child hq haq).within hnv
    have hbv := ht.within_trans (ht.below_of_within_child hq' hbq).within hnv
    exact hne' ((ht.child_unique hu hv hau hav).trans (ht.child_unique hv hu' hbv hbu))
  rcases ht.within_or_within (ht.below_of_within_child hq haq).within
    (ht.below_of_within_child hu hau).within with h | h
  · exact (within_iff.mp h).resolve_right (key hq hq' hu hu' hne' haq hbq hau hbu)
  · exact ((within_iff.mp h).resolve_right (key hu hu' hq hq' hne hau hbu haq hbq)).symm

/-- Each state of a lineage comes after the ones around it. -/
theorem lineage_descending (n : Nat) : (t.lineage n).Pairwise (fun a b => b < a) := by
  by_cases hn : n < t.size
  · induction n, hn using ht.induction with
    | root => simp [lineage, ht.ancestors_root]
    | child p c hc ih =>
      rw [ht.lineage_child hc]
      refine List.pairwise_cons.mpr ⟨fun a ha => ?_, ih⟩
      exact Nat.lt_of_le_of_lt (ht.le_of_within ha) (ht.lt_child hc)
  · simp [lineage, ancestors_of_size_le (Nat.le_of_not_lt hn)]

/-- The innermost state around two states lies within all others around both. -/
theorem commonAncestor_spec (ha : a < t.size) (hb : b < t.size) :
    t.Within a (t.commonAncestor a b) ∧ t.Within b (t.commonAncestor a b) ∧
      ∀ n, t.Within a n → t.Within b n → t.Within (t.commonAncestor a b) n := by
  unfold commonAncestor
  cases hf : (t.lineage a).find? (fun n => (t.lineage b).contains n) with
  | none =>
    have hroot := List.find?_eq_none.mp hf root (ht.within_root ha)
    exact absurd (ht.within_root hb) (by simpa [Within] using hroot)
  | some s =>
    obtain ⟨hs, before, after, heq, hbefore⟩ := List.find?_eq_some_iff_append.mp hf
    have has : t.Within a s := by
      rw [Within, heq]
      exact List.mem_append_right _ List.mem_cons_self
    refine ⟨has, by simpa [Within] using hs, fun n hna hnb => ?_⟩
    rcases ht.within_or_within has hna with h | h
    · exact h
    · have hmem := hna
      rw [Within, heq, List.mem_append, List.mem_cons] at hmem
      -- whatever comes before in the lineage is not around both, and what comes after lies around
      rcases hmem with hmem | rfl | hmem
      · exact absurd hnb (by simpa [Within] using hbefore n hmem)
      · exact h
      · have hdesc := ht.lineage_descending a
        rw [heq] at hdesc
        have hlt := List.rel_of_pairwise_cons (List.pairwise_append.mp hdesc).2.1 hmem
        exact absurd (ht.le_of_within h) (Nat.not_le_of_lt hlt)

/-- The states within one state follow each other without a gap. -/
theorem within_of_between (ha : t.Within a n) (hb : t.Within b n) (ham : a ≤ m) (hmb : m ≤ b) :
    t.Within m n := by
  have hnm : n ≤ m := Nat.le_trans (ht.le_of_within ha) ham
  -- climb from `b` to the first state above it that does not come after `m`
  induction b using Nat.strongRecOn with
  | ind b ih =>
    rcases Nat.eq_or_lt_of_le hmb with rfl | hlt
    · exact hb
    · have hne : b ≠ n := by omega
      obtain ⟨p, hp, hpn⟩ := ht.below_iff_parent.mp (hb.below_of_ne hne)
      rcases Nat.lt_trichotomy p m with hpm | rfl | hpm
      · exact (ht.below_of_below_of_within (ht.below_of_between hp hpm hlt) hpn).within
      · exact hpn
      · exact ih p (ht.lt_child hp) hpn (Nat.le_of_lt hpm)

/-- What lies within a child comes before every later one. -/
theorem lt_of_within_child {q : Nat} (hc : c ∈ t.children p) (hq : q ∈ t.children p) (h : c < q)
    (hn : t.Within n c) : n < q := by
  by_contra hqn
  have hwithin := ht.within_of_between (within_self t c) hn (Nat.le_of_lt h)
    (Nat.le_of_not_lt hqn)
  have heq := ht.child_unique hc hq hwithin (within_self t q)
  exact absurd heq (Nat.ne_of_lt h)

end InOrder

end Statechart.Tree
