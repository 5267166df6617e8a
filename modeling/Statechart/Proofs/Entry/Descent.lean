/-
# Statechart.Proofs.Entry.Descent -- what entering a state brings with it

An entered state brings a child with it, or all its regions: toward the states that are aimed at
where there are any, and by default elsewhere. `Chart.Leads` is one step of this descent and
`Chart.Descends` any number of them. Adding a state to the states to enter adds its default descent
and nothing else, and leaves nothing that it adds without what that needs below it
(`addDefault_extends`); the number of levels allowed never cuts it short.
-/

import Mathlib.Logic.Relation
import Statechart.Step.Entry
import Statechart.Proofs.Chart.WellFormed

namespace Statechart.Chart

variable {c : Chart} {goal : Nat → Prop} {s s' s'' : Entering} {m n p q : Nat}

/-! ## Descents -/

/-- Some goal lies within a state. -/
def Aimed (c : Chart) (goal : Nat → Prop) (n : Nat) : Prop := ∃ g, goal g ∧ c.Within g n

/-- What is entered right below an entered state. -/
inductive Leads (c : Chart) (goal : Nat → Prop) (n m : Nat) : Prop
  | toward : c.kind n = .compound → m ∈ c.regions n → c.Aimed goal m → Leads c goal n m
  | initial : c.kind n = .compound → (∀ q ∈ c.regions n, ¬ c.Aimed goal q) →
      c.initial? n = some m → Leads c goal n m
  | region : c.kind n = .parallel → m ∈ c.regions n → Leads c goal n m

/-- What is entered with an entered state. -/
def Descends (c : Chart) (goal : Nat → Prop) : Nat → Nat → Prop :=
  Relation.ReflTransGen (c.Leads goal)

/-- Nothing is aimed at: everything is entered by default. -/
def noGoal (_ : Nat) : Prop := False

@[simp] theorem not_aimed_noGoal : ¬ c.Aimed noGoal n := fun ⟨_, h, _⟩ => h

namespace WellFormed

variable (hc : c.WellFormed)
include hc

theorem leads_region (h : c.Leads goal n m) : m ∈ c.regions n := by
  cases h with
  | toward _ hm _ => exact hm
  | initial hk _ hi => exact hc.initial_region hk hi
  | region _ hm => exact hm

theorem leads_child (h : c.Leads goal n m) : m ∈ c.children n :=
  Tree.region_child (hc.leads_region h)

omit hc in
/-- By default a compound state leads to its initial state. -/
theorem initial_of_leads (h : c.Leads noGoal n m) (hk : c.kind n = .compound) :
    c.initial? n = some m := by
  cases h with
  | toward _ _ haim => exact absurd haim not_aimed_noGoal
  | initial _ _ hi => exact hi
  | region hk' _ =>
    rw [hk] at hk'
    exact absurd hk' (by decide)

theorem descends_within (h : c.Descends goal n m) : c.Within m n := by
  induction h with
  | refl => exact Tree.within_self _ n
  | tail _ hl ih =>
    exact hc.inOrder.within_trans (hc.inOrder.below_child (hc.leads_child hl)).within ih

theorem descends_not_history (h : c.Descends goal n m) (hn : (c.kind n).isHistory = false) :
    (c.kind m).isHistory = false := by
  cases h with
  | refl => exact hn
  | tail _ hl => exact (Tree.mem_regions.mp (hc.leads_region hl)).2

theorem descends_lt_size (h : c.Descends goal n m) (hn : n < c.size) : m < c.size := by
  cases h with
  | refl => exact hn
  | tail _ hl => exact hc.inOrder.child_lt_size (hc.leads_child hl)

/-- A descent comes through everything that lies between its ends. -/
theorem descends_of_within (h : c.Descends goal n m) (hmq : c.Within m q) (hqn : c.Within q n) :
    c.Descends goal n q ∧ c.Descends goal q m := by
  induction h with
  | refl =>
    obtain rfl := hc.inOrder.within_antisymm hmq hqn
    exact ⟨.refl, .refl⟩
  | @tail b m hpath hl ih =>
    by_cases hne : m = q
    · subst hne
      exact ⟨hpath.tail hl, .refl⟩
    · obtain ⟨hnq, hqb⟩ := ih (hc.inOrder.parent_within (hc.leads_child hl) hmq hne)
      exact ⟨hnq, hqb.tail hl⟩

/-- Where no goal lies below, the descent is the default one. -/
theorem descends_of_default (hbelow : ∀ g, goal g → ¬ c.Below g n)
    (h : c.Descends noGoal n m) : c.Descends goal n m := by
  induction h with
  | refl => exact .refl
  | @tail a b hab hl ih =>
    refine ih.tail ?_
    cases hl with
    | toward _ _ haim => exact absurd haim not_aimed_noGoal
    | initial hk _ hi =>
      -- a goal in a child would lie below the state where the descent begins
      refine .initial hk (fun q hq haim => ?_) hi
      obtain ⟨g, hg, hgq⟩ := haim
      have hga := hc.inOrder.below_of_within_child (Tree.region_child hq) hgq
      exact hbelow g hg (hc.inOrder.below_of_below_of_within hga (hc.descends_within hab))
    | region hk hb => exact .region hk hb

theorem default_of_descends (hbelow : ∀ g, goal g → ¬ c.Below g n)
    (h : c.Descends goal n m) : c.Descends noGoal n m := by
  induction h with
  | refl => exact .refl
  | @tail a b hab hl ih =>
    refine ih.tail ?_
    cases hl with
    | toward _ hb haim =>
      obtain ⟨g, hg, hgb⟩ := haim
      have hga := hc.inOrder.below_of_within_child (Tree.region_child hb) hgb
      exact absurd (hc.inOrder.below_of_below_of_within hga (hc.descends_within hab)) (hbelow g hg)
    | initial hk _ hi => exact .initial hk (fun _ _ => not_aimed_noGoal) hi
    | region hk hb => exact .region hk hb

end WellFormed

/-! ## Growing sets -/

instance : HasSubset Entering := ⟨fun s s' => ∀ m ∈ s, m ∈ s'⟩

/-- Something within a state is to be entered. -/
def Covers (c : Chart) (s : Entering) (n : Nat) : Prop := ∃ m ∈ s, c.Within m n

@[simp] theorem isCovered_iff : c.isCovered s n = true ↔ c.Covers s n := by
  simp [isCovered, Covers, SortedSet.mem_iff]

theorem covers_of_mem (h : n ∈ s) : c.Covers s n := ⟨n, h, Tree.within_self _ n⟩

theorem Covers.mono (h : c.Covers s n) (hs : s ⊆ s') : c.Covers s' n := by
  obtain ⟨m, hm, hmn⟩ := h
  exact ⟨m, hs m hm, hmn⟩

/-- Something is entered within a child of a compound state, and within every region of a parallel
one. -/
structure Supported (c : Chart) (s : Entering) (n : Nat) : Prop where
  compound : c.kind n = .compound → ∃ q ∈ c.regions n, c.Covers s q
  parallel : c.kind n = .parallel → ∀ q ∈ c.regions n, c.Covers s q

theorem Supported.mono (h : c.Supported s n) (hs : s ⊆ s') : c.Supported s' n where
  compound := fun hk => (h.compound hk).imp fun _ hq => ⟨hq.1, hq.2.mono hs⟩
  parallel := fun hk q hq => (h.parallel hk q hq).mono hs

/-- A set grows by states with a property, each with what it needs below, and each but the
outermost ones with its parent. -/
structure Extends (c : Chart) (s s' : Entering) (new outer : Nat → Prop) : Prop where
  subset : s ⊆ s'
  new : ∀ m ∈ s', m ∈ s ∨ new m
  supported : ∀ m ∈ s', m ∈ s ∨ c.Supported s' m
  parent : ∀ m ∈ s', m ∈ s ∨ outer m ∨ ∃ p ∈ s', m ∈ c.children p

namespace Extends

variable {new outer new' outer' : Nat → Prop}

theorem refl (c : Chart) (s : Entering) (new outer : Nat → Prop) : c.Extends s s new outer where
  subset := fun _ h => h
  new := fun _ h => Or.inl h
  supported := fun _ h => Or.inl h
  parent := fun _ h => Or.inl h

theorem trans (h : c.Extends s s' new outer) (h' : c.Extends s' s'' new outer) :
    c.Extends s s'' new outer where
  subset := fun m hm => h'.subset m (h.subset m hm)
  new := fun m hm => (h'.new m hm).elim (h.new m) Or.inr
  supported := by
    intro m hm
    rcases h'.supported m hm with hm | hm
    · exact (h.supported m hm).imp_right fun hs => hs.mono h'.subset
    · exact Or.inr hm
  parent := by
    intro m hm
    rcases h'.parent m hm with hm | hm
    · rcases h.parent m hm with hm | hm | ⟨p, hp, hmp⟩
      · exact Or.inl hm
      · exact Or.inr (Or.inl hm)
      · exact Or.inr (Or.inr ⟨p, h'.subset p hp, hmp⟩)
    · exact Or.inr hm

theorem mono (h : c.Extends s s' new outer) (hnew : ∀ m, new m → new' m)
    (houter : ∀ m, outer m → outer' m ∨ ∃ p ∈ s', m ∈ c.children p) :
    c.Extends s s' new' outer' where
  subset := h.subset
  new := fun m hm => (h.new m hm).imp_right (hnew m)
  supported := h.supported
  parent := by
    intro m hm
    rcases h.parent m hm with hm | hm | hm
    · exact Or.inl hm
    · exact Or.inr (houter m hm)
    · exact Or.inr (Or.inr hm)

/-- Putting one state in first, which gets what it needs in the end. -/
theorem of_insert (h : c.Extends (s.insert n) s' new outer) (hnew : new n) (houter : outer n)
    (hn : c.Supported s' n) : c.Extends s s' new outer where
  subset := fun m hm => h.subset m (SortedSet.mem_insert.mpr (Or.inr hm))
  new := by
    intro m hm
    rcases h.new m hm with hm | hm
    · exact (SortedSet.mem_insert.mp hm).symm.imp_right fun e : m = n => e ▸ hnew
    · exact Or.inr hm
  supported := by
    intro m hm
    rcases h.supported m hm with hm | hm
    · exact (SortedSet.mem_insert.mp hm).symm.imp_right fun e : m = n => e ▸ hn
    · exact Or.inr hm
  parent := by
    intro m hm
    rcases h.parent m hm with hm | hm
    · exact (SortedSet.mem_insert.mp hm).symm.imp_right fun e : m = n => Or.inl (e ▸ houter)
    · exact Or.inr hm

theorem mem_of_insert (h : c.Extends (s.insert n) s' new outer) : n ∈ s' :=
  h.subset n (SortedSet.mem_insert.mpr (Or.inl rfl))

end Extends

/-! ## Entering by default -/

/-- Entering, in turn, the regions in which nothing is to be entered yet. -/
theorem foldl_uncovered_extends {f : Nat → Entering → Entering} {l : List Nat}
    (hf : ∀ q ∈ l, ∀ s, q ∈ f q s ∧ c.Extends s (f q s) (c.Descends noGoal q) (· = q)) :
    (∀ q ∈ l, c.Covers (l.foldl (fun s q => if c.isCovered s q then s else f q s) s) q) ∧
      c.Extends s (l.foldl (fun s q => if c.isCovered s q then s else f q s) s)
        (fun m => ∃ q ∈ l, ¬ c.Covers s q ∧ c.Descends noGoal q m) (· ∈ l) := by
  induction l generalizing s with
  | nil => exact ⟨by simp, Extends.refl c s _ _⟩
  | cons q l ih =>
    rw [List.foldl_cons]
    have step : c.Covers (if c.isCovered s q then s else f q s) q ∧
        c.Extends s (if c.isCovered s q then s else f q s)
          (fun m => ¬ c.Covers s q ∧ c.Descends noGoal q m) (· = q) := by
      split
      · rename_i hcov
        exact ⟨isCovered_iff.mp hcov, Extends.refl c s _ _⟩
      · rename_i hcov
        obtain ⟨hmem, hext⟩ := hf q (by simp) s
        rw [isCovered_iff] at hcov
        exact ⟨covers_of_mem hmem, hext.mono (fun m hm => ⟨hcov, hm⟩) (fun m hm => Or.inl hm)⟩
    obtain ⟨hcovers, hrest⟩ := ih (s := if c.isCovered s q then s else f q s)
      (fun q' hq' => hf q' (List.mem_cons_of_mem q hq'))
    refine ⟨fun q' hq' => ?_, ?_⟩
    · rcases List.mem_cons.mp hq' with rfl | hq'
      · exact step.1.mono hrest.subset
      · exact hcovers q' hq'
    · refine (step.2.mono (fun m hm => ⟨q, by simp, hm⟩) (fun m hm => Or.inl (by simp [hm]))).trans
        (hrest.mono ?_ (fun m hm => Or.inl (List.mem_cons_of_mem q hm)))
      rintro m ⟨q', hq', hnot, hd⟩
      exact ⟨q', List.mem_cons_of_mem q hq', fun hcov => hnot (hcov.mono step.2.subset), hd⟩

namespace WellFormed

variable (hc : c.WellFormed)
include hc

/-- Levels enough for the states after one are enough for what it begins with. -/
theorem addDefaultWithin_extends (levels : Nat) (hn : n < c.size) (hlevels : c.size ≤ n + levels)
    (hk : (c.kind n).isHistory = false) (s : Entering) :
    n ∈ c.addDefaultWithin levels n s ∧
      c.Extends s (c.addDefaultWithin levels n s) (c.Descends noGoal n) (· = n) := by
  -- a child has a greater number than its parent, so one level less is enough for it
  induction levels generalizing n s with
  | zero => omega
  | succ levels ih =>
    have hchild : ∀ q ∈ c.regions n, ∀ s, q ∈ c.addDefaultWithin levels q s ∧
        c.Extends s (c.addDefaultWithin levels q s) (c.Descends noGoal q) (· = q) := by
      intro q hq s
      obtain ⟨hqc, hqk⟩ := Tree.mem_regions.mp hq
      have hlt := hc.inOrder.lt_child hqc
      exact ih (hc.inOrder.child_lt_size hqc) (by omega) hqk s
    rw [addDefaultWithin]
    cases hkind : c.kind n with
    | atomic | final =>
      have h := Extends.refl c (s.insert n) (c.Descends noGoal n) (· = n)
      refine ⟨h.mem_of_insert, h.of_insert .refl rfl ?_⟩
      exact ⟨fun e => by simp [hkind] at e, fun e => by simp [hkind] at e⟩
    | compound =>
      obtain ⟨i, hreg, hi⟩ := hc.exists_initial hkind
      obtain ⟨hmem, hext⟩ := hchild i hreg (s.insert n)
      simp only [hi]
      have hlead : c.Leads noGoal n i := .initial hkind (fun _ _ => not_aimed_noGoal) hi
      have hin := hext.mem_of_insert
      have h : c.Extends (s.insert n) _ (c.Descends noGoal n) (· = n) := hext.mono
        (fun m hm => .head hlead hm)
        (fun m hm => Or.inr ⟨n, hin, hm ▸ Tree.region_child hreg⟩)
      refine ⟨hin, h.of_insert .refl rfl ?_⟩
      exact ⟨fun _ => ⟨i, hreg, covers_of_mem hmem⟩, fun e => by simp [hkind] at e⟩
    | parallel =>
      obtain ⟨hcovers, hext⟩ := foldl_uncovered_extends (s := s.insert n) hchild
      have hin := hext.mem_of_insert
      have h : c.Extends (s.insert n) _ (c.Descends noGoal n) (· = n) := hext.mono
        (fun m hm => by
          obtain ⟨q, hq, -, hm⟩ := hm
          exact .head (.region hkind hq) hm)
        (fun m hm => Or.inr ⟨n, hin, Tree.region_child hm⟩)
      refine ⟨hin, h.of_insert .refl rfl ?_⟩
      exact ⟨fun e => by simp [hkind] at e, fun _ => hcovers⟩
    | history depth => simp [hkind, Kind.isHistory] at hk

/-- Entering a state by default adds its default descent. -/
theorem addDefault_extends (hn : n < c.size) (hk : (c.kind n).isHistory = false) (s : Entering) :
    n ∈ c.addDefault n s ∧ c.Extends s (c.addDefault n s) (c.Descends noGoal n) (· = n) :=
  hc.addDefaultWithin_extends c.size hn (Nat.le_add_left c.size n) hk s

/-- What a state on the way to something brings with it: the regions aside. -/
theorem addPassed_extends {y : Nat} (hy : y ∈ s) (hbelow : c.Below y n)
    (hk : (c.kind y).isHistory = false) :
    n ∈ c.addPassed s n ∧ c.Extends s (c.addPassed s n)
      (fun m => m = n ∨ c.kind n = .parallel ∧ ∃ q ∈ c.regions n, ¬ c.Covers s q ∧
        c.Descends noGoal q m) (· = n) := by
  obtain ⟨q, hq, hyq⟩ := hc.inOrder.exists_child_within hbelow
  have hreg := hc.region_of_within hq hyq hk
  unfold addPassed
  split
  · rename_i hpar
    have hregion : ∀ q ∈ c.regions n, ∀ s, q ∈ c.addDefault q s ∧
        c.Extends s (c.addDefault q s) (c.Descends noGoal q) (· = q) := by
      intro q hq s
      obtain ⟨hqc, hqk⟩ := Tree.mem_regions.mp hq
      exact hc.addDefault_extends (hc.inOrder.child_lt_size hqc) hqk s
    obtain ⟨hcovers, hext⟩ := foldl_uncovered_extends (s := s.insert n) hregion
    have hin := hext.mem_of_insert
    have h : c.Extends (s.insert n) _ (fun m => m = n ∨ c.kind n = .parallel ∧
        ∃ q ∈ c.regions n, ¬ c.Covers s q ∧ c.Descends noGoal q m) (· = n) := hext.mono
      (fun m hm => by
        obtain ⟨q, hq, hnot, hm⟩ := hm
        refine Or.inr ⟨hpar, q, hq, fun hcov => hnot (hcov.mono fun m hm => ?_), hm⟩
        exact SortedSet.mem_insert.mpr (Or.inr hm))
      (fun m hm => Or.inr ⟨n, hin, Tree.region_child hm⟩)
    refine ⟨hin, h.of_insert (Or.inl rfl) rfl ?_⟩
    exact ⟨fun e => by simp [hpar] at e, fun _ => hcovers⟩
  · rename_i hpar
    have h := Extends.refl c (s.insert n)
      (fun m => m = n ∨ c.kind n = .parallel ∧ ∃ q ∈ c.regions n, ¬ c.Covers s q ∧
        c.Descends noGoal q m) (· = n)
    refine ⟨h.mem_of_insert, h.of_insert (Or.inl rfl) rfl ?_⟩
    exact ⟨fun _ => ⟨q, hreg, y, h.subset y (SortedSet.mem_insert.mpr (Or.inr hy)), hyq⟩,
      fun e => absurd e hpar⟩

end WellFormed

end Statechart.Chart
