/-
# Statechart.Sorted.Set -- finite sets in their one ascending listing

State ids and positions in document order are kept in sets whose members are always listed in
ascending order. The listing is strictly ascending by a field of the type, so a set has exactly
one listing: two sets with the same members are equal (`SortedSet.ext`), and nothing depends on
the order in which members came in (`SortedSet.mem_insert`, `SortedSet.mem_ofList`).

Strings are ordered by code point, numbers by size.
-/

namespace Statechart

/-- A finite set, held as the strictly ascending list of its members. -/
structure SortedSet (α : Type) [LT α] where
  /-- The members in ascending order. -/
  toList : List α
  /-- No member comes twice, and none before a smaller one. -/
  ascending : toList.Pairwise (· < ·)

namespace SortedSet

variable {α : Type} [LT α]

instance [DecidableEq α] : DecidableEq (SortedSet α) := fun s t =>
  if h : s.toList = t.toList then
    isTrue (by cases s; cases t; cases h; rfl)
  else
    isFalse (fun e => h (e ▸ rfl))

instance : Membership α (SortedSet α) := ⟨fun s a => a ∈ s.toList⟩

instance [DecidableEq α] (a : α) (s : SortedSet α) : Decidable (a ∈ s) :=
  inferInstanceAs (Decidable (a ∈ s.toList))

theorem mem_iff {a : α} {s : SortedSet α} : a ∈ s ↔ a ∈ s.toList := Iff.rfl

/-- The set without members. -/
def empty : SortedSet α := ⟨[], List.Pairwise.nil⟩

instance : Inhabited (SortedSet α) := ⟨empty⟩

@[simp] theorem not_mem_empty (a : α) : ¬ a ∈ (empty : SortedSet α) := by
  simp [mem_iff, empty]

/-- Whether there are no members. -/
def isEmpty (s : SortedSet α) : Bool := s.toList.isEmpty

/-- The members that pass a test. -/
def filter (p : α → Bool) (s : SortedSet α) : SortedSet α :=
  ⟨s.toList.filter p, s.ascending.filter p⟩

@[simp] theorem mem_filter {p : α → Bool} {s : SortedSet α} {a : α} :
    a ∈ s.filter p ↔ a ∈ s ∧ p a = true := by
  simp [mem_iff, filter]

/-- The set without one member. -/
def erase [DecidableEq α] (a : α) (s : SortedSet α) : SortedSet α :=
  s.filter (fun b => decide (b ≠ a))

@[simp] theorem mem_erase [DecidableEq α] {s : SortedSet α} {a b : α} :
    b ∈ s.erase a ↔ b ∈ s ∧ b ≠ a := by
  simp [erase]

/-! ## Insertion -/

variable [DecidableLT α]

/-- Puts a value into its place of an ascending list; a value that is there already stays. -/
def place (a : α) : List α → List α
  | [] => [a]
  | b :: l => if a < b then a :: b :: l else if b < a then b :: place a l else b :: l

section Linear

variable [LE α] [Std.IsLinearOrder α] [Std.LawfulOrderLT α]

theorem mem_place {a b : α} {l : List α} : b ∈ place a l ↔ b = a ∨ b ∈ l := by
  induction l with
  | nil => simp [place]
  | cons c l ih =>
    unfold place
    split
    · simp
    · split
      · simp [ih, or_left_comm]
      · rename_i h₁ h₂
        have : a = c := by
          rcases Std.lt_trichotomy a c with h | h | h
          · exact absurd h h₁
          · exact h
          · exact absurd h h₂
        subst this
        simp

theorem place_ascending {a : α} {l : List α} (h : l.Pairwise (· < ·)) :
    (place a l).Pairwise (· < ·) := by
  induction l with
  | nil => simp [place]
  | cons c l ih =>
    unfold place
    obtain ⟨hc, hl⟩ := List.pairwise_cons.mp h
    split
    · rename_i hac
      refine List.pairwise_cons.mpr ⟨fun b hb => ?_, h⟩
      rcases List.mem_cons.mp hb with rfl | hb
      · exact hac
      · exact Std.lt_trans hac (hc b hb)
    · split
      · rename_i hca
        refine List.pairwise_cons.mpr ⟨fun b hb => ?_, ih hl⟩
        rcases mem_place.mp hb with rfl | hb
        · exact hca
        · exact hc b hb
      · exact h

/-- The set with one more member. -/
def insert (a : α) (s : SortedSet α) : SortedSet α :=
  ⟨place a s.toList, place_ascending s.ascending⟩

@[simp] theorem mem_insert {a b : α} {s : SortedSet α} : b ∈ s.insert a ↔ b = a ∨ b ∈ s :=
  mem_place

/-- The set with the values of a list put in one after the other. -/
def insertAll (s : SortedSet α) (l : List α) : SortedSet α :=
  l.foldl (fun s a => s.insert a) s

@[simp] theorem mem_insertAll {l : List α} {s : SortedSet α} {a : α} :
    a ∈ s.insertAll l ↔ a ∈ l ∨ a ∈ s := by
  induction l generalizing s with
  | nil => simp [insertAll]
  | cons b l ih =>
    have : s.insertAll (b :: l) = (s.insert b).insertAll l := rfl
    rw [this, ih, mem_insert, List.mem_cons]
    grind

/-- The set of the values in a list. -/
def ofList (l : List α) : SortedSet α := empty.insertAll l

@[simp] theorem mem_ofList {l : List α} {a : α} : a ∈ ofList l ↔ a ∈ l := by
  simp [ofList]

/-- The members of either set. -/
def union (s t : SortedSet α) : SortedSet α := s.insertAll t.toList

@[simp] theorem mem_union {s t : SortedSet α} {a : α} : a ∈ s.union t ↔ a ∈ s ∨ a ∈ t := by
  rw [union, mem_insertAll]
  exact or_comm

omit [DecidableLT α] in
/-- Sets with the same members are equal. -/
theorem ext {s t : SortedSet α} (h : ∀ a, a ∈ s ↔ a ∈ t) : s = t := by
  obtain ⟨l, hl⟩ := s
  obtain ⟨m, hm⟩ := t
  have key : l = m := by
    simp only [mem_iff] at h
    induction l generalizing m with
    | nil =>
      cases m with
      | nil => rfl
      | cons b m => exact absurd ((h b).mpr (by simp)) (by simp)
    | cons a l ih =>
      cases m with
      | nil => exact absurd ((h a).mp (by simp)) (by simp)
      | cons b m =>
        obtain ⟨ha, hl'⟩ := List.pairwise_cons.mp hl
        obtain ⟨hb, hm'⟩ := List.pairwise_cons.mp hm
        have hab : a = b := by
          rcases List.mem_cons.mp ((h a).mp (by simp)) with e | hamem
          · exact e
          · rcases List.mem_cons.mp ((h b).mpr (by simp)) with e | hbmem
            · exact e.symm
            · exact absurd (Std.lt_trans (hb a hamem) (ha b hbmem)) (Std.lt_irrefl (a := b))
        subst hab
        have : l = m := by
          refine ih hl' m hm' (fun c => ?_)
          constructor
          · intro hc
            rcases List.mem_cons.mp ((h c).mp (List.mem_cons_of_mem _ hc)) with e | hcm
            · exact absurd (e ▸ ha c hc) (Std.lt_irrefl (a := a))
            · exact hcm
          · intro hc
            rcases List.mem_cons.mp ((h c).mpr (List.mem_cons_of_mem _ hc)) with e | hcm
            · exact absurd (e ▸ hb c hc) (Std.lt_irrefl (a := a))
            · exact hcm
        rw [this]
  cases key
  rfl

end Linear

end SortedSet

end Statechart
