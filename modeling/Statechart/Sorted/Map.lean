/-
# Statechart.Sorted.Map -- finite maps in their one ascending listing

Maps from ids, event names or positions to values. The entries are listed by strictly ascending
key, so a map has one listing, and putting in a key that is there already replaces its value
(`SortedMap.get?_insert`).
-/

import Statechart.Sorted.Set

namespace Statechart

/-- A finite map, held as the list of its entries by strictly ascending key. -/
structure SortedMap (κ ν : Type) [LT κ] where
  /-- The entries in ascending order of their keys. -/
  toList : List (κ × ν)
  /-- No key comes twice, and none before a smaller one. -/
  ascending : (toList.map Prod.fst).Pairwise (· < ·)

namespace SortedMap

variable {κ ν : Type} [LT κ]

instance [DecidableEq κ] [DecidableEq ν] : DecidableEq (SortedMap κ ν) := fun s t =>
  if h : s.toList = t.toList then
    isTrue (by cases s; cases t; cases h; rfl)
  else
    isFalse (fun e => h (e ▸ rfl))

/-- The map without entries. -/
def empty : SortedMap κ ν := ⟨[], by simp⟩

instance : Inhabited (SortedMap κ ν) := ⟨empty⟩

/-- Whether there are no entries. -/
def isEmpty (m : SortedMap κ ν) : Bool := m.toList.isEmpty

/-- The number of entries. -/
def size (m : SortedMap κ ν) : Nat := m.toList.length

/-- The keys in ascending order. -/
def keys (m : SortedMap κ ν) : List κ := m.toList.map Prod.fst

/-- The value of the first entry with a key. -/
def valueOf [DecidableEq κ] (k : κ) : List (κ × ν) → Option ν
  | [] => none
  | (j, w) :: l => if k = j then some w else valueOf k l

/-- The value held under a key. -/
def get? [DecidableEq κ] (m : SortedMap κ ν) (k : κ) : Option ν := valueOf k m.toList

/-- Whether a key has an entry. -/
def contains [DecidableEq κ] (m : SortedMap κ ν) (k : κ) : Bool := (m.get? k).isSome

@[simp] theorem get?_empty [DecidableEq κ] (k : κ) : (empty : SortedMap κ ν).get? k = none := rfl

/-! ## Insertion -/

variable [DecidableLT κ]

/-- Puts an entry into its place of a list by ascending key, replacing an entry of the same key. -/
def place (k : κ) (v : ν) : List (κ × ν) → List (κ × ν)
  | [] => [(k, v)]
  | (j, w) :: l =>
    if k < j then (k, v) :: (j, w) :: l
    else if j < k then (j, w) :: place k v l
    else (k, v) :: l

section Linear

variable [LE κ] [Std.IsLinearOrder κ] [Std.LawfulOrderLT κ]

omit [LE κ] [Std.IsLinearOrder κ] [Std.LawfulOrderLT κ] in
theorem fst_mem_place {k : κ} {v : ν} {l : List (κ × ν)} {j : κ}
    (h : j ∈ (place k v l).map Prod.fst) : j = k ∨ j ∈ l.map Prod.fst := by
  induction l with
  | nil => simpa [place] using h
  | cons e l ih =>
    obtain ⟨i, w⟩ := e
    unfold place at h
    split at h
    · simpa using h
    · split at h
      · rw [List.map_cons, List.mem_cons] at h
        rcases h with h | h
        · exact Or.inr (by simp [h])
        · rcases ih h with h | h
          · exact Or.inl h
          · exact Or.inr (by rw [List.map_cons]; exact List.mem_cons_of_mem _ h)
      · rw [List.map_cons, List.mem_cons] at h
        rcases h with h | h
        · exact Or.inl h
        · exact Or.inr (by rw [List.map_cons]; exact List.mem_cons_of_mem _ h)

theorem place_ascending {k : κ} {v : ν} {l : List (κ × ν)}
    (h : (l.map Prod.fst).Pairwise (· < ·)) : ((place k v l).map Prod.fst).Pairwise (· < ·) := by
  induction l with
  | nil => simp [place]
  | cons e l ih =>
    obtain ⟨j, w⟩ := e
    unfold place
    rw [List.map_cons] at h
    obtain ⟨hj, hl⟩ := List.pairwise_cons.mp h
    split
    · rename_i hkj
      rw [List.map_cons, List.map_cons]
      refine List.pairwise_cons.mpr ⟨fun i hi => ?_, h⟩
      rcases List.mem_cons.mp hi with rfl | hi
      · exact hkj
      · exact Std.lt_trans hkj (hj i hi)
    · split
      · rename_i hjk
        rw [List.map_cons]
        refine List.pairwise_cons.mpr ⟨fun i hi => ?_, ih hl⟩
        rcases fst_mem_place hi with rfl | hi
        · exact hjk
        · exact hj i hi
      · rename_i h₁ h₂
        have hkj : k = j := by
          rcases Std.lt_trichotomy k j with h | h | h
          · exact absurd h h₁
          · exact h
          · exact absurd h h₂
        subst hkj
        exact h

/-- The map with an entry put in; an entry of the same key is replaced. -/
def insert (k : κ) (v : ν) (m : SortedMap κ ν) : SortedMap κ ν :=
  ⟨place k v m.toList, place_ascending m.ascending⟩

/-- The map of a list of entries; of two entries with one key the later one counts. -/
def ofList (l : List (κ × ν)) : SortedMap κ ν :=
  l.foldl (fun m e => m.insert e.1 e.2) empty

/-- The map with the value of a key changed, from nothing if the key has no entry. -/
def modify [DecidableEq κ] (k : κ) (f : Option ν → ν) (m : SortedMap κ ν) : SortedMap κ ν :=
  m.insert k (f (m.get? k))

variable [DecidableEq κ]

theorem valueOf_place {k j : κ} {v : ν} {l : List (κ × ν)} :
    valueOf j (place k v l) = if j = k then some v else valueOf j l := by
  induction l with
  | nil => simp [place, valueOf]
  | cons e l ih =>
    obtain ⟨i, w⟩ := e
    unfold place
    split
    · simp [valueOf]
    · split
      · rename_i hki hik
        rw [valueOf, valueOf, ih]
        by_cases hji : j = i
        · subst hji
          have : j ≠ k := fun e => Std.lt_irrefl (a := k) (e ▸ hik)
          simp [this]
        · simp [hji]
      · rename_i h₁ h₂
        have hki : k = i := by
          rcases Std.lt_trichotomy k i with h | h | h
          · exact absurd h h₁
          · exact h
          · exact absurd h h₂
        subst hki
        by_cases hjk : j = k <;> simp [valueOf, hjk]

/-- A key just put in has its new value, every other key the one it had. -/
theorem get?_insert {k j : κ} {v : ν} {m : SortedMap κ ν} :
    (m.insert k v).get? j = if j = k then some v else m.get? j :=
  valueOf_place

end Linear

end SortedMap

end Statechart
