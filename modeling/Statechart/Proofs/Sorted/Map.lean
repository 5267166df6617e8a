/-
# Statechart.Proofs.Sorted.Map -- maps and their entries

A map holds under a key what its entries say (`SortedMap.mem_toList`) and is determined by them
(`SortedMap.ext_entries`). A list in which each key has one value makes a map with just these
entries (`SortedMap.mem_toList_ofList`).
-/

import Mathlib.Data.List.Sort
import Statechart.Sorted.Map

namespace Statechart.SortedMap

variable {κ ν : Type} [LT κ] [LE κ] [Std.LawfulOrderLT κ]

/-- Maps with the same entries are equal. -/
theorem ext_entries [Std.IsLinearOrder κ] {s t : SortedMap κ ν}
    (h : ∀ e, e ∈ s.toList ↔ e ∈ t.toList) : s = t := by
  have hantisymm : Std.Antisymm (fun e f : κ × ν => e.1 < f.1) :=
    ⟨fun _ _ h h' => absurd (Std.lt_trans h h') (Std.lt_irrefl (a := _))⟩
  have hirrefl : Std.Irrefl (fun e f : κ × ν => e.1 < f.1) := ⟨fun _ => Std.lt_irrefl⟩
  have heq : s.toList = t.toList := (List.pairwise_map.mp s.ascending).eq_of_mem_iff
    (List.pairwise_map.mp t.ascending) h
  cases s
  cases t
  cases heq
  rfl

omit [LE κ] [Std.LawfulOrderLT κ] in
theorem isEmpty_iff {m : SortedMap κ ν} : m.isEmpty = true ↔ m = .empty := by
  obtain ⟨l, hl⟩ := m
  rw [isEmpty, empty, mk.injEq, List.isEmpty_iff]

/-- Entries that all have one key are one entry. -/
theorem eq_singleton [Std.IsLinearOrder κ] {l : List (κ × ν)} {e : κ × ν}
    (h : (l.map Prod.fst).Pairwise (· < ·)) (he : e ∈ l) (hkey : ∀ f ∈ l, f.1 = e.1) :
    l = [e] := by
  match l with
  | [] => exact absurd he List.not_mem_nil
  | [f] => rw [List.mem_singleton.mp he]
  | f :: g :: rest =>
    have hlt : f.1 < g.1 := (List.pairwise_cons.mp h).1 g.1 List.mem_cons_self
    rw [hkey f (by simp), hkey g (by simp)] at hlt
    exact absurd hlt Std.lt_irrefl

variable [DecidableEq κ]

theorem valueOf_eq_some {k : κ} {v : ν} {l : List (κ × ν)}
    (h : (l.map Prod.fst).Pairwise (· < ·)) : valueOf k l = some v ↔ (k, v) ∈ l := by
  induction l with
  | nil => simp [valueOf]
  | cons e l ih =>
    obtain ⟨j, w⟩ := e
    rw [List.map_cons] at h
    obtain ⟨hj, hl⟩ := List.pairwise_cons.mp h
    rw [valueOf, List.mem_cons, Prod.mk.injEq]
    by_cases hkj : k = j
    · subst hkj
      rw [if_pos rfl, Option.some.injEq]
      refine ⟨fun e => Or.inl ⟨rfl, e.symm⟩, ?_⟩
      rintro (⟨-, e⟩ | hmem)
      · exact e.symm
      · exact absurd (hj k (List.mem_map_of_mem hmem)) (Std.lt_irrefl (a := k))
    · rw [if_neg hkj, ih hl]
      simp [hkj]

/-- The entries are the keys with what is held under them. -/
theorem mem_toList {k : κ} {v : ν} {m : SortedMap κ ν} : (k, v) ∈ m.toList ↔ m.get? k = some v :=
  (valueOf_eq_some m.ascending).symm

omit [LE κ] [Std.LawfulOrderLT κ] [DecidableEq κ] in
/-- The map of those entries that pass a test. -/
def filter (p : κ × ν → Bool) (m : SortedMap κ ν) : SortedMap κ ν :=
  ⟨m.toList.filter p, m.ascending.sublist (List.filter_sublist.map _)⟩

theorem get?_filter_eq_some {p : κ × ν → Bool} {k : κ} {v : ν} {m : SortedMap κ ν} :
    (m.filter p).get? k = some v ↔ m.get? k = some v ∧ p (k, v) = true := by
  rw [← mem_toList, ← mem_toList]
  exact List.mem_filter

variable [Std.IsLinearOrder κ] [DecidableLT κ]

/-- Putting an entry in replaces what was held under its key. -/
theorem mem_place {k : κ} {v : ν} {l : List (κ × ν)} (h : (l.map Prod.fst).Pairwise (· < ·))
    {e : κ × ν} : e ∈ place k v l ↔ e = (k, v) ∨ e ∈ l ∧ e.1 ≠ k := by
  obtain ⟨j, w⟩ := e
  rw [← valueOf_eq_some (place_ascending h), ← valueOf_eq_some h, valueOf_place]
  by_cases hjk : j = k
  · simp [hjk, eq_comm]
  · simp [hjk]

/-- What a map made of a list holds is an entry of the list. -/
theorem mem_of_get?_ofList {k : κ} {v : ν} {l : List (κ × ν)}
    (h : (ofList l).get? k = some v) : (k, v) ∈ l := by
  have key : ∀ (l : List (κ × ν)) (m : SortedMap κ ν),
      (l.foldl (fun m e => m.insert e.1 e.2) m).get? k = some v →
        (k, v) ∈ l ∨ m.get? k = some v := by
    intro l
    induction l with
    | nil => exact fun m hm => Or.inr hm
    | cons e l ih =>
      intro m hm
      rcases ih (m.insert e.1 e.2) hm with hmem | hget
      · exact Or.inl (List.mem_cons_of_mem e hmem)
      · rw [get?_insert] at hget
        split at hget
        · rename_i hk
          obtain ⟨j, w⟩ := e
          obtain rfl : k = j := hk
          obtain rfl := Option.some.inj hget
          exact Or.inl List.mem_cons_self
        · exact Or.inr hget
  exact (key l .empty h).resolve_right (by simp)

/-- A list in which each key has one value makes a map with its entries. -/
theorem mem_toList_ofList {l : List (κ × ν)} {e : κ × ν}
    (hl : ∀ e ∈ l, ∀ f ∈ l, e.1 = f.1 → e.2 = f.2) : e ∈ (ofList l).toList ↔ e ∈ l := by
  have key : ∀ (l : List (κ × ν)) (m : SortedMap κ ν),
      (∀ e f, e ∈ l ∨ e ∈ m.toList → f ∈ l ∨ f ∈ m.toList → e.1 = f.1 → e.2 = f.2) →
      (e ∈ (l.foldl (fun m e => m.insert e.1 e.2) m).toList ↔ e ∈ l ∨ e ∈ m.toList) := by
    intro l
    induction l with
    | nil => simp
    | cons f l ih =>
      intro m huniq
      have hinsert : ∀ e, e ∈ (m.insert f.1 f.2).toList ↔ e = f ∨ e ∈ m.toList := by
        rintro ⟨k, v⟩
        rw [mem_toList, mem_toList, get?_insert]
        split
        · rename_i hk
          subst hk
          rw [Option.some.injEq]
          constructor
          · rintro rfl
            exact Or.inl rfl
          · rintro (heq | hmem)
            · exact (congrArg Prod.snd heq).symm
            · exact huniq f (f.1, v) (Or.inl List.mem_cons_self)
                (Or.inr (mem_toList.mpr hmem)) rfl
        · rename_i hk
          have hne : (k, v) ≠ f := fun e => hk (congrArg Prod.fst e)
          simp [hne]
      rw [List.foldl_cons, ih (m.insert f.1 f.2) ?_, hinsert, List.mem_cons, or_left_comm, or_assoc]
      intro e e' he he'
      rw [hinsert] at he he'
      exact huniq e e' (by rw [List.mem_cons, or_assoc, or_left_comm]; exact he)
        (by rw [List.mem_cons, or_assoc, or_left_comm]; exact he')
  have hempty : ∀ e, e ∉ (empty : SortedMap κ ν).toList := fun e => List.not_mem_nil
  rw [ofList, key l empty fun e f he hf => hl e (he.resolve_right (hempty e)) f
    (hf.resolve_right (hempty f))]
  exact or_iff_left (hempty e)

/-- A map is the map of its entries. -/
theorem ofList_toList (m : SortedMap κ ν) : ofList m.toList = m := by
  refine ext_entries fun e => mem_toList_ofList fun e he f hf heq => ?_
  have hval := mem_toList.mp he
  rw [heq, mem_toList.mp hf] at hval
  exact (Option.some.inj hval).symm

end Statechart.SortedMap
