/-
# Statechart.Proofs.Json.Distinct -- documents whose objects have every key once

Making the keys of a document distinct leaves no key twice, and of such a document nothing is
changed, so doing it twice is doing it once (`Json.distinct_distinct`).
-/

import Mathlib.Data.List.Nodup
import Statechart.Json.Basic

namespace Statechart.Json

variable {k : String} {v : Json} {members : List (String × Json)}

/-! ## Objects without repeated keys -/

theorem putMember_of_not_mem (h : k ∉ members.map Prod.fst) :
    putMember k v members = members ++ [(k, v)] := by
  induction members with
  | nil => rfl
  | cons m rest ih =>
    rw [List.map_cons, List.mem_cons, not_or] at h
    rw [putMember, if_neg (Ne.symm h.1), ih h.2, List.cons_append]

theorem mem_putMember {m : String × Json} (h : m ∈ putMember k v members) :
    m = (k, v) ∨ m ∈ members := by
  induction members with
  | nil => exact Or.inl (by simpa [putMember] using h)
  | cons n rest ih =>
    rw [putMember] at h
    split at h
    · rename_i hk
      rcases List.mem_cons.mp h with rfl | h
      · exact Or.inl (by rw [hk])
      · exact Or.inr (List.mem_cons_of_mem n h)
    · rcases List.mem_cons.mp h with rfl | h
      · exact Or.inr List.mem_cons_self
      · exact (ih h).imp_right (List.mem_cons_of_mem n)

theorem nodup_keys_putMember (h : (members.map Prod.fst).Nodup) :
    ((putMember k v members).map Prod.fst).Nodup := by
  induction members with
  | nil => simp [putMember]
  | cons m rest ih =>
    obtain ⟨hm, hrest⟩ := List.nodup_cons.mp h
    rw [putMember]
    split
    · exact h
    · rename_i hk
      refine List.nodup_cons.mpr ⟨fun hmem => ?_, ih hrest⟩
      obtain ⟨n, hn, hkey⟩ := List.mem_map.mp hmem
      rcases mem_putMember hn with rfl | hn
      · exact hk hkey.symm
      · exact hm (List.mem_map.mpr ⟨n, hn, hkey⟩)

/-- The members with every key once: its last value in the place where it came first. -/
def merged (members : List (String × Json)) : List (String × Json) :=
  members.foldl (fun acc m => putMember m.1 m.2 acc) []

theorem nodup_keys_merged : ((merged members).map Prod.fst).Nodup := by
  have key : ∀ acc : List (String × Json), (acc.map Prod.fst).Nodup →
      ((members.foldl (fun acc m => putMember m.1 m.2 acc) acc).map Prod.fst).Nodup := by
    induction members with
    | nil => exact fun _ h => h
    | cons m rest ih =>
      intro acc h
      exact ih _ (nodup_keys_putMember h)
  exact key [] List.nodup_nil

theorem mem_of_mem_merged {m : String × Json} (h : m ∈ merged members) : m ∈ members := by
  have key : ∀ acc : List (String × Json),
      m ∈ members.foldl (fun acc m => putMember m.1 m.2 acc) acc → m ∈ members ∨ m ∈ acc := by
    clear h
    induction members with
    | nil => exact fun _ h => Or.inr h
    | cons n rest ih =>
      intro acc h
      rcases ih _ h with h | h
      · exact Or.inl (List.mem_cons_of_mem n h)
      · rcases mem_putMember h with rfl | h
        · exact Or.inl List.mem_cons_self
        · exact Or.inr h
  exact (key [] h).resolve_right List.not_mem_nil

/-- Members with different keys stay as they are. -/
theorem merged_of_nodup (h : (members.map Prod.fst).Nodup) : merged members = members := by
  have key : ∀ acc : List (String × Json), ((acc ++ members).map Prod.fst).Nodup →
      members.foldl (fun acc m => putMember m.1 m.2 acc) acc = acc ++ members := by
    clear h
    induction members with
    | nil => simp
    | cons m rest ih =>
      intro acc h
      have hm : m.1 ∉ acc.map Prod.fst := by
        rw [List.map_append, List.map_cons, List.nodup_middle, List.nodup_cons] at h
        exact fun hmem => h.1 (List.mem_append_left _ hmem)
      rw [List.foldl_cons, putMember_of_not_mem hm, ih _ (by rwa [List.append_assoc]),
        List.append_assoc]
      rfl
  exact key [] h

/-! ## Documents -/

theorem distinct_object :
    distinct (.object members) = .object (merged (distinctMembers members)) := by
  rw [distinct, merged]

theorem distinctMembers_eq_map :
    distinctMembers members = members.map (fun m => (m.1, m.2.distinct)) := by
  induction members with
  | nil => rfl
  | cons m rest ih => rw [distinctMembers, ih, List.map_cons]

mutual

/-- A document with distinct keys stays as it is. -/
theorem distinct_distinct : ∀ j : Json, j.distinct.distinct = j.distinct
  | .null | .bool _ | .int _ | .decimal _ | .string _ => rfl
  | .array items => by
    rw [distinct, distinct, distinctItems_distinctItems items]
  | .object members => by
    have hsame : distinctMembers (merged (distinctMembers members)) =
        merged (distinctMembers members) := by
      rw [distinctMembers_eq_map]
      refine (List.map_congr_left fun m hm => ?_).trans (List.map_id _)
      exact Prod.ext rfl (distinct_of_mem_distinctMembers members m (mem_of_mem_merged hm))
    rw [distinct_object, distinct_object, hsame, merged_of_nodup nodup_keys_merged]

theorem distinctItems_distinctItems : ∀ items : List Json,
    distinctItems (distinctItems items) = distinctItems items
  | [] => rfl
  | v :: rest => by
    rw [distinctItems, distinctItems, distinct_distinct v, distinctItems_distinctItems rest]

theorem distinct_of_mem_distinctMembers : ∀ (members : List (String × Json)) (m : String × Json),
    m ∈ distinctMembers members → m.2.distinct = m.2
  | [], m, h => absurd h List.not_mem_nil
  | (k, v) :: rest, m, h => by
    rw [distinctMembers] at h
    rcases List.mem_cons.mp h with rfl | h
    · exact distinct_distinct v
    · exact distinct_of_mem_distinctMembers rest m h

end

theorem distinct_ne_null (h : v ≠ .null) : v.distinct ≠ .null := by
  cases v <;> simp_all [distinct]

end Statechart.Json
