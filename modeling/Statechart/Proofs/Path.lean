/-
# Statechart.Proofs.Path -- cutting paths that were put together from keys

A key is plain if it is not empty and holds no dot. The keys of a dotted path are plain
(`Path.plain_of_mem_keys`), and one that is put together from plain keys is cut into just these keys
again (`Path.keys_join`), so such paths say the same as lists of keys.
-/

import Mathlib.Tactic.Common
import Statechart.Path

namespace Statechart.Path

/-- A text that a dotted path can have as one of its keys. -/
structure Plain (k : String) : Prop where
  ne_empty : k ≠ ""
  no_dot : '.' ∉ k.toList

variable {k p : String}

theorem cut_of_no_dot {cs : List Char} (h : '.' ∉ cs) : cut cs = [cs] := by
  induction cs with
  | nil => rfl
  | cons c cs ih =>
    obtain ⟨hc, hcs⟩ := not_or.mp (fun e => h (List.mem_cons.mpr e))
    rw [cut, if_neg fun e => hc e.symm, ih hcs]

/-- The pieces around a dot are cut independently of each other. -/
theorem cut_append (cs rest : List Char) : cut (cs ++ '.' :: rest) = cut cs ++ cut rest := by
  induction cs with
  | nil => simp [cut]
  | cons c cs ih =>
    rw [List.cons_append, cut, cut, ih]
    split
    · rfl
    · obtain ⟨piece, pieces, hcut⟩ := List.exists_cons_of_ne_nil (cut_ne_nil cs)
      rw [hcut]
      rfl

theorem segments_append (p q : String) : segments (p ++ "." ++ q) = segments p ++ segments q := by
  have hcut : cut (p ++ "." ++ q).toList = cut p.toList ++ cut q.toList := by
    rw [String.toList_append, String.toList_append, List.append_assoc]
    exact cut_append p.toList q.toList
  rw [segments, hcut, List.map_append]
  rfl

theorem segments_ne_nil (p : String) : segments p ≠ [] := by
  simp [segments, cut_ne_nil]

theorem splitFirst_append_dot {cs rest : List Char} (h : '.' ∉ cs) :
    splitFirst (cs ++ '.' :: rest) = some (cs, rest) := by
  induction cs with
  | nil => rfl
  | cons c cs ih =>
    obtain ⟨hc, hcs⟩ := not_or.mp (fun e => h (List.mem_cons.mpr e))
    rw [List.cons_append, splitFirst, if_neg fun e => hc e.symm, ih hcs]
    rfl

@[simp] theorem keys_empty : keys "" = [] := rfl

theorem Plain.segments_eq (hk : Plain k) : segments k = [k] := by
  simp [segments, cut_of_no_dot hk.no_dot]

theorem Plain.keys_eq (hk : Plain k) : keys k = [k] := by
  simp [keys, hk.segments_eq, hk.ne_empty]

/-- A path that begins with a plain key is cut there. -/
theorem Plain.segments_append (hk : Plain k) (p : String) :
    segments (k ++ "." ++ p) = k :: segments p := by
  rw [Path.segments_append, hk.segments_eq, List.singleton_append]

/-- A path that begins with a plain key has that key before the others. -/
theorem Plain.keys_append (hk : Plain k) (p : String) : keys (k ++ "." ++ p) = k :: keys p := by
  rw [keys, hk.segments_append, List.filter_cons_of_pos (by simpa using hk.ne_empty)]
  rfl

theorem join_cons {ks : List String} (k : String) (h : ks ≠ []) :
    join (k :: ks) = k ++ "." ++ join ks := by
  cases ks with
  | nil => exact absurd rfl h
  | cons j ks => rfl

/-- Two lists of keys are put together one after the other. -/
theorem join_append {ks js : List String} (hks : ks ≠ []) (hjs : js ≠ []) :
    join (ks ++ js) = join ks ++ "." ++ join js := by
  induction ks with
  | nil => exact absurd rfl hks
  | cons k ks ih =>
    by_cases h : ks = []
    · subst h
      exact join_cons k hjs
    · rw [List.cons_append, join_cons k (by simp [h]), ih h, join_cons k h]
      simp only [String.append_assoc]

/-- Plain keys that are put together to a path are its segments. -/
theorem segments_join {ks : List String} (h : ∀ k ∈ ks, Plain k) (hne : ks ≠ []) :
    segments (join ks) = ks := by
  induction ks with
  | nil => exact absurd rfl hne
  | cons k ks ih =>
    have hk := h k List.mem_cons_self
    cases ks with
    | nil => exact hk.segments_eq
    | cons j ks =>
      rw [join, hk.segments_append, ih (fun i hi => h i (List.mem_cons_of_mem k hi))]
      · simp
      · simp

/-- Plain keys that are put together to a path are its keys. -/
theorem keys_join {ks : List String} (h : ∀ k ∈ ks, Plain k) : keys (join ks) = ks := by
  by_cases hne : ks = []
  · rw [hne]
    exact keys_empty
  · rw [keys, segments_join h hne, List.filter_eq_self]
    exact fun k hk => by simpa using (h k hk).ne_empty

theorem no_dot_of_mem_cut {cs : List Char} : ∀ piece ∈ cut cs, '.' ∉ piece := by
  induction cs with
  | nil => simp [cut]
  | cons c cs ih =>
    unfold cut
    split
    · simpa using ih
    · rename_i hc
      obtain ⟨piece, pieces, hcut⟩ := List.exists_cons_of_ne_nil (cut_ne_nil cs)
      rw [hcut] at ih ⊢
      obtain ⟨hpiece, hpieces⟩ := List.forall_mem_cons.mp ih
      exact List.forall_mem_cons.mpr
        ⟨fun hdot => hpiece ((List.mem_cons.mp hdot).resolve_left (Ne.symm hc)), hpieces⟩

/-- The keys of a path are plain. -/
theorem plain_of_mem_keys (h : k ∈ keys p) : Plain k := by
  obtain ⟨hk, hne⟩ := List.mem_filter.mp h
  obtain ⟨piece, hpiece, rfl⟩ := List.mem_map.mp hk
  exact ⟨by simpa using hne, by simpa using no_dot_of_mem_cut piece hpiece⟩

/-- A path without empty segments has all its segments as keys. -/
theorem keys_eq_segments (h : "" ∉ segments p) : keys p = segments p :=
  List.filter_eq_self.mpr fun k hk => by
    simp only [ne_eq, decide_not, Bool.not_eq_true', decide_eq_false_iff_not]
    exact fun he => h (he ▸ hk)

end Statechart.Path
