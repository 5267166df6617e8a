/-
# Statechart.Proofs.Value.Canonical -- a value is the one form of a set of paths

The value made from some paths keeps of them the furthest ones (`StateValue.Furthest`): those whose
keys are not the beginning of the keys of another. It lists these in the order of their keys
(`StateValue.precedes_paths`), each once and without empty segments (`StateValue.mem_paths_iff`). So
paths have the same value exactly if the furthest of them have the same keys, and what else is said
of them, in which order they come and how often, is forgotten (`StateValue.ofPaths_canonical`).
-/

import Mathlib.Data.List.Pairwise
import Statechart.Proofs.Value.Paths

namespace Statechart

namespace Path

/-- Two lists of keys part, and where they do the key of the first comes before that of the second.
Neither begins with the other. -/
inductive Precedes : List String → List String → Prop
  | here {k j : String} {ks js : List String} : k < j → Precedes (k :: ks) (j :: js)
  | there {k : String} {ks js : List String} : Precedes ks js → Precedes (k :: ks) (k :: js)

variable {ks js : List String}

theorem Precedes.lex (h : Precedes ks js) : List.Lex (· < ·) ks js := by
  induction h with
  | here hlt => exact .rel hlt
  | there _ ih => exact .cons ih

theorem Precedes.not_prefix (h : Precedes ks js) : ¬ ks <+: js ∧ ¬ js <+: ks := by
  induction h with
  | here hlt =>
    have hne := Std.ne_of_lt hlt
    simp [List.cons_prefix_cons, hne, hne.symm]
  | there _ ih => simpa [List.cons_prefix_cons] using ih

theorem Precedes.ne (h : Precedes ks js) : ks ≠ js := by
  rintro rfl
  exact h.not_prefix.1 List.prefix_rfl

/-- Of lists of keys that part from each other, none begins with another. -/
theorem eq_of_prefix_of_pairwise {l : List (List String)} (h : l.Pairwise Precedes) (hks : ks ∈ l)
    (hjs : js ∈ l) (hpre : ks <+: js) : ks = js := by
  by_contra hne
  have : Std.Symm fun ks js : List String => ¬ ks <+: js ∧ ¬ js <+: ks := ⟨fun _ _ => And.symm⟩
  exact ((h.imp Precedes.not_prefix).forall hks hjs hne).1 hpre

end Path

namespace StateValue

variable {v : StateValue} {ks : List String} {p : String} {ps : List String}

/-! ## The paths of a value -/

/-- The paths by way of a plain key have it as their first key. -/
theorem exists_keys_of_mem_pathsVia {key : String} {below : List String} (hkey : Path.Plain key)
    (hp : p ∈ pathsVia key below) : ∃ ks, Path.keys p = key :: ks := by
  unfold pathsVia at hp
  split at hp
  · rw [List.mem_singleton.mp hp]
    exact ⟨[], hkey.keys_eq⟩
  · obtain ⟨path, -, rfl⟩ := List.mem_map.mp hp
    exact ⟨_, hkey.keys_append path⟩

/-- The paths of a value with plain keys come in the order of their keys, and none begins with
another. -/
theorem precedes_paths (hv : v.Ordered) (hplain : ∀ q, v.tree.Has q → ∀ k ∈ q, Path.Plain k) :
    (v.paths.map Path.keys).Pairwise Path.Precedes := by
  induction hv with
  | leaf key => simp [paths]
  | @nested children ascending below ih =>
    have hchild := fun e he => plain_of_mem_children hplain (e := e) he
    rw [paths, pathsBelow_eq_flatMap, List.map_flatMap, List.pairwise_flatMap]
    constructor
    · intro e he
      have hbelow := ih e he (hchild e he).2
      unfold pathsVia
      split
      · simp
      · rw [List.map_map, List.pairwise_map]
        refine (List.pairwise_map.mp hbelow).imp fun {p q} hpq => ?_
        simp only [Function.comp, (hchild e he).1.keys_append]
        exact .there hpq
    · -- the paths by way of different keys part at once
      refine (List.pairwise_map.mp ascending).imp_of_mem fun {e f} he hf hlt ks hks js hjs => ?_
      obtain ⟨p, hp, rfl⟩ := List.mem_map.mp hks
      obtain ⟨q, hq, rfl⟩ := List.mem_map.mp hjs
      obtain ⟨_, hpk⟩ := exists_keys_of_mem_pathsVia (hchild e he).1 hp
      obtain ⟨_, hqk⟩ := exists_keys_of_mem_pathsVia (hchild f hf).1 hq
      rw [hpk, hqk]
      exact .here hlt

theorem keys_ne_nil (hplain : ∀ q, v.tree.Has q → ∀ k ∈ q, Path.Plain k) (hp : p ∈ v.paths) :
    Path.keys p ≠ [] := by
  cases v with
  | leaf key =>
    have hkey : Path.Plain key := hplain [key] ⟨_, List.mem_cons_self, trivial⟩ key (by simp)
    rw [List.mem_singleton.mp hp, hkey.keys_eq]
    exact List.cons_ne_nil key []
  | nested children =>
    rw [paths, pathsBelow_eq_flatMap] at hp
    obtain ⟨e, he, hp⟩ := List.mem_flatMap.mp hp
    obtain ⟨ks, hks⟩ := exists_keys_of_mem_pathsVia (plain_of_mem_children hplain he).1 hp
    rw [hks]
    exact List.cons_ne_nil e.1 ks

/-- The paths of a value lead to where its tree ends. -/
theorem exists_mem_paths (hv : v.Ordered) (hplain : ∀ q, v.tree.Has q → ∀ k ∈ q, Path.Plain k) :
    (∃ p ∈ v.paths, Path.keys p = ks) ↔
      ks ≠ [] ∧ v.tree.Has ks ∧ ∀ q, v.tree.Has q → ks <+: q → q = ks := by
  have hapart := precedes_paths hv hplain
  constructor
  · rintro ⟨p, hp, rfl⟩
    have hne := keys_ne_nil hplain hp
    refine ⟨hne, (has_tree hv hplain).mpr (Or.inr ⟨p, hp, List.prefix_rfl⟩), fun q hq hpre => ?_⟩
    rcases (has_tree hv hplain).mp hq with rfl | ⟨p', hp', hq'⟩
    · exact absurd (List.prefix_nil.mp hpre) hne
    · have heq : Path.keys p = Path.keys p' := Path.eq_of_prefix_of_pairwise hapart
        (List.mem_map_of_mem hp) (List.mem_map_of_mem hp') (hpre.trans hq')
      rw [← heq] at hq'
      exact hq'.sublist.antisymm hpre.sublist
  · rintro ⟨hne, hks, hend⟩
    rcases (has_tree hv hplain).mp hks with rfl | ⟨p, hp, hpre⟩
    · exact absurd rfl hne
    · exact ⟨p, hp, hend _ ((has_tree hv hplain).mpr (Or.inr ⟨p, hp, List.prefix_rfl⟩)) hpre⟩

/-- Without empty segments, a path is put together from its keys. -/
theorem join_keys (hv : v.Ordered) (hplain : ∀ q, v.tree.Has q → ∀ k ∈ q, Path.Plain k)
    (hp : p ∈ v.paths) : Path.join (Path.keys p) = p := by
  rw [keys_eq_segments hv hplain p hp, Path.join_segments]

/-! ## The value of some paths -/

/-- The keys of one of some paths, if there are any and no other path goes on from there. -/
def Furthest (ps : List String) (ks : List String) : Prop :=
  ks ≠ [] ∧ (∃ p ∈ ps, Path.keys p = ks) ∧ ∀ p ∈ ps, ks <+: Path.keys p → Path.keys p = ks

theorem tree_ofPaths (ps : List String) :
    (ofPaths ps).tree = KeyTree.ofPaths (ps.map Path.keys) :=
  tree_value (KeyTree.ordered_ofPaths _)

/-- The tree of the value of some paths holds what their keys begin with. -/
theorem has_tree_ofPaths : (ofPaths ps).tree.Has ks ↔ ks = [] ∨ ∃ p ∈ ps, ks <+: Path.keys p := by
  rw [tree_ofPaths, KeyTree.has_ofPaths]
  simp only [List.mem_map, exists_exists_and_eq_and]

theorem plain_ofPaths (ps : List String) :
    ∀ q, (ofPaths ps).tree.Has q → ∀ k ∈ q, Path.Plain k := by
  intro q hq k hk
  rcases has_tree_ofPaths.mp hq with rfl | ⟨p, -, hpre⟩
  · exact absurd hk List.not_mem_nil
  · exact Path.plain_of_mem_keys (hpre.subset hk)

/-- The furthest of some paths lead to where the tree of their value ends. -/
theorem furthest_iff_end : Furthest ps ks ↔ ks ≠ [] ∧ (ofPaths ps).tree.Has ks ∧
    ∀ q, (ofPaths ps).tree.Has q → ks <+: q → q = ks := by
  refine and_congr_right fun hne => ?_
  constructor
  · rintro ⟨⟨p, hp, rfl⟩, hlast⟩
    refine ⟨has_tree_ofPaths.mpr (Or.inr ⟨p, hp, List.prefix_rfl⟩), fun q hq hpre => ?_⟩
    rcases has_tree_ofPaths.mp hq with rfl | ⟨p', hp', hq'⟩
    · exact absurd (List.prefix_nil.mp hpre) hne
    · rw [hlast p' hp' (hpre.trans hq')] at hq'
      exact hq'.sublist.antisymm hpre.sublist
  · rintro ⟨hks, hend⟩
    have hlast : ∀ p ∈ ps, ks <+: Path.keys p → Path.keys p = ks := fun p hp =>
      hend _ (has_tree_ofPaths.mpr (Or.inr ⟨p, hp, List.prefix_rfl⟩))
    obtain ⟨p, hp, hpre⟩ := (has_tree_ofPaths.mp hks).resolve_left hne
    exact ⟨⟨p, hp, hlast p hp hpre⟩, hlast⟩

/-- So it is their keys that the paths of the value have. -/
theorem furthest_iff : Furthest ps ks ↔ ∃ p ∈ (ofPaths ps).paths, Path.keys p = ks :=
  furthest_iff_end.trans (exists_mem_paths (ordered_ofPaths ps) (plain_ofPaths ps)).symm

/-- The paths of the value of some paths are the furthest of these without empty segments. -/
theorem mem_paths_iff : p ∈ (ofPaths ps).paths ↔ ∃ ks, Furthest ps ks ∧ Path.join ks = p := by
  have hjoin : ∀ p ∈ (ofPaths ps).paths, Path.join (Path.keys p) = p := fun p =>
    join_keys (ordered_ofPaths ps) (plain_ofPaths ps)
  constructor
  · exact fun hp => ⟨_, furthest_iff.mpr ⟨p, hp, rfl⟩, hjoin p hp⟩
  · rintro ⟨ks, hks, rfl⟩
    obtain ⟨p, hp, rfl⟩ := furthest_iff.mp hks
    rwa [hjoin p hp]

/-- Where the furthest of the paths have the same keys, the values are the same. -/
theorem ofPaths_eq_iff {qs : List String} :
    ofPaths qs = ofPaths ps ↔ ∀ ks, Furthest qs ks ↔ Furthest ps ks := by
  constructor
  · intro heq ks
    rw [furthest_iff, heq, furthest_iff]
  · intro hsame
    have hkeys : ∀ ks, (∃ p ∈ (ofPaths qs).paths, Path.keys p = ks) ↔
        ∃ p ∈ (ofPaths ps).paths, Path.keys p = ks := fun ks =>
      furthest_iff.symm.trans ((hsame ks).trans furthest_iff)
    refine congrArg KeyTree.value ?_
    rw [← tree_ofPaths, ← tree_ofPaths]
    refine (ordered_ofPaths qs).tree.ext (ordered_ofPaths ps).tree fun q => ?_
    rw [has_tree (ordered_ofPaths qs) (plain_ofPaths qs),
      has_tree (ordered_ofPaths ps) (plain_ofPaths ps)]
    refine or_congr_right ?_
    constructor
    · rintro ⟨p, hp, hpre⟩
      obtain ⟨p', hp', heq⟩ := (hkeys _).mp ⟨p, hp, rfl⟩
      exact ⟨p', hp', heq ▸ hpre⟩
    · rintro ⟨p, hp, hpre⟩
      obtain ⟨p', hp', heq⟩ := (hkeys _).mpr ⟨p, hp, rfl⟩
      exact ⟨p', hp', heq ▸ hpre⟩

/-- A value is the one form of a set of paths. It depends neither on the order of the paths nor on
how often they come, and is the same for others exactly if the furthest of them have the same keys.
Its own paths are these furthest ones with empty segments left out, each once and in the order of
their segments, and it is the value of its own paths. A path is found in it exactly if its keys, of
which there must be some, are what one of the paths begins with. -/
theorem ofPaths_canonical (ps : List String) :
    (∀ qs, (∀ p, p ∈ qs ↔ p ∈ ps) → ofPaths qs = ofPaths ps) ∧
      (∀ qs, ofPaths qs = ofPaths ps ↔ ∀ ks, Furthest qs ks ↔ Furthest ps ks) ∧
      (ofPaths ps).paths.Nodup ∧
      ((ofPaths ps).paths.map Path.segments).Pairwise (List.Lex (· < ·)) ∧
      (∀ p, p ∈ (ofPaths ps).paths ↔ ∃ ks, Furthest ps ks ∧ Path.join ks = p) ∧
      ofPaths (ofPaths ps).paths = ofPaths ps ∧
      ∀ q, (ofPaths ps).hasPath q = true ↔
        Path.keys q ≠ [] ∧ ∃ p ∈ ps, Path.keys q <+: Path.keys p := by
  have hv := ordered_ofPaths ps
  have hplain := plain_ofPaths ps
  have hapart := precedes_paths hv hplain
  refine ⟨fun qs hsame => ?_, fun qs => ofPaths_eq_iff, ?_, ?_, fun p => mem_paths_iff, ?_,
    fun q => ?_⟩
  · refine ofPaths_eq_iff.mpr fun ks => ?_
    simp only [Furthest, hsame]
  · exact List.Nodup.of_map Path.keys (hapart.imp Path.Precedes.ne)
  · rw [List.map_congr_left (keys_eq_segments hv hplain)] at hapart
    exact hapart.imp Path.Precedes.lex
  · rw [ofPaths_paths hv hplain, tree_ofPaths]
    rfl
  · rw [hasPath_iff hv hplain, has_tree_ofPaths]
    exact and_congr_right fun hne => or_iff_right hne

/-- Paths that are active when a player is on and on call, not all of them to the end and not all
spelled well. -/
def onCall : List String :=
  ["on.volume.low", "on-call", ".on..screen.", "on", "on.screen.dim", ""]

/-- Told twice and backwards they have the same value. It lists what is below `on` before `on-call`,
though a hyphen comes before a dot. -/
theorem onCall_canonical :
    (∀ p, p ∈ onCall.reverse ++ onCall ↔ p ∈ onCall) ∧
      ofPaths (onCall.reverse ++ onCall) = ofPaths onCall ∧
      (ofPaths onCall).paths = ["on.screen.dim", "on.volume.low", "on-call"] ∧
      ofPaths ["on.screen.dim", "on.volume.low", "on-call"] = ofPaths onCall ∧
      Furthest onCall ["on", "screen", "dim"] ∧ (ofPaths onCall).hasPath ".on..screen" = true := by
  have hsame : ∀ p, p ∈ onCall.reverse ++ onCall ↔ p ∈ onCall := by simp
  have hpaths : (ofPaths onCall).paths = ["on.screen.dim", "on.volume.low", "on-call"] := by
    decide +kernel
  obtain ⟨hvalue, -, -, -, -, hagain, hfound⟩ := ofPaths_canonical onCall
  rw [hpaths] at hagain
  refine ⟨hsame, hvalue _ hsame, hpaths, hagain, furthest_iff.mpr ⟨"on.screen.dim", ?_, ?_⟩,
    (hfound _).mpr ⟨by decide +kernel, "on.screen.dim", by simp [onCall], by decide +kernel⟩⟩
  · rw [hpaths]
    exact List.mem_cons_self
  · decide +kernel

end StateValue

end Statechart
