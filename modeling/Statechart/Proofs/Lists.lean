/-
# Statechart.Proofs.Lists -- lists, counting, and computations that can fail

What is produced from the members of a list is counted by the members it comes from
(`count_flatMap_eq_countP`). A computation that can fail succeeds on a list exactly if it does on
each member (`mapM_eq_ok_iff`), and one that is folded over a list fails exactly if it does at some
member, after it has succeeded on all before (`foldlM_eq_error_iff`). One that may have no result is
folded to one only if it has one on each member (`exists_of_foldlM_eq_some`).
-/

import Mathlib.Data.List.Count
import Mathlib.Data.List.Forall2
import Mathlib.Tactic.Common

namespace Statechart

/-- What comes at most once from each member is counted by the members it comes from. -/
theorem count_flatMap_eq_countP {α β : Type} [DecidableEq β] {l : List α} {f : α → List β}
    {P : α → Prop} [DecidablePred P] {b : β} (h : ∀ a ∈ l, (f a).count b = if P a then 1 else 0) :
    (l.flatMap f).count b = l.countP (fun a => P a) := by
  induction l with
  | nil => rfl
  | cons a l ih =>
    rw [List.flatMap_cons, List.count_append, h a List.mem_cons_self,
      ih fun b hb => h b (List.mem_cons_of_mem a hb), List.countP_cons]
    simp only [decide_eq_true_eq]
    exact Nat.add_comm _ _

theorem length_le_one {α : Type} {l : List α} (hnodup : l.Nodup)
    (h : ∀ x ∈ l, ∀ y ∈ l, x = y) : l.length ≤ 1 := by
  match l with
  | [] | [_] => simp
  | x :: y :: l =>
    have hxy := h x (by simp) y (by simp)
    simp [hxy] at hnodup

section

variable {α β ε : Type} {f g : α → Except ε β} {l : List α} {l' : List β}

theorem eq_of_length_le_one {x y : α} (h : l.length ≤ 1) (hx : x ∈ l) (hy : y ∈ l) : x = y := by
  match l with
  | [] => exact absurd hx List.not_mem_nil
  | [z] => rw [List.mem_singleton.mp hx, List.mem_singleton.mp hy]
  | _ :: _ :: _ => simp at h

theorem bind_eq_ok {x : Except ε α} {k : α → Except ε β} {b : β} :
    (x >>= k) = .ok b ↔ ∃ a, x = .ok a ∧ k a = .ok b := by
  cases x with
  | ok a => exact ⟨fun h => ⟨a, rfl, h⟩, fun ⟨_, ha, h⟩ => Except.ok.inj ha ▸ h⟩
  | error e => exact ⟨nofun, nofun⟩

/-- A computation succeeds on a list as it does on each member. -/
theorem mapM_eq_ok_iff : l.mapM f = .ok l' ↔ List.Forall₂ (fun x y => f x = .ok y) l l' := by
  induction l generalizing l' with
  | nil =>
    rw [List.forall₂_nil_left_iff]
    exact ⟨fun h => (Except.ok.inj h).symm, fun h => h ▸ rfl⟩
  | cons x l ih =>
    rw [List.mapM_cons, bind_eq_ok, List.forall₂_cons_left_iff]
    constructor
    · rintro ⟨y, hy, h⟩
      obtain ⟨ys, hys, h⟩ := bind_eq_ok.mp h
      exact ⟨y, ys, hy, ih.mp hys, (Except.ok.inj h).symm⟩
    · rintro ⟨y, ys, hy, hys, rfl⟩
      exact ⟨y, hy, bind_eq_ok.mpr ⟨ys, ih.mpr hys, rfl⟩⟩

theorem mapM_eq_ok {g : α → β} (h : ∀ x ∈ l, f x = .ok (g x)) : l.mapM f = .ok (l.map g) := by
  rw [mapM_eq_ok_iff, List.forall₂_map_right_iff, List.forall₂_same]
  exact h

theorem exists_of_mapM_eq_ok (h : l.mapM f = .ok l') : ∀ y ∈ l', ∃ x ∈ l, f x = .ok y := by
  have hall := mapM_eq_ok_iff.mp h
  clear h
  induction hall with
  | nil => simp
  | @cons x y l l' hxy _ ih =>
    intro z hz
    rcases List.mem_cons.mp hz with rfl | hz
    · exact ⟨x, List.mem_cons_self, hxy⟩
    · obtain ⟨x', hx', hz⟩ := ih z hz
      exact ⟨x', List.mem_cons_of_mem x hx', hz⟩

/-- A computation that fails on a list fails on one of its members. -/
theorem exists_of_mapM_eq_error {e : ε} (h : l.mapM f = .error e) : ∃ x ∈ l, f x = .error e := by
  induction l with
  | nil => exact nomatch h
  | cons x l ih =>
    rw [List.mapM_cons] at h
    cases hx : f x with
    | error e' =>
      rw [hx] at h
      obtain rfl : e' = e := Except.error.inj h
      exact ⟨x, List.mem_cons_self, hx⟩
    | ok y =>
      rw [hx] at h
      cases hl : l.mapM f with
      | error e' =>
        obtain ⟨z, hz, hfz⟩ := ih (by rw [hl] at h ⊢; exact h)
        exact ⟨z, List.mem_cons_of_mem x hz, hfz⟩
      | ok ys =>
        rw [hl] at h
        exact nomatch h

/-- A computation that succeeds on a list is a function on its members. -/
theorem mapM_eq_ok_iff_exists [Nonempty β] :
    l.mapM f = .ok l' ↔ ∃ g, (∀ x ∈ l, f x = .ok (g x)) ∧ l' = l.map g := by
  constructor
  · intro h
    have hall := mapM_eq_ok_iff.mp h
    have hsome : ∀ x ∈ l, ∃ y, f x = .ok y := by
      clear h
      induction hall with
      | nil => simp
      | cons hxy _ ih => exact List.forall_mem_cons.mpr ⟨⟨_, hxy⟩, ih⟩
    choose! g hg using hsome
    exact ⟨g, hg, (Except.ok.inj ((mapM_eq_ok hg).symm.trans h)).symm⟩
  · rintro ⟨g, hg, rfl⟩
    exact mapM_eq_ok hg

/-- What succeeds in the same way on each member succeeds on the list. -/
theorem mapM_mono (h : l.mapM f = .ok l') (hfg : ∀ x ∈ l, ∀ y, f x = .ok y → g x = .ok y) :
    l.mapM g = .ok l' := by
  have hall := mapM_eq_ok_iff.mp h
  clear h
  refine mapM_eq_ok_iff.mpr ?_
  induction hall with
  | nil => exact .nil
  | @cons x y l l' hxy _ ih =>
    refine .cons (hfg x List.mem_cons_self y hxy) (ih fun x' hx' => ?_)
    exact hfg x' (List.mem_cons_of_mem x hx')

end

/-- A computation that is folded over a list fails at one of the members, with what it has come to
on those before. -/
theorem foldlM_eq_error_iff {α β ε : Type} {f : β → α → Except ε β} {l : List α} {b : β} {e : ε} :
    l.foldlM f b = .error e ↔ ∃ before a after b', l = before ++ a :: after ∧
      before.foldlM f b = .ok b' ∧ f b' a = .error e := by
  induction l generalizing b with
  | nil =>
    refine ⟨nofun, ?_⟩
    rintro ⟨before, a, after, -, h, -⟩
    exact absurd h (by simp)
  | cons a l ih =>
    rw [List.foldlM_cons]
    constructor
    · intro h
      cases hf : f b a with
      | error e' =>
        rw [hf] at h
        exact ⟨[], a, l, b, rfl, rfl, hf.trans h⟩
      | ok c =>
        rw [hf] at h
        obtain ⟨before, x, after, b', rfl, hbefore, hx⟩ := ih.mp h
        exact ⟨a :: before, x, after, b', rfl, bind_eq_ok.mpr ⟨c, hf, hbefore⟩, hx⟩
    · rintro ⟨before, x, after, b', hl, hbefore, hx⟩
      cases before with
      | nil =>
        obtain ⟨rfl, rfl⟩ := List.cons.inj hl
        obtain rfl := Except.ok.inj hbefore
        rw [hx]
        rfl
      | cons y before =>
        obtain ⟨rfl, rfl⟩ := List.cons.inj hl
        obtain ⟨c, hc, hbefore⟩ := bind_eq_ok.mp hbefore
        rw [hc]
        exact ih.mpr ⟨before, x, after, b', rfl, hbefore, hx⟩

section

variable {α β : Type} {f : β → α → Option β} {l : List α} {b c : β}

/-- What has a result on each member is folded as if it could not be without. -/
theorem foldlM_eq_some {g : β → α → β} (h : ∀ x ∈ l, ∀ b, f b x = some (g b x)) :
    l.foldlM f b = some (l.foldl g b) := by
  induction l generalizing b with
  | nil => rfl
  | cons x l ih =>
    rw [List.foldlM_cons, h x List.mem_cons_self, List.foldl_cons]
    exact ih fun y hy => h y (List.mem_cons_of_mem x hy)

/-- What is folded to a result has one on each member. -/
theorem exists_of_foldlM_eq_some (h : l.foldlM f b = some c) : ∀ x ∈ l, ∃ b c, f b x = some c := by
  induction l generalizing b with
  | nil => simp
  | cons x l ih =>
    obtain ⟨d, hd, hrest⟩ := Option.bind_eq_some_iff.mp h
    exact List.forall_mem_cons.mpr ⟨⟨b, d, hd⟩, ih hrest⟩

end

end Statechart
