/-
# Statechart.Proofs.Step.Selection -- innermost first, and nothing lost without a winner

What an event fires is specified by what each leaf would choose on its own: the first candidate on
the way outwards that is enabled (`Machine.Chooses`). The search that stops at a transition chosen
before finds the same (`choose_spec`), so the choices are gathered in the order of the first leaf
that makes them (`gathered_chooseAll`). Of these, conflict removal keeps some that leave no state in
common, and each one dropped has a winner among those kept, even where that on account of which it
was dropped has been overridden in turn (`arbitrated_foldl`): such a one lies on one chain with the
winner, or else the leaves between them would lie within both.
-/

import Statechart.Proofs.Active.RoundTrip
import Statechart.Proofs.Step.Domain
import Statechart.Step.Macrostep

namespace Statechart

variable {γ : Type} {m : Machine γ} {a : Active} {context : γ} {event : Event}
  {chosen kept cands : List Transition} {leaves : List Nat} {f : Failure}
  {r s w x : Transition} {l l' n : Nat}

namespace Machine

/-! ## The choice of one leaf -/

/-- Whether trying a candidate ends the search: it is enabled, or its guard gives no answer. -/
def decides (m : Machine γ) (a : Active) (context : γ) (event : Event) (r : Transition) : Bool :=
  match m.isEnabled a context event r with
  | .ok b => b
  | .error _ => true

/-- The candidate at which the search from a leaf outwards ends. -/
def decided? (m : Machine γ) (a : Active) (context : γ) (event : Event) (leaf : Nat) :
    Option Transition :=
  (m.candidatesFrom leaf event.name).find? (m.decides a context event)

/-- The first candidate of a leaf that decides is enabled. -/
def Chooses (m : Machine γ) (a : Active) (context : γ) (event : Event) (leaf : Nat)
    (r : Transition) : Prop :=
  m.decided? a context event leaf = some r ∧ m.isEnabled a context event r = .ok true

/-- The first candidate of a leaf that decides has a guard that gives no answer. -/
def Fails (m : Machine γ) (a : Active) (context : γ) (event : Event) (leaf : Nat)
    (f : Failure) : Prop :=
  ∃ r, m.decided? a context event leaf = some r ∧ m.isEnabled a context event r = .error f

theorem Chooses.unique (h : m.Chooses a context event l r) (h' : m.Chooses a context event l s) :
    r = s := by
  have heq := h.1
  rw [h'.1] at heq
  exact (Option.some.inj heq).symm

theorem Chooses.not_fails (h : m.Chooses a context event l r) : ¬ m.Fails a context event l f := by
  rintro ⟨s, hs, hf⟩
  rw [h.1] at hs
  rw [← Option.some.inj hs, h.2] at hf
  cases hf

theorem isEnabled_error (h : m.isEnabled a context event r = .error f) :
    ∃ guard cause, f = .guardEvaluation guard (m.id r.source) event.name cause := by
  unfold isEnabled at h
  split at h
  · cases h
  · split at h
    · cases h
    · rename_i name hguard
      split at h
      · cases h
      · rename_i cause hcause
        exact ⟨name, cause, (Except.error.inj h).symm⟩

theorem decides_of_not_false (h : m.isEnabled a context event r ≠ .ok false) :
    m.decides a context event r = true := by
  unfold decides
  cases he : m.isEnabled a context event r with
  | error f => rfl
  | ok b =>
    cases b with
    | true => rfl
    | false => exact absurd he h

theorem decides_eq_false (h : m.isEnabled a context event r = .ok false) :
    m.decides a context event r = false := by
  rw [decides, h]

/-- How the search among some candidates ends, given where the search of the leaf alone does: with
the same failure, with the same choice if that is new, and else with nothing. -/
def SearchEnds (m : Machine γ) (a : Active) (context : γ) (event : Event)
    (chosen : List Transition) (decided : Option Transition) :
    Except Failure (Option Transition) → Prop
  | .error f => ∃ r, decided = some r ∧ m.isEnabled a context event r = .error f
  | .ok (some r) => decided = some r ∧ m.isEnabled a context event r = .ok true ∧ r ∉ chosen
  | .ok none => decided = none ∨ ∃ r ∈ chosen, decided = some r

/-- Stopping at what was chosen before makes no difference to what is found. -/
theorem choose_spec
    (henabled : ∀ s ∈ chosen, m.isEnabled a context event s = .ok true)
    (hsame : ∀ s ∈ chosen, ∀ r ∈ cands, s.isSame r = true → s = r) :
    m.SearchEnds a context event chosen (cands.find? (m.decides a context event))
      (m.choose a context event chosen cands) := by
  induction cands with
  | nil => exact Or.inl rfl
  | cons r rest ih =>
    rw [choose]
    by_cases hany : chosen.any (fun s => s.isSame r) = true
    · rw [if_pos hany]
      -- a leaf before has chosen this candidate, so it is enabled and ends this search too
      obtain ⟨s, hs, hsr⟩ := List.any_eq_true.mp hany
      obtain rfl := hsame s hs r List.mem_cons_self hsr
      refine Or.inr ⟨s, hs, List.find?_cons_of_pos ?_⟩
      exact decides_of_not_false (by rw [henabled s hs]; simp)
    · rw [if_neg hany]
      cases he : m.isEnabled a context event r with
      | error f =>
        exact ⟨r, List.find?_cons_of_pos (decides_of_not_false (by rw [he]; simp)), he⟩
      | ok b =>
        cases b with
        | true =>
          refine ⟨List.find?_cons_of_pos (decides_of_not_false (by rw [he]; simp)), he, ?_⟩
          intro hr
          exact hany (List.any_eq_true.mpr ⟨r, hr, by simp [Transition.isSame]⟩)
        | false =>
          rw [List.find?_cons_of_neg (by simp [decides_eq_false he])]
          exact ih fun s hs r' hr' => hsame s hs r' (List.mem_cons_of_mem r hr')

/-! ## Failures -/

theorem choose_error (h : m.choose a context event chosen cands = .error f) :
    ∃ r, m.isEnabled a context event r = .error f := by
  induction cands with
  | nil => cases h
  | cons r rest ih =>
    rw [choose] at h
    split at h
    · cases h
    · cases he : m.isEnabled a context event r with
      | error f' =>
        rw [he] at h
        cases h
        exact ⟨r, he⟩
      | ok b =>
        rw [he] at h
        cases b with
        | true => cases h
        | false => exact ih h

/-- Selection fails only for want of a guard's answer. -/
theorem select_error (h : m.select a context event = .error f) :
    ∃ guard state cause, f = .guardEvaluation guard state event.name cause := by
  have key : ∀ (leaves : List Nat) (chosen : List Transition),
      m.chooseAll a context event leaves chosen = .error f →
      ∃ r, m.isEnabled a context event r = .error f := by
    intro leaves
    induction leaves with
    | nil => exact fun _ h => by cases h
    | cons l leaves ih =>
      intro chosen h
      rw [chooseAll] at h
      cases hch : m.choose a context event chosen (m.candidatesFrom l event.name) with
      | error f' =>
        rw [hch] at h
        cases h
        exact choose_error hch
      | ok found =>
        rw [hch] at h
        exact ih _ h
  unfold select at h
  cases hch : m.chooseAll a context event (a.leaves m.toTree) [] with
  | ok all => rw [hch] at h; cases h
  | error f' =>
    rw [hch] at h
    cases h
    obtain ⟨r, he⟩ := key _ _ hch
    obtain ⟨guard, cause, heq⟩ := isEnabled_error he
    exact ⟨guard, _, cause, heq⟩

/-! ## Candidates -/

section

variable (hc : m.WellFormed)
include hc

theorem mem_candidatesFrom (hr : r ∈ m.candidatesFrom l event.name) :
    m.Within l r.source ∧ r ∈ m.candidates r.source event.name ∧ r.event = event.name := by
  obtain ⟨n, hn, hr⟩ := List.mem_flatMap.mp hr
  rw [hc.source_eq hr]
  exact ⟨hn, hr, hc.event_eq hr⟩

/-- Candidates of one source, event and position are one. -/
theorem eq_of_isSame {e e' : String} (hr : r ∈ m.candidates r.source e)
    (hs : s ∈ m.candidates s.source e') (h : s.isSame r = true) : s = r := by
  simp only [Transition.isSame, Bool.and_eq_true, decide_eq_true_eq] at h
  obtain ⟨⟨hsource, hevent⟩, hpos⟩ := h
  have hre := hc.event_eq hr
  have hse := hc.event_eq hs
  subst hre
  subst hse
  rw [hsource, hevent] at hs
  obtain ⟨i, hi⟩ := List.mem_iff_getElem?.mp hr
  obtain ⟨j, hj⟩ := List.mem_iff_getElem?.mp hs
  have hij : i = j := by
    rw [← hc.position_eq hi, ← hc.position_eq hj]
    exact hpos.symm
  rw [hij, hj] at hi
  exact Option.some.inj hi

theorem Chooses.mem (h : m.Chooses a context event l r) :
    m.Within l r.source ∧ r ∈ m.candidates r.source event.name ∧ r.event = event.name :=
  mem_candidatesFrom hc (List.mem_of_find?_eq_some h.1)

/-- What a leaf chooses is the first candidate of its source that decides. -/
theorem Chooses.find?_source (h : m.Chooses a context event l r) :
    (m.candidates r.source event.name).find? (m.decides a context event) = some r := by
  have hfind := h.1
  rw [decided?, candidatesFrom, List.find?_flatMap] at hfind
  obtain ⟨n, -, hn⟩ := List.exists_of_findSome?_eq_some hfind
  rw [hc.source_eq (List.mem_of_find?_eq_some hn)]
  exact hn

/-- Leaves that choose from one source choose the same. -/
theorem Chooses.eq_of_source (h : m.Chooses a context event l r)
    (h' : m.Chooses a context event l' s) (hsource : r.source = s.source) : r = s := by
  have heq := h.find?_source hc
  rw [hsource, h'.find?_source hc] at heq
  exact (Option.some.inj heq).symm

end

/-! ## The choices of all leaves -/

/-- A transition is chosen before another: some leaf chooses it that comes before all leaves that
choose the other. -/
def ChosenEarlier (m : Machine γ) (a : Active) (context : γ) (event : Event) (leaves : List Nat)
    (w r : Transition) : Prop :=
  ∃ l ∈ leaves, m.Chooses a context event l w ∧
    ∀ l' ∈ leaves, m.Chooses a context event l' r → l < l'

/-- The choices of some leaves, each once and in the order in which they are first made; no leaf
comes upon a guard that gives no answer. -/
structure Gathered (m : Machine γ) (a : Active) (context : γ) (event : Event) (leaves : List Nat)
    (chosen : List Transition) : Prop where
  chosen_by : ∀ r ∈ chosen, ∃ l ∈ leaves, m.Chooses a context event l r
  mem : ∀ l ∈ leaves, ∀ r, m.Chooses a context event l r → r ∈ chosen
  earlier : chosen.Pairwise (m.ChosenEarlier a context event leaves)
  not_fails : ∀ l ∈ leaves, ∀ f, ¬ m.Fails a context event l f

/-- A later leaf does not change which choice came first. -/
theorem ChosenEarlier.append (h : m.ChosenEarlier a context event leaves w s)
    (hlt : ∀ l' ∈ leaves, l' < l) : m.ChosenEarlier a context event (leaves ++ [l]) w s := by
  obtain ⟨l₀, hl₀, hw, hfirst⟩ := h
  refine ⟨l₀, List.mem_append_left _ hl₀, hw, fun l' hl' hcl => ?_⟩
  rcases List.mem_append.mp hl' with hl' | hl'
  · exact hfirst l' hl' hcl
  · rw [List.mem_singleton.mp hl']
    exact hlt l₀ hl₀

/-- One more leaf that makes a new choice. -/
theorem Gathered.concat (h : m.Gathered a context event leaves chosen)
    (hlt : ∀ l' ∈ leaves, l' < l) (hr : m.Chooses a context event l r) (hnew : r ∉ chosen) :
    m.Gathered a context event (leaves ++ [l]) (chosen ++ [r]) where
  chosen_by := by
    intro s hs
    rcases List.mem_append.mp hs with hs | hs
    · obtain ⟨l', hl', hcl⟩ := h.chosen_by s hs
      exact ⟨l', List.mem_append_left _ hl', hcl⟩
    · rw [List.mem_singleton.mp hs]
      exact ⟨l, by simp, hr⟩
  mem := by
    intro l' hl' s hs
    rcases List.mem_append.mp hl' with hl' | hl'
    · exact List.mem_append_left _ (h.mem l' hl' s hs)
    · rw [List.mem_singleton.mp hl'] at hs
      rw [hs.unique hr]
      simp
  earlier := by
    refine List.pairwise_append.mpr ⟨h.earlier.imp fun hw => hw.append hlt, by simp, ?_⟩
    intro w hw s hs
    rw [List.mem_singleton.mp hs]
    obtain ⟨l₀, hl₀, hcl⟩ := h.chosen_by w hw
    -- none of the leaves before chooses the new one
    have hfirst : m.ChosenEarlier a context event leaves w r :=
      ⟨l₀, hl₀, hcl, fun l' hl' hcl' => absurd (h.mem l' hl' r hcl') hnew⟩
    exact hfirst.append hlt
  not_fails := by
    intro l' hl' f
    rcases List.mem_append.mp hl' with hl' | hl'
    · exact h.not_fails l' hl' f
    · rw [List.mem_singleton.mp hl']
      exact hr.not_fails

/-- One more leaf that adds nothing. -/
theorem Gathered.skip (h : m.Gathered a context event leaves chosen) (hlt : ∀ l' ∈ leaves, l' < l)
    (hl : m.decided? a context event l = none ∨
      ∃ r ∈ chosen, m.decided? a context event l = some r)
    (henabled : ∀ s ∈ chosen, m.isEnabled a context event s = .ok true) :
    m.Gathered a context event (leaves ++ [l]) chosen where
  chosen_by := by
    intro s hs
    obtain ⟨l', hl', hcl⟩ := h.chosen_by s hs
    exact ⟨l', List.mem_append_left _ hl', hcl⟩
  mem := by
    intro l' hl' s hs
    rcases List.mem_append.mp hl' with hl' | hl'
    · exact h.mem l' hl' s hs
    · rw [List.mem_singleton.mp hl'] at hs
      rcases hl with hnone | ⟨r, hr, hsome⟩
      · rw [hs.1] at hnone
        exact absurd hnone (by simp)
      · rw [hs.1] at hsome
        exact Option.some.inj hsome ▸ hr
  earlier := h.earlier.imp fun hw => hw.append hlt
  not_fails := by
    intro l' hl' f
    rcases List.mem_append.mp hl' with hl' | hl'
    · exact h.not_fails l' hl' f
    · rw [List.mem_singleton.mp hl']
      rintro ⟨r, hr, hf⟩
      rcases hl with hnone | ⟨s, hs, hsome⟩
      · rw [hr] at hnone
        exact absurd hnone (by simp)
      · rw [hr] at hsome
        rw [Option.some.inj hsome, henabled s hs] at hf
        cases hf

/-- How going through some leaves after others ends: at the first that fails, or with all choices
gathered. -/
def GatherEnds (m : Machine γ) (a : Active) (context : γ) (event : Event)
    (leaves : List Nat) : Except Failure (List Transition) → Prop
  | .error f => ∃ l ∈ leaves, m.Fails a context event l f ∧
      ∀ l' ∈ leaves, l' < l → ∀ f, ¬ m.Fails a context event l' f
  | .ok chosen => m.Gathered a context event leaves chosen

theorem gatherEnds_chooseAll (hc : m.WellFormed) {later : List Nat}
    (hsorted : (leaves ++ later).Pairwise (· < ·))
    (h : m.Gathered a context event leaves chosen) :
    m.GatherEnds a context event (leaves ++ later)
      (m.chooseAll a context event later chosen) := by
  -- over the leaves to come, with what those before have gathered
  induction later generalizing leaves chosen with
  | nil =>
    rw [List.append_nil]
    exact h
  | cons l later ih =>
    have hlt : ∀ l' ∈ leaves, l' < l := fun l' hl' =>
      (List.pairwise_append.mp hsorted).2.2 l' hl' l List.mem_cons_self
    have hlater : ∀ l' ∈ later, l < l' := fun l' hl' =>
      List.rel_of_pairwise_cons (List.pairwise_append.mp hsorted).2.1 hl'
    have henabled : ∀ s ∈ chosen, m.isEnabled a context event s = .ok true := by
      intro s hs
      obtain ⟨l', -, hcl⟩ := h.chosen_by s hs
      exact hcl.2
    have hspec : m.SearchEnds a context event chosen (m.decided? a context event l)
        (m.choose a context event chosen (m.candidatesFrom l event.name)) := by
      refine choose_spec henabled fun s hs r hr hsame => ?_
      obtain ⟨l', -, hcl⟩ := h.chosen_by s hs
      exact eq_of_isSame hc (mem_candidatesFrom hc hr).2.1 (hcl.mem hc).2.1 hsame
    have happend : leaves ++ l :: later = leaves ++ [l] ++ later := by simp
    rw [chooseAll]
    cases hch : m.choose a context event chosen (m.candidatesFrom l event.name) with
    | error f =>
      rw [hch] at hspec
      refine ⟨l, by simp, hspec, fun l' hl' hlt' f' => ?_⟩
      rcases List.mem_append.mp hl' with hl' | hl'
      · exact h.not_fails l' hl' f'
      · rcases List.mem_cons.mp hl' with rfl | hl'
        · exact absurd hlt' (Nat.lt_irrefl l')
        · exact absurd hlt' (Nat.lt_asymm (hlater l' hl'))
    | ok found =>
      rw [hch] at hspec
      have hnext : m.Gathered a context event (leaves ++ [l]) (chosen ++ found.toList) := by
        cases found with
        | none => simpa using h.skip hlt hspec henabled
        | some r => exact h.concat hlt ⟨hspec.1, hspec.2.1⟩ hspec.2.2
      rw [happend] at hsorted ⊢
      exact ih hsorted hnext

end Machine

/-! ## Conflicts -/

/-- Two transitions would leave a state in common. -/
def Chart.Conflict (c : Chart) (a : Active) (r s : Transition) : Prop :=
  ∃ n, n ∈ r.exitSet c.toTree a ∧ n ∈ s.exitSet c.toTree a

theorem Chart.Conflict.symm {c : Chart} (h : c.Conflict a r s) : c.Conflict a s r := by
  obtain ⟨n, hr, hs⟩ := h
  exact ⟨n, hs, hr⟩

namespace Contender

variable {c : Chart}

theorem conflicts_of : (of c.toTree a r).conflicts (of c.toTree a s) = true ↔
    c.Conflict a r s := by
  simp [conflicts, of, Chart.Conflict, SortedSet.mem_iff]

instance : Decidable (c.Conflict a r s) := decidable_of_iff _ conflicts_of

theorem overrides_of : (of c.toTree a r).overrides c.toTree (of c.toTree a s) = true ↔
    c.Below r.source s.source := by
  simp [overrides, of]

/-- A new choice takes the place of all that it conflicts with, or it is dropped. -/
theorem contend_cases (kept : List Transition) (r : Transition) :
    (∀ s ∈ kept, c.Conflict a r s → c.Below r.source s.source) ∧
        contend c.toTree (kept.map (of c.toTree a)) (of c.toTree a r) =
          (kept.filter (fun s => !(of c.toTree a r).conflicts (of c.toTree a s)) ++ [r]).map
            (of c.toTree a) ∨
      (∃ s ∈ kept, c.Conflict a r s ∧ ¬ c.Below r.source s.source) ∧
        contend c.toTree (kept.map (of c.toTree a)) (of c.toTree a r) =
          kept.map (of c.toTree a) := by
  rw [contend, List.filter_map, List.filter_map, List.all_map]
  split
  · rename_i hall
    refine Or.inl ⟨fun s hs hconf => ?_, by rw [List.map_append]; rfl⟩
    have hsr := List.all_eq_true.mp hall s (List.mem_filter.mpr ⟨hs, conflicts_of.mpr hconf⟩)
    exact overrides_of.mp hsr
  · rename_i hall
    refine Or.inr ⟨?_, rfl⟩
    rw [List.all_eq_true] at hall
    push Not at hall
    obtain ⟨s, hs, hnot⟩ := hall
    obtain ⟨hs, hconf⟩ := List.mem_filter.mp hs
    exact ⟨s, hs, conflicts_of.mp hconf, fun hb => hnot (overrides_of.mpr hb)⟩

end Contender

namespace Machine

/-- A transition wins over another: they would leave a state in common, and it is declared on a
state below, or else beside and chosen earlier. -/
def Beats (m : Machine γ) (a : Active) (context : γ) (event : Event) (leaves : List Nat)
    (w r : Transition) : Prop :=
  m.Conflict a w r ∧ (m.Below w.source r.source ∨
    m.ChosenEarlier a context event leaves w r ∧ m.SideBySide w.source r.source)

/-- What is kept of the choices that have been taken in: no two in conflict, and a winner over each
of the others. -/
structure Arbitrated (m : Machine γ) (a : Active) (context : γ) (event : Event)
    (leaves : List Nat) (taken kept : List Transition) : Prop where
  sublist : kept.Sublist taken
  disjoint : kept.Pairwise (fun r s => ¬ m.Conflict a r s)
  beaten : ∀ r ∈ taken, r ∉ kept → ∃ w ∈ kept, m.Beats a context event leaves w r

theorem ChosenEarlier.ne (h : m.ChosenEarlier a context event leaves w r) : w ≠ r := by
  rintro rfl
  obtain ⟨l, hl, hcl, hlt⟩ := h
  exact Nat.lt_irrefl l (hlt l hl hcl)

section

variable (hc : m.WellFormed)
include hc

theorem Chooses.declares (h : m.Chooses a context event l r) (hl : l < m.size) :
    m.Declares r := by
  obtain ⟨hwithin, hmem, hevent⟩ := h.mem hc
  refine ⟨hc.inOrder.lt_size_of_within hwithin hl, ?_⟩
  rw [hevent]
  exact hmem

/-- A transition and one around it that both conflict with one between them conflict. -/
theorem conflict_of_chain (hr : m.Declares r) (hx : m.Declares x)
    (hrw : m.Within r.source w.source) (hwx : m.Within w.source x.source)
    (h : m.Conflict a r w) (h' : m.Conflict a w x) : m.Conflict a r x := by
  obtain ⟨n, hnr, hnw⟩ := h
  obtain ⟨k, hkw, hkx⟩ := h'
  obtain ⟨d, hd, hna, hnd⟩ := Chart.mem_exitSet.mp hnr
  obtain ⟨e, he, hka, hke⟩ := Chart.mem_exitSet.mp hkx
  have hrd := Chart.Domain.source_within ⟨hr, hd⟩ hc
  have hre := hc.inOrder.within_trans (hc.inOrder.within_trans hrw hwx)
    (Chart.Domain.source_within ⟨hx, he⟩ hc)
  rcases hc.inOrder.within_or_within hrd hre with hde | hed
  · exact ⟨n, hnr, Chart.mem_exitSet.mpr
      ⟨e, he, hna, hc.inOrder.below_of_below_of_within hnd hde⟩⟩
  · exact ⟨k, Chart.mem_exitSet.mpr
      ⟨d, hd, hka, hc.inOrder.below_of_below_of_within hke hed⟩, hkx⟩

/-- A choice made between two that one state lies around is declared on that state's chain. -/
theorem not_sideBySide_between {l₁ l₂ l₃ : Nat} (hw : m.Chooses a context event l₁ w)
    (hx : m.Chooses a context event l₂ x) (hr : m.Chooses a context event l₃ r) (h₁ : l₁ ≤ l₂)
    (h₂ : l₂ ≤ l₃) (hrw : m.Within r.source w.source) :
    ¬ m.SideBySide w.source x.source := by
  intro hside
  have hlast := hc.inOrder.within_trans (hr.mem hc).1 hrw
  have hmid := hc.inOrder.within_of_between (hw.mem hc).1 hlast h₁ h₂
  exact hc.not_within_both hside hmid (hx.mem hc).1

/-- A choice that is dropped has a winner: the one that it conflicts with and does not lie below. -/
theorem Arbitrated.drop {taken : List Transition} {ls lr : Nat}
    (h : m.Arbitrated a context event leaves taken kept) (hs : s ∈ kept)
    (hcs : m.Chooses a context event ls s) (hcr : m.Chooses a context event lr r)
    (hsr : m.ChosenEarlier a context event leaves s r) (hconf : m.Conflict a r s)
    (hnot : ¬ m.Below r.source s.source) :
    m.Arbitrated a context event leaves (taken ++ [r]) kept := by
  refine ⟨h.sublist.trans (List.sublist_append_left taken [r]), h.disjoint, fun x hx hxk => ?_⟩
  rcases List.mem_append.mp hx with hx | hx
  · exact h.beaten x hx hxk
  rw [List.mem_singleton.mp hx]
  refine ⟨s, hs, hconf.symm, ?_⟩
  by_cases hbelow : m.Below s.source r.source
  · exact Or.inl hbelow
  · have hne : s.source ≠ r.source := fun e => hsr.ne (hcs.eq_of_source hc hcr e)
    refine Or.inr ⟨hsr, fun hw => hbelow (hw.below_of_ne hne), fun hw => hnot ?_⟩
    exact hw.below_of_ne hne.symm

variable (hlt : ∀ l ∈ leaves, l < m.size)
include hlt

/-- A choice that lies below all that it conflicts with takes their place. It wins over these, and
so over what they have won over. -/
theorem Arbitrated.replace {taken : List Transition} {lr : Nat}
    (h : m.Arbitrated a context event leaves taken kept) (hlr : lr ∈ leaves)
    (hcr : m.Chooses a context event lr r)
    (hearlier : ∀ s ∈ taken, m.ChosenEarlier a context event leaves s r)
    (hover : ∀ s ∈ kept, m.Conflict a r s → m.Below r.source s.source) :
    m.Arbitrated a context event leaves (taken ++ [r])
      (kept.filter (fun s => !(Contender.of m.toTree a r).conflicts (Contender.of m.toTree a s)) ++
        [r]) := by
  have hmem : ∀ s, s ∈ kept.filter (fun s => !(Contender.of m.toTree a r).conflicts
      (Contender.of m.toTree a s)) ↔ s ∈ kept ∧ ¬ m.Conflict a r s := by
    intro s
    rw [List.mem_filter, Bool.not_eq_true', ← Bool.not_eq_true, Contender.conflicts_of]
  refine ⟨(List.filter_sublist.trans h.sublist).append_right [r], ?_, fun x hx hnot => ?_⟩
  · refine List.pairwise_append.mpr ⟨h.disjoint.filter _, by simp, fun s hs r' hr' => ?_⟩
    rw [List.mem_singleton.mp hr']
    exact fun hconf => ((hmem s).mp hs).2 hconf.symm
  have hxr : x ≠ r := fun e => hnot (by simp [e])
  have hx : x ∈ taken := (List.mem_append.mp hx).resolve_right (by simpa using hxr)
  by_cases hxk : x ∈ kept
  · have hconf : m.Conflict a r x := by
      by_contra hno
      exact hnot (List.mem_append_left _ ((hmem x).mpr ⟨hxk, hno⟩))
    exact ⟨r, by simp, hconf, Or.inl (hover x hxk hconf)⟩
  obtain ⟨w, hw, hconf, hwins⟩ := h.beaten x hx hxk
  by_cases hrw : m.Conflict a r w
  · -- the winner so far is dropped itself, so it has to lie between the new one and what it beat
    have hbelow := hover w hw hrw
    obtain ⟨l₂, hl₂, hcx, hbefore⟩ := hearlier x hx
    have hwx : m.Below w.source x.source := by
      rcases hwins with hwx | ⟨⟨l₁, hl₁, hcw, hfirst⟩, hside⟩
      · exact hwx
      · exact absurd hside (not_sideBySide_between hc hcw hcx hcr
          (Nat.le_of_lt (hfirst l₂ hl₂ hcx)) (Nat.le_of_lt (hbefore lr hlr hcr)) hbelow.within)
    refine ⟨r, by simp, ?_, Or.inl (hc.inOrder.below_trans hbelow hwx)⟩
    exact conflict_of_chain hc (hcr.declares hc (hlt lr hlr)) (hcx.declares hc (hlt l₂ hl₂))
      hbelow.within hwx.within hrw hconf
  · exact ⟨w, List.mem_append_left _ ((hmem w).mpr ⟨hw, hrw⟩), hconf, hwins⟩

/-- Taking one more choice in keeps a winner over each one dropped. -/
theorem Arbitrated.contend {taken : List Transition}
    (h : m.Arbitrated a context event leaves taken kept)
    (hby : ∀ s ∈ taken, ∃ l ∈ leaves, m.Chooses a context event l s)
    (hr : ∃ l ∈ leaves, m.Chooses a context event l r)
    (hearlier : ∀ s ∈ taken, m.ChosenEarlier a context event leaves s r) :
    ∃ kept', Contender.contend m.toTree (kept.map (Contender.of m.toTree a))
        (Contender.of m.toTree a r) = kept'.map (Contender.of m.toTree a) ∧
      m.Arbitrated a context event leaves (taken ++ [r]) kept' := by
  obtain ⟨lr, hlr, hcr⟩ := hr
  rcases Contender.contend_cases (c := m.toChart) (a := a) kept r with
    ⟨hover, heq⟩ | ⟨⟨s, hs, hconf, hnot⟩, heq⟩
  · exact ⟨_, heq, h.replace hc hlt hlr hcr hearlier hover⟩
  · have hst := h.sublist.subset hs
    obtain ⟨ls, hls, hcs⟩ := hby s hst
    exact ⟨kept, heq, h.drop hc hs hcs hcr (hearlier s hst) hconf hnot⟩

/-- Conflict removal keeps a winner over each choice that it drops. -/
theorem arbitrated_withoutConflicts (h : m.Gathered a context event leaves chosen) :
    m.Arbitrated a context event leaves chosen
      (Transition.withoutConflicts m.toTree a chosen) := by
  have key : ∀ later taken kept, m.Gathered a context event leaves (taken ++ later) →
      m.Arbitrated a context event leaves taken kept → ∃ kept',
        (later.map (Contender.of m.toTree a)).foldl (Contender.contend m.toTree)
          (kept.map (Contender.of m.toTree a)) = kept'.map (Contender.of m.toTree a) ∧
        m.Arbitrated a context event leaves (taken ++ later) kept' := by
    intro later
    induction later with
    | nil => exact fun taken kept _ harb => ⟨kept, rfl, by rwa [List.append_nil]⟩
    | cons r later ih =>
      intro taken kept hg harb
      obtain ⟨kept', heq, harb'⟩ := harb.contend hc hlt (r := r)
        (fun s hs => hg.chosen_by s (List.mem_append_left _ hs))
        (hg.chosen_by r (by simp))
        (fun s hs => (List.pairwise_append.mp hg.earlier).2.2 s hs r List.mem_cons_self)
      have happend : taken ++ r :: later = taken ++ [r] ++ later := by simp
      rw [List.map_cons, List.foldl_cons, heq, happend]
      exact ih (taken ++ [r]) kept' (happend ▸ hg) harb'
  obtain ⟨kept, heq, harb⟩ := key chosen [] [] h ⟨List.Sublist.refl [], by simp, by simp⟩
  rw [Transition.withoutConflicts, ← List.map_nil, heq, List.map_map]
  have hid : Contender.transition ∘ Contender.of m.toTree a = id := rfl
  rwa [hid, List.map_id]

end

/-! ## What an event fires -/

theorem resolve_eq_ok {configuration : Configuration} : m.resolve configuration = .ok a ↔
    Active.resolve m.toTree m.options.validates configuration = .ok a := by
  unfold resolve
  cases Active.resolve m.toTree m.options.validates configuration <;> simp

theorem resolve_eq_error {configuration : Configuration} {cause : ConfigurationError} :
    m.resolve configuration = .error (.invalidConfiguration cause) ↔
      Active.resolve m.toTree m.options.validates configuration = .error cause := by
  unfold resolve
  cases Active.resolve m.toTree m.options.validates configuration <;> simp

theorem exists_cause_of_resolve {configuration : Configuration}
    (h : m.resolve configuration = .error f) : ∃ cause, f = .invalidConfiguration cause := by
  unfold resolve at h
  split at h
  · cases h
  · exact ⟨_, (Except.error.inj h).symm⟩

theorem leaves_ascending (a : Active) (t : Tree) : (a.leaves t).Pairwise (· < ·) :=
  a.states.ascending.filter _

/-- What an event fires does not depend on the options. -/
theorem select_options (options : Options) :
    ({ m with options } : Machine γ).select a context event = m.select a context event := by
  have hchoose : ∀ chosen l, ({ m with options } : Machine γ).choose a context event chosen l =
      m.choose a context event chosen l := by
    intro chosen l
    induction l with
    | nil => rfl
    | cons r l ih =>
      rw [choose, choose, ih]
      rfl
  have hall : ∀ leaves chosen,
      ({ m with options } : Machine γ).chooseAll a context event leaves chosen =
        m.chooseAll a context event leaves chosen := by
    intro leaves
    induction leaves with
    | nil => exact fun _ => rfl
    | cons leaf leaves ih =>
      intro chosen
      rw [chooseAll, chooseAll, hchoose]
      simp only [ih]
      rfl
  rw [select, select, hall]

theorem firstHandled_options (options : Options) {waiting : List Event} :
    ({ m with options } : Machine γ).firstHandled a context waiting =
      m.firstHandled a context waiting := by
  induction waiting with
  | nil => rfl
  | cons event waiting ih => rw [firstHandled, firstHandled, select_options, ih]

/-- What is selected are the gathered choices of all leaves without those in conflict; there is
nothing when a leaf fails. -/
theorem select_cases (hc : m.WellFormed) (hlt : ∀ n ∈ a, n < m.size) (context : γ)
    (event : Event) :
    (∃ f l, m.select a context event = .error f ∧ l ∈ a.leaves m.toTree ∧
        m.Fails a context event l f ∧
        ∀ l' ∈ a.leaves m.toTree, l' < l → ∀ f, ¬ m.Fails a context event l' f) ∨
      ∃ chosen kept, m.select a context event = .ok kept ∧
        m.Gathered a context event (a.leaves m.toTree) chosen ∧
        m.Arbitrated a context event (a.leaves m.toTree) chosen kept := by
  have hends : m.GatherEnds a context event ([] ++ a.leaves m.toTree)
      (m.chooseAll a context event (a.leaves m.toTree) []) :=
    gatherEnds_chooseAll hc (leaves_ascending a m.toTree) ⟨by simp, by simp, by simp, by simp⟩
  have hleaves : ∀ l ∈ a.leaves m.toTree, l < m.size := fun l hl =>
    hlt l (Chart.mem_leaves.mp hl).1
  cases hch : m.chooseAll a context event (a.leaves m.toTree) [] with
  | error f =>
    rw [hch] at hends
    obtain ⟨l, hl, hf, hfirst⟩ := hends
    exact Or.inl ⟨f, l, by rw [select, hch]; rfl, hl, hf, hfirst⟩
  | ok chosen =>
    rw [hch] at hends
    exact Or.inr ⟨chosen, _, by rw [select, hch]; rfl, hends,
      arbitrated_withoutConflicts hc hleaves hends⟩

/-- A failure is that of the first leaf that fails. -/
theorem select_eq_error (hc : m.WellFormed) (hlt : ∀ n ∈ a, n < m.size) :
    m.select a context event = .error f ↔ ∃ l ∈ a.leaves m.toTree,
      m.Fails a context event l f ∧
      ∀ l' ∈ a.leaves m.toTree, l' < l → ∀ f', ¬ m.Fails a context event l' f' := by
  constructor
  · intro h
    rcases select_cases hc hlt context event with ⟨f', l, herr, hl, hf, hfirst⟩ | ⟨_, _, hok, _⟩
    · rw [herr] at h
      cases h
      exact ⟨l, hl, hf, hfirst⟩
    · rw [hok] at h
      cases h
  · rintro ⟨l, hl, hf, hfirst⟩
    rcases select_cases hc hlt context event with
      ⟨f', l', herr, hl', hf', hfirst'⟩ | ⟨chosen, kept, -, hg, -⟩
    · have hll : l = l' := by
        rcases Nat.lt_trichotomy l l' with h | h | h
        · exact absurd hf (hfirst' l hl h f)
        · exact h
        · exact absurd hf' (hfirst l' hl' h f')
      subst hll
      obtain ⟨r, hr, he⟩ := hf
      obtain ⟨r', hr', he'⟩ := hf'
      rw [hr] at hr'
      rw [← Option.some.inj hr', he] at he'
      rw [herr, Except.error.inj he']
    · exact absurd hf (hg.not_fails l hl f)

/-- Selection is innermost first, free of conflicts, and loses nothing without a winner: whatever
configuration has been accepted, the call fails as the first leaf does whose walk comes upon a guard
that gives no answer before its choice; else it fires different transitions in the order of the
first leaf that chooses each, all of them choices of leaves, with disjoint exits, and each choice
left out has a state to leave in common with one that is fired and declared below it, or beside it
and chosen earlier. -/
theorem select_innermost_first {d : Description} {guards : Guards γ} {options : Options}
    (hm : d.compile guards options = .ok m) {configuration : Configuration}
    (ha : m.resolve configuration = .ok a) (context : γ) (event : Event) :
    (∀ f, m.select a context event = .error f ↔ ∃ l ∈ a.leaves m.toTree,
        m.Fails a context event l f ∧
        ∀ l' ∈ a.leaves m.toTree, l' < l → ∀ f', ¬ m.Fails a context event l' f') ∧
      (∀ f, m.select a context event = .error f →
        ∃ guard state cause, f = .guardEvaluation guard state event.name cause) ∧
      ∀ kept, m.select a context event = .ok kept →
        kept.Nodup ∧
        kept.Pairwise (m.ChosenEarlier a context event (a.leaves m.toTree)) ∧
        (∀ r ∈ kept, ∃ l ∈ a.leaves m.toTree, m.Chooses a context event l r) ∧
        kept.Pairwise (fun r s => ∀ n ∈ r.exitSet m.toTree a, n ∉ s.exitSet m.toTree a) ∧
        ∀ l ∈ a.leaves m.toTree, ∀ r, m.Chooses a context event l r → r ∉ kept →
          ∃ w ∈ kept, (∃ n ∈ w.exitSet m.toTree a, n ∈ r.exitSet m.toTree a) ∧
            (m.Below w.source r.source ∨
              m.ChosenEarlier a context event (a.leaves m.toTree) w r ∧
              ¬ m.Within r.source w.source ∧ ¬ m.Within w.source r.source) := by
  have hc := Description.wellFormed_of_compile hm
  have hlt := hc.lt_size_of_resolve (resolve_eq_ok.mp ha)
  refine ⟨fun f => select_eq_error hc hlt, fun f hf => select_error hf, fun kept hkept => ?_⟩
  rcases select_cases hc hlt context event with ⟨f, l, herr, -⟩ | ⟨chosen, kept', hok, hg, harb⟩
  · rw [herr] at hkept
    cases hkept
  · rw [hok] at hkept
    cases hkept
    have hearlier := hg.earlier.sublist harb.sublist
    refine ⟨hearlier.imp fun h => h.ne, hearlier, fun r hr => ?_, ?_, ?_⟩
    · exact hg.chosen_by r (harb.sublist.subset hr)
    · exact harb.disjoint.imp fun h n hr hs => h ⟨n, hr, hs⟩
    · intro l hl r hr hnot
      obtain ⟨w, hw, ⟨n, hnw, hnr⟩, hwins⟩ := harb.beaten r (hg.mem l hl r hr) hnot
      refine ⟨w, hw, ⟨n, hnw, hnr⟩, hwins.imp_right fun h => ⟨h.1, h.2.2, h.2.1⟩⟩

/-- A playing machine that is to be switched off at low volume has two choices for that. One is left
out, and what is fired leaves a state that it would have left. -/
theorem select_power_player :
    player.resolve ⟨.ofList ["player.on.volume.low", "player.on.screen.dim"], .empty⟩ =
        .ok ⟨.ofList [0, 1, 2, 3, 5, 6], .empty⟩ ∧
      ∃ kept r, player.select ⟨.ofList [0, 1, 2, 3, 5, 6], .empty⟩ () (.named "POWER") = .ok kept ∧
        kept.Nodup ∧
        player.Chooses ⟨.ofList [0, 1, 2, 3, 5, 6], .empty⟩ () (.named "POWER") 6 r ∧
        ∃ w ∈ kept, ∃ n ∈ w.exitSet player.toTree ⟨.ofList [0, 1, 2, 3, 5, 6], .empty⟩,
          n ∈ r.exitSet player.toTree ⟨.ofList [0, 1, 2, 3, 5, 6], .empty⟩ := by
  have hresolve : player.resolve
      ⟨.ofList ["player.on.volume.low", "player.on.screen.dim"], .empty⟩ =
        .ok ⟨.ofList [0, 1, 2, 3, 5, 6], .empty⟩ := by decide +kernel
  have hselect : player.select ⟨.ofList [0, 1, 2, 3, 5, 6], .empty⟩ () (.named "POWER") =
      .ok [⟨3, "POWER", 0, [9], none, none, [], false⟩] := by decide +kernel
  have hchooses : player.Chooses ⟨.ofList [0, 1, 2, 3, 5, 6], .empty⟩ () (.named "POWER") 6
      ⟨1, "POWER", 0, [9], none, none, [], false⟩ := ⟨by decide +kernel, by decide +kernel⟩
  obtain ⟨hnodup, -, -, -, hwinner⟩ :=
    (select_innermost_first compile_player hresolve () (.named "POWER")).2.2 _ hselect
  obtain ⟨w, hw, hexits, -⟩ := hwinner 6 (by decide +kernel) _ hchooses (by decide)
  exact ⟨hresolve, _, _, hselect, hnodup, hchooses, w, hw, hexits⟩

end Machine

end Statechart
