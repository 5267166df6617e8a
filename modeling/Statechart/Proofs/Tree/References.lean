/-
# Statechart.Proofs.Tree.References -- written targets mean the states they name

The keys from one state down to another can be put together to a path (`Tree.pathFrom`). Where
states are well named, a path leads from a state to just the states below it, each by its own path
(`Keyed.descend?_path`), so that the three ways to write a target are told apart by their first
character: a path is never taken for a name, nor a name for a path
(`Description.targets_name_states`).

A name with a path behind it is another matter, since labels may hold dots themselves and such a
reference is cut at its first one. What it means is said in full by
`Description.path_below_label`: the path is followed from the label only if the label has no dot;
otherwise another label can come in between (`Description.manual_opens_archive`).
-/

import Statechart.Proofs.Tree.Addresses

namespace Statechart

namespace Tree

/-! ## Paths from state to state -/

/-- The keys on the way from a state down to one within it. -/
def keysFrom (t : Tree) (top n : Nat) : List String :=
  (((t.lineage n).takeWhile (fun m => m ≠ top)).map t.key).reverse

/-- The dotted path from a state down to one below it. -/
def pathFrom (t : Tree) (top n : Nat) : String := Path.join (t.keysFrom top n)

/-- Where a path without a dot before it starts: at the parent, or at the root itself. -/
def base (t : Tree) (n : Nat) : Nat := (t.parent? n).getD root

variable {t : Tree} {m n p x top : Nat}

@[simp] theorem keysFrom_self (t : Tree) (n : Nat) : t.keysFrom n n = [] := by
  simp [keysFrom, lineage]

namespace InOrder

variable (ht : t.InOrder)
include ht

theorem keysFrom_child {c : Nat} (hc : c ∈ t.children p) (hne : c ≠ top) :
    t.keysFrom top c = t.keysFrom top p ++ [t.key c] := by
  rw [keysFrom, ht.lineage_child hc, List.takeWhile_cons_of_pos (by simpa using hne),
    List.map_cons, List.reverse_cons]
  rfl

/-- The keys to a state are those to any state around it and those from there. -/
theorem keyPath_eq (hn : n < t.size) (h : t.Within n top) :
    t.keyPath n = t.keyPath top ++ t.keysFrom top n := by
  induction n, hn using ht.induction with
  | root =>
    obtain rfl := (within_iff.mp h).resolve_right ht.not_below_root
    simp
  | child p c hc ih =>
    by_cases hne : c = top
    · subst hne
      simp
    · rw [ht.keyPath_child hc, ih (ht.parent_within hc h hne), ht.keysFrom_child hc hne,
        List.append_assoc]

theorem keysFrom_trans (hn : n < t.size) (h : t.Within n m) (h' : t.Within m top) :
    t.keysFrom top n = t.keysFrom top m ++ t.keysFrom m n := by
  have hall := ht.keyPath_eq hn (ht.within_trans h h')
  rw [ht.keyPath_eq hn h, ht.keyPath_eq (ht.lt_size_of_within h hn) h', List.append_assoc] at hall
  exact (List.append_cancel_left hall).symm

theorem keysFrom_ne_nil (h : t.Below n top) : t.keysFrom top n ≠ [] := by
  have hne : n ≠ top := fun e => ht.not_below_self (e ▸ h)
  simp [keysFrom, lineage, hne]

theorem base_lt (n : Nat) : t.base n < t.size := by
  rw [base]
  cases hp : t.parent? n with
  | none => exact ht.size_pos
  | some p => exact lt_size_of_child (ht.parent?_eq_some.mp hp)

theorem parent?_getD (hn : n < t.size) : (t.parent? n).getD n = t.base n := by
  rw [base]
  by_cases hroot : n = root
  · rw [hroot]
  · obtain ⟨p, hp⟩ := ht.exists_parent hroot hn
    rw [ht.parent?_child hp]
    rfl

/-- Keys lead only to states within the one where they start. -/
theorem within_of_descend? {keys : List String} (h : t.descend? n keys = some m) :
    t.Within m n := by
  induction keys generalizing n with
  | nil =>
    cases h
    exact within_self t m
  | cons key keys ih =>
    rw [descend?, List.foldlM_cons] at h
    obtain ⟨c, hc, h⟩ := Option.bind_eq_some_iff.mp h
    have hchild := List.mem_of_find?_eq_some hc
    exact ht.within_trans (ih h) (ht.below_child hchild).within

end InOrder

namespace Keyed

variable (hk : t.Keyed) (ht : t.InOrder)
include hk ht

theorem plain_of_mem_keysFrom (hn : n < t.size) (h : t.Within n top) :
    ∀ key ∈ t.keysFrom top n, Path.Plain key := fun key hkey =>
  hk.plain_of_mem_keyPath ht hn key (by
    rw [ht.keyPath_eq hn h]
    exact List.mem_append_right _ hkey)

/-- From a state, keys lead to the state within it that they are the keys to. -/
theorem descend?_eq_some {keys : List String} (hn : n < t.size) :
    t.descend? n keys = some m ↔ t.Within m n ∧ t.keysFrom n m = keys := by
  constructor
  · intro h
    have hwithin := ht.within_of_descend? h
    have hpath := ht.keyPath_of_descend? h
    rw [ht.keyPath_eq (descend?_lt h hn ht) hwithin] at hpath
    exact ⟨hwithin, List.append_cancel_left hpath⟩
  · rintro ⟨hwithin, rfl⟩
    have hm : m < t.size := by
      rcases within_iff.mp hwithin with rfl | hbelow
      · exact hn
      · exact hbelow.lt_size
    -- the keys from the root lead there, and they lead through the state in between
    have h := hk.descend?_keyPath ht hm
    have hn' := hk.descend?_keyPath ht hn
    rw [descend?] at h hn'
    rw [ht.keyPath_eq hm hwithin, List.foldlM_append, hn'] at h
    exact h

/-- The keys on the last part of the way lead on from the one state they can start from. -/
theorem descend?_append_keysFrom {k : Nat} {keys : List String} (hkt : k < t.size)
    (hn : n < t.size) (hx : t.Within x n) :
    t.descend? k (keys ++ t.keysFrom n x) = some x ↔ t.descend? k keys = some n := by
  have hlast := (hk.descend?_eq_some ht hn).mpr ⟨hx, rfl⟩
  rw [descend?, List.foldlM_append]
  refine Option.bind_eq_some_iff.trans ⟨?_, fun h => ⟨n, h, hlast⟩⟩
  rintro ⟨j, hj, hjx⟩
  have hjt := descend?_lt hj hkt ht
  obtain ⟨hxj, hkeys⟩ := (hk.descend?_eq_some ht hjt).mp hjx
  have hxt := descend?_lt hjx hjt ht
  have hpath := ht.keyPath_eq hxt hxj
  rw [ht.keyPath_eq hxt hx, hkeys] at hpath
  exact hk.keyPath_inj ht hjt hn (List.append_cancel_right hpath).symm ▸ hj

theorem segments_pathFrom (h : t.Below n top) :
    Path.segments (t.pathFrom top n) = t.keysFrom top n :=
  Path.segments_join (hk.plain_of_mem_keysFrom ht h.lt_size h.within) (ht.keysFrom_ne_nil h)

/-- From a state, a text leads to the state below it that the text is the path to. -/
theorem descend?_path {path : String} (hn : n < t.size) :
    t.descend? n (Path.segments path) = some m ↔ t.Below m n ∧ t.pathFrom n m = path := by
  rw [hk.descend?_eq_some ht hn]
  constructor
  · rintro ⟨hwithin, hkeys⟩
    have hne : m ≠ n := by
      rintro rfl
      rw [keysFrom_self] at hkeys
      exact Path.segments_ne_nil path hkeys.symm
    exact ⟨hwithin.below_of_ne hne, by rw [pathFrom, hkeys, Path.join_segments]⟩
  · rintro ⟨hbelow, rfl⟩
    exact ⟨hbelow.within, (hk.segments_pathFrom ht hbelow).symm⟩

end Keyed

/-! ## The three ways to write a target -/

@[simp] theorem resolveTarget?_hash (t : Tree) (source : Nat) (reference : String) :
    t.resolveTarget? source ("#" ++ reference) = t.resolveReference? reference.toList := by
  simp [resolveTarget?]

@[simp] theorem resolveTarget?_dot (t : Tree) (source : Nat) (path : String) :
    t.resolveTarget? source ("." ++ path) = t.descend? source (Path.segments path) := by
  simp [resolveTarget?]

/-- A target that begins with neither sign is a path. -/
theorem resolveTarget?_plain (ht : t.InOrder) (hn : n < t.size) {target : String}
    (hhash : target.toList.head? ≠ some '#') (hdot : target.toList.head? ≠ some '.') :
    t.resolveTarget? n target = t.descend? (t.base n) (Path.segments target) := by
  rw [resolveTarget?]
  split
  · rename_i h
    exact absurd (by rw [h]; rfl) hhash
  · rename_i h
    exact absurd (by rw [h]; rfl) hdot
  · rw [ht.parent?_getD hn]

namespace WellNamed

variable (hw : t.WellNamed)
include hw

theorem resolveReference?_name {name : String} (h : t.Answers n name) :
    t.resolveReference? name.toList = some n := by
  rw [resolveReference?, String.ofList_toList, hw.lookup?_eq_some.mpr h]

/-- No key begins with a sign. -/
theorem head?_key {c : Nat} (hc : c ∈ t.children p) :
    (t.key c).toList.head? ≠ some '#' ∧ (t.key c).toList.head? ≠ some '.' := by
  have hvalid := hw.valid hc
  simp only [isValidKey, Bool.and_eq_true, Bool.not_eq_true', List.contains_eq_mem,
    decide_eq_false_iff_not] at hvalid
  exact ⟨fun h => hvalid.2 (List.mem_of_head? h), fun h => hvalid.1.2 (List.mem_of_head? h)⟩

/-- No path begins with a sign. -/
theorem head?_pathFrom (ht : t.InOrder) (h : t.Below n top) :
    (t.pathFrom top n).toList.head? ≠ some '#' ∧ (t.pathFrom top n).toList.head? ≠ some '.' := by
  obtain ⟨c, hc, hnc⟩ := ht.exists_child_within h
  have hne : c ≠ top := fun e => absurd (ht.lt_child hc) (e ▸ Nat.lt_irrefl top)
  have hfirst : t.keysFrom top n = t.key c :: t.keysFrom c n := by
    rw [ht.keysFrom_trans h.lt_size hnc (ht.below_child hc).within, ht.keysFrom_child hc hne,
      keysFrom_self]
    rfl
  -- a path begins as its first key, which is not empty
  have hhead : (t.pathFrom top n).toList.head? = (t.key c).toList.head? := by
    have hempty : (t.key c).toList ≠ [] := by
      have hvalid := hw.valid hc
      intro hnil
      rw [String.toList_eq_nil_iff] at hnil
      simp [isValidKey, hnil] at hvalid
    rw [pathFrom, hfirst]
    by_cases hrest : t.keysFrom c n = []
    · rw [hrest]
      rfl
    · rw [Path.join_cons _ hrest, String.toList_append, String.toList_append, List.append_assoc,
        List.head?_append_of_ne_nil _ hempty]
  rw [hhead]
  exact hw.head?_key hc

/-- A name with a path behind it that is no name itself is cut at its first dot. -/
theorem resolveReference?_path (hk : t.Keyed) (ht : t.InOrder) {name path : String} {y : Nat}
    (hname : '.' ∉ name.toList) (hfree : ∀ k, ¬ t.Answers k (name ++ "." ++ path)) :
    t.resolveReference? (name ++ "." ++ path).toList = some y ↔
      ∃ k, t.Answers k name ∧ t.Below y k ∧ t.pathFrom k y = path := by
  have hnone : t.lookup? (name ++ "." ++ path) = none :=
    Option.eq_none_iff_forall_ne_some.mpr fun k hk => hfree k (hw.lookup?_eq_some.mp hk)
  have hsplit : Path.splitFirst (name ++ "." ++ path).toList =
      some (name.toList, path.toList) := by
    rw [String.toList_append, String.toList_append, List.append_assoc]
    exact Path.splitFirst_append_dot hname
  rw [resolveReference?, String.ofList_toList, hnone, hsplit]
  show ((t.lookup? (String.ofList name.toList)).bind fun k =>
    t.descend? k (Path.segments (String.ofList path.toList))) = some y ↔ _
  rw [String.ofList_toList, String.ofList_toList, Option.bind_eq_some_iff]
  refine exists_congr fun k => ?_
  rw [hw.lookup?_eq_some]
  exact and_congr_right fun hanswers => hk.descend?_path ht hanswers.1

end WellNamed

end Tree

/-! ## What compiles -/

namespace Description

variable {d : Description} {γ : Type} {guards : Guards γ} {options : Options}

/-- Every written target means the state it names. The sign `#` with the full id or the label of a
state means that state, a dot with the path from the source to a state below it means that state,
and so does the path from the parent of the source, or from the root for the root itself; no other
text that does not begin with `#` means anything. -/
theorem targets_name_states {m : Machine γ} (h : d.compile guards options = .ok m) {source : Nat}
    (hsource : source < m.size) :
    (∀ n name, m.Answers n name → m.resolveTarget? source ("#" ++ name) = some n) ∧
      (∀ n, m.Below n source →
        m.resolveTarget? source ("." ++ m.pathFrom source n) = some n) ∧
      (∀ n, m.Below n (m.base source) →
        m.resolveTarget? source (m.pathFrom (m.base source) n) = some n) ∧
      ∀ target : String, target.toList.head? ≠ some '#' →
        (∀ n, m.Below n source → target ≠ "." ++ m.pathFrom source n) →
        (∀ n, m.Below n (m.base source) → target ≠ m.pathFrom (m.base source) n) →
        m.resolveTarget? source target = none := by
  have ht := (wellFormed_of_compile h).inOrder
  have hk := keyed_of_compile h
  have hw : m.WellNamed := by
    rw [compile_eq h]
    exact wellNamed_of_accepted (violations_of_compile h)
  have hbase := ht.base_lt source
  refine ⟨fun n name hname => ?_, fun n hn => ?_, fun n hn => ?_,
    fun target hhash hdot hplain => ?_⟩
  · rw [Tree.resolveTarget?_hash, hw.resolveReference?_name hname]
  · rw [Tree.resolveTarget?_dot, hk.descend?_path ht hsource]
    exact ⟨hn, rfl⟩
  · obtain ⟨hhash, hdot⟩ := hw.head?_pathFrom ht hn
    rw [Tree.resolveTarget?_plain ht hsource hhash hdot, hk.descend?_path ht hbase]
    exact ⟨hn, rfl⟩
  · refine Option.eq_none_iff_forall_ne_some.mpr fun n hn => ?_
    by_cases hhead : target.toList.head? = some '.'
    · -- what follows the dot would be the path to a state below the source
      obtain ⟨path, rfl⟩ : ∃ path, target = "." ++ path := by
        obtain ⟨rest, hrest⟩ := List.head?_eq_some_iff.mp hhead
        exact ⟨String.ofList rest, String.toList_inj.mp (by simpa using hrest)⟩
      rw [Tree.resolveTarget?_dot, hk.descend?_path ht hsource] at hn
      exact hdot n hn.1 (by rw [hn.2])
    · rw [Tree.resolveTarget?_plain ht hsource hhash hhead, hk.descend?_path ht hbase] at hn
      exact hplain n hn.1 hn.2.symm

end Description

/-- The lit stage can be written as a target on the open theatre in each way, but not as if it lay
beside the theatre. -/
theorem Machine.theatre_targets : Description.theatre.compile .empty .standard = .ok theatre ∧
    2 < theatre.size ∧ theatre.resolveTarget? 2 "#lit" = some 5 ∧
      theatre.resolveTarget? 2 ".stage.lit" = some 5 ∧
      theatre.resolveTarget? 2 "open.stage.lit" = some 5 ∧
      theatre.resolveTarget? 2 "stage.lit" = none := by
  have hsource : 2 < theatre.size := by decide +kernel
  obtain ⟨hname, hbelow, hbeside, hnone⟩ :=
    Description.targets_name_states compile_theatre hsource
  refine ⟨compile_theatre, hsource, hname 5 "lit" (by decide +kernel),
    hbelow 5 (by decide +kernel), hbeside 5 (by decide +kernel),
    hnone "stage.lit" (by decide) ?_ ?_⟩
  · intro n _ hpath
    have hhead := congrArg (fun path => path.toList.head?) hpath
    simp at hhead
  · have hall : ∀ n < theatre.size, theatre.Below n (theatre.base 2) →
        "stage.lit" ≠ theatre.pathFrom (theatre.base 2) n := by decide +kernel
    exact fun n hn => hall n hn.lt_size hn

/-! ## Paths below labels -/

namespace Description

variable {d : Description} {n x : Nat}

/-- What a label with a path behind it means, where that is no name itself: without a dot in the
label, the state at the path below the labelled one. A label with a dot is not taken as a whole.
What comes before its first dot is looked up, and all that comes after is the path from there; so
the state is found only if the rest of the label is itself the path that leads to the labelled
one. -/
theorem path_below_label (hw : d.tree.WellNamed) {label : String}
    (hlabel : (d.tree.place n).label = some label) (hx : d.tree.Below x n)
    (hfree : ∀ k, ¬ d.tree.Answers k (label ++ "." ++ d.tree.pathFrom n x)) (source : Nat) :
    ('.' ∉ label.toList → d.tree.resolveTarget? source
        ("#" ++ (label ++ "." ++ d.tree.pathFrom n x)) = some x) ∧
      ∀ name rest : String, label = name ++ "." ++ rest → '.' ∉ name.toList →
        (∀ y, d.tree.resolveTarget? source
            ("#" ++ (label ++ "." ++ d.tree.pathFrom n x)) = some y ↔
          ∃ k, d.tree.Answers k name ∧ d.tree.Below y k ∧
            d.tree.pathFrom k y = rest ++ "." ++ d.tree.pathFrom n x) ∧
        (d.tree.resolveTarget? source
            ("#" ++ (label ++ "." ++ d.tree.pathFrom n x)) = some x ↔
          ∃ k, d.tree.Answers k name ∧ d.tree.Below n k ∧ d.tree.pathFrom k n = rest) := by
  have ht := d.inOrder
  have hk := keyed_of_wellNamed hw
  have hn : n < d.tree.size := ht.lt_size_of_within hx.within hx.lt_size
  rw [Tree.resolveTarget?_hash]
  refine ⟨fun hdot => ?_, fun name rest hcut hdot => ?_⟩
  · exact (hw.resolveReference?_path hk ht hdot hfree).mpr ⟨n, ⟨hn, Or.inr hlabel⟩, hx, rfl⟩
  · have hjoined : label ++ "." ++ d.tree.pathFrom n x =
        name ++ "." ++ (rest ++ "." ++ d.tree.pathFrom n x) := by
      rw [hcut]
      simp only [String.append_assoc]
    rw [hjoined] at hfree ⊢
    have hmeans := fun {y} => hw.resolveReference?_path (y := y) hk ht hdot hfree
    refine ⟨fun y => hmeans, hmeans.trans ?_⟩
    refine exists_congr fun k => and_congr_right fun hanswers => ?_
    rw [← hk.descend?_path ht hanswers.1, ← hk.descend?_path ht hanswers.1, Path.segments_append,
      hk.segments_pathFrom ht hx, hk.descend?_append_keysFrom ht hanswers.1 hn hx.within]

/-- The label of the open theatre holds no dot, so the lit stage is found from there. -/
theorem theatre_below_label : theatre.tree.WellNamed ∧
    (theatre.tree.place 2).label = some "main" ∧
      theatre.tree.Below 5 2 ∧ (∀ k, ¬ theatre.tree.Answers k "main.stage.lit") ∧
      theatre.tree.resolveTarget? 1 "#main.stage.lit" = some 5 := by
  have hw := wellNamed_of_accepted (violations_of_compile Machine.compile_theatre)
  have hlabel : (theatre.tree.place 2).label = some "main" := by decide +kernel
  have hbelow : theatre.tree.Below 5 2 := by decide +kernel
  have hfree : ∀ k, ¬ theatre.tree.Answers k "main.stage.lit" := by
    have hall : ∀ k < theatre.tree.size, ¬ theatre.tree.Answers k "main.stage.lit" := by
      decide +kernel
    exact fun k hk => hall k hk.1 hk
  have hpath : theatre.tree.pathFrom 2 5 = "stage.lit" := by decide +kernel
  obtain ⟨hplain, -⟩ := path_below_label hw hlabel hbelow (by rwa [hpath]) 1
  rw [hpath] at hplain
  exact ⟨hw, hlabel, hbelow, hfree, hplain (by decide)⟩

/-! ## A manual -/

/-- A manual in two versions, of which the older one has its revisions below it. -/
def manual : Description where
  id := "manual"
  root := { State.empty with
    initial := some "cover"
    states := [
      ("cover", { State.empty with on := .ofList [("READ", [.target "#v1.2.notes"])] }),
      ("current", { State.empty with
        label := some "v1.2"
        initial := some "notes"
        states := [("notes", State.empty)] }),
      ("archive", { State.empty with
        label := some "v1"
        initial := some "2"
        states := [("2", { State.empty with
          initial := some "notes"
          states := [("notes", State.empty)] })] })] }

theorem wellNamed_manual : manual.tree.WellNamed := by
  have haccepted : manual.violations (fun _ => false) = [] := by decide +kernel
  exact wellNamed_of_accepted haccepted

/-- In the manual, the notes of the version `v1.2` are not found by its label: the reference leads
to those of the second revision of `v1`, outside the labelled version. -/
theorem manual_opens_archive : manual.tree.WellNamed ∧
    (manual.tree.place 2).label = some "v1.2" ∧ manual.tree.Below 3 2 ∧
      manual.tree.pathFrom 2 3 = "notes" ∧ (∀ k, ¬ manual.tree.Answers k "v1.2.notes") ∧
      manual.tree.resolveTarget? 1 "#v1.2.notes" = some 6 ∧ ¬ manual.tree.Within 6 2 := by
  have hfree : ∀ k < manual.tree.size, ¬ manual.tree.Answers k "v1.2.notes" := by decide +kernel
  exact ⟨wellNamed_manual, by decide +kernel, by decide +kernel, by decide +kernel,
    fun k hk => hfree k hk.1 hk, by decide +kernel, by decide +kernel⟩

end Description

end Statechart
