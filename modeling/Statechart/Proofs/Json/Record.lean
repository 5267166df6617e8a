/-
# Statechart.Proofs.Json.Record -- reading what was written

A record is written as the members for those of its parts that are there (`Json.written`). Whatever
the parts are, it is found to be a record (`record?_written`), and each part is read back by itself
(`optional?_written`, `orElse?_written`). Lists and maps are read back item by item
(`oneOrMany?_array`, `mapOf?_ofMap`). What is read by any of these is made of what is read of the
items (`forall_of_oneOrMany?`, `forall_of_mapOf?`).
-/

import Mathlib.Data.List.Nodup
import Statechart.Json.Record
import Statechart.Proofs.Sorted.Map

namespace Statechart

namespace Json

variable {α : Type} {read : Json → Option α} {write : α → Json} {P : α → Prop} {j : Json}
  {name : String} {names : List String}

theorem member?_eq_none {members : List (String × Json)} (h : ∀ m ∈ members, m.1 ≠ name) :
    member? name members = none := by
  induction members with
  | nil => rfl
  | cons m rest ih =>
    rw [member?, if_neg (h m List.mem_cons_self),
      ih fun m' hm => h m' (List.mem_cons_of_mem m hm)]

/-! ## Written records -/

/-- The members for those parts of a record that are there. -/
def written (parts : List (String × Option Json)) : List (String × Json) :=
  parts.flatMap (fun p => (p.2.map (fun j => (p.1, j))).toList)

variable {parts : List (String × Option Json)} {part : Option Json}

theorem mem_written {m : String × Json} : m ∈ written parts ↔ (m.1, some m.2) ∈ parts := by
  rw [written, List.mem_flatMap]
  constructor
  · rintro ⟨⟨n, part⟩, hp, hm⟩
    cases part with
    | none => simp at hm
    | some j =>
      obtain rfl : m = (n, j) := by simpa using hm
      exact hp
  · intro h
    exact ⟨_, h, by simp⟩

/-- The part that a name has is found under it. -/
theorem member?_written (part : Option Json) (hnodup : (parts.map Prod.fst).Nodup)
    (h : (name, part) ∈ parts) :
    member? name (written parts) = part := by
  induction parts with
  | nil => exact absurd h List.not_mem_nil
  | cons p rest ih =>
    obtain ⟨n, o⟩ := p
    obtain ⟨hn, hrest⟩ := List.nodup_cons.mp hnodup
    have hcons : written ((n, o) :: rest) = (o.map (fun j => (n, j))).toList ++ written rest := rfl
    rw [hcons]
    rcases List.mem_cons.mp h with heq | hmem
    · obtain ⟨rfl, rfl⟩ := Prod.mk.inj heq
      cases part with
      | some j => simp [member?]
      | none =>
        -- no later part has the name
        rw [Option.map_none, Option.toList_none, List.nil_append]
        refine member?_eq_none fun m hm e => ?_
        exact hn (List.mem_map.mpr ⟨_, mem_written.mp hm, e⟩)
    · have hne : n ≠ name := fun e => hn (e ▸ List.mem_map.mpr ⟨_, hmem, rfl⟩)
      cases o with
      | none => simpa using ih hrest hmem
      | some j => simpa [member?, hne] using ih hrest hmem

theorem hasDistinctKeys_written (hnodup : (parts.map Prod.fst).Nodup) :
    hasDistinctKeys (written parts) = true := by
  induction parts with
  | nil => rfl
  | cons p rest ih =>
    obtain ⟨n, o⟩ := p
    obtain ⟨hn, hrest⟩ := List.nodup_cons.mp hnodup
    cases o with
    | none => exact ih hrest
    | some j =>
      have hcons : written ((n, some j) :: rest) = (n, j) :: written rest := rfl
      rw [hcons, hasDistinctKeys, ih hrest, Bool.and_true, List.all_eq_true]
      intro m hm
      refine decide_eq_true fun e => hn (List.mem_map.mpr ⟨_, mem_written.mp hm, e⟩)

/-- A written record is a record. -/
theorem record?_written (hnodup : (parts.map Prod.fst).Nodup)
    (hnames : ∀ p ∈ parts, p.1 ∈ names) :
    (Json.object (written parts)).record? names = some (written parts) := by
  have hknown : (written parts).filter (fun m => names.contains m.1) = written parts := by
    refine List.filter_eq_self.mpr fun m hm => ?_
    simpa using hnames _ (mem_written.mp hm)
  rw [record?]
  simp only [hknown, hasDistinctKeys_written hnodup, if_true]

theorem closedRecord?_written (hnodup : (parts.map Prod.fst).Nodup)
    (hnames : ∀ p ∈ parts, p.1 ∈ names) :
    (Json.object (written parts)).closedRecord? names = some (written parts) := by
  have hall : (written parts).all (fun m => names.contains m.1) = true := by
    refine List.all_eq_true.mpr fun m hm => ?_
    simpa using hnames _ (mem_written.mp hm)
  rw [closedRecord?, if_pos hall, record?_written hnodup hnames]

section

variable (hnodup : (parts.map Prod.fst).Nodup)
include hnodup

theorem required?_written (h : (name, some j) ∈ parts) :
    Record.required? (written parts) name read = read j := by
  rw [Record.required?, Record.field?, member?_written _ hnodup h, Option.bind_some]

/-- A part that may be left out is read back. -/
theorem orElse?_written {absent a : α} (part : Option Json) (h : (name, part) ∈ parts)
    (habsent : part = none → a = absent) (hread : ∀ j, part = some j → read j = some a) :
    Record.orElse? (written parts) name read absent = some a := by
  rw [Record.orElse?, Record.field?, member?_written part hnodup h]
  cases part with
  | none => rw [habsent rfl]
  | some j => exact hread j rfl

/-- A part that may be left out or null is read back. -/
theorem optional?_written {o : Option α} (write : α → Json) (h : (name, o.map write) ∈ parts)
    (hread : ∀ a, o = some a → write a ≠ .null ∧ read (write a) = some a) :
    Record.optional? (written parts) name read = some o := by
  rw [Record.optional?, Record.field?, member?_written _ hnodup h]
  cases o with
  | none => rfl
  | some a =>
    obtain ⟨hne, ha⟩ := hread a rfl
    have hpresent : present? (write a) = some (write a) := by
      cases hw : write a <;> first | exact absurd hw hne | rfl
    rw [Option.map_some, Option.bind_some, hpresent]
    show (read (write a)).map some = some (some a)
    rw [ha, Option.map_some]

end

/-! ## Written lists and maps -/

theorem mapM_map_eq_some {β : Type} {f : β → Option α} {g : α → β} {l : List α}
    (h : ∀ a ∈ l, f (g a) = some a) : (l.map g).mapM f = some l := by
  induction l with
  | nil => rfl
  | cons a l ih =>
    rw [List.map_cons, List.mapM_cons, h a List.mem_cons_self,
      ih fun b hb => h b (List.mem_cons_of_mem a hb)]
    rfl

/-- A list whose items are read back is read back, even where one item could stand for a list. -/
theorem oneOrMany?_array {items : List α} (h : ∀ a ∈ items, read (write a) = some a) :
    oneOrMany? read (.array (items.map write)) = some items := by
  have hlist : listOf? read (.array (items.map write)) = some items := mapM_map_eq_some h
  rw [oneOrMany?, hlist]

theorem mapOf?_ofMap {m : SortedMap String α} (h : ∀ e ∈ m.toList, read (write e.2) = some e.2) :
    mapOf? read (ofMap write m) = some m := by
  have hmembers : membersOf? read (ofMap write m) = some m.toList := by
    rw [membersOf?, ofMap, asObject?, Option.bind_some]
    refine mapM_map_eq_some fun e he => ?_
    rw [h e he]
    rfl
  rw [mapOf?, hmembers, Option.map_some, SortedMap.ofList_toList]

/-! ## What is read -/

theorem forall_of_mapM_eq_some {β : Type} {f : β → Option α} {l : List β} {l' : List α}
    (h : l.mapM f = some l') (hf : ∀ b a, f b = some a → P a) : ∀ a ∈ l', P a := by
  induction l generalizing l' with
  | nil =>
    obtain rfl := Option.some.inj h
    simp
  | cons b l ih =>
    rw [List.mapM_cons] at h
    obtain ⟨a, ha, h⟩ := Option.bind_eq_some_iff.mp h
    obtain ⟨as, has, h⟩ := Option.bind_eq_some_iff.mp h
    obtain rfl := Option.some.inj h
    exact List.forall_mem_cons.mpr ⟨hf b a ha, ih has⟩

section

variable (hread : ∀ j a, read j = some a → P a)
include hread

theorem forall_of_oneOrMany? {items : List α} (h : oneOrMany? read j = some items) :
    ∀ a ∈ items, P a := by
  rw [oneOrMany?] at h
  split at h
  · rename_i items' hlist
    obtain rfl := Option.some.inj h
    obtain ⟨js, -, hjs⟩ := Option.bind_eq_some_iff.mp hlist
    exact forall_of_mapM_eq_some hjs hread
  · obtain ⟨a, ha, rfl⟩ := Option.map_eq_some_iff.mp h
    simpa using hread j a ha

theorem forall_of_mapOf? {m : SortedMap String α} (h : mapOf? read j = some m) :
    ∀ e ∈ m.toList, P e.2 := by
  obtain ⟨entries, hentries, rfl⟩ := Option.map_eq_some_iff.mp h
  obtain ⟨members, -, hmembers⟩ := Option.bind_eq_some_iff.mp hentries
  have hall : ∀ e ∈ entries, P e.2 := by
    refine forall_of_mapM_eq_some hmembers fun m e he => ?_
    obtain ⟨a, ha, rfl⟩ := Option.map_eq_some_iff.mp he
    exact hread m.2 a ha
  intro e he
  have hget := SortedMap.mem_toList.mp (show (e.1, e.2) ∈ _ from he)
  exact hall _ (SortedMap.mem_of_get?_ofList hget)

theorem of_orElse? {r : Record} {absent a : α} (h : r.orElse? name read absent = some a)
    (habsent : P absent) : P a := by
  rw [Record.orElse?] at h
  split at h
  · exact Option.some.inj h ▸ habsent
  · exact hread _ a h

end

/-- An optional part is never read from null. -/
theorem of_optional? (hread : ∀ j a, j ≠ .null → read j = some a → P a) {r : Record} {o : Option α}
    (h : r.optional? name read = some o) : ∀ a ∈ o, P a := by
  rw [Record.optional?] at h
  split at h
  · obtain rfl := Option.some.inj h
    simp
  · rename_i j hj
    obtain ⟨a, ha, rfl⟩ := Option.map_eq_some_iff.mp h
    obtain ⟨j', -, hpresent⟩ := Option.bind_eq_some_iff.mp hj
    have hne : j ≠ .null := by
      rintro rfl
      cases j' <;> simp [present?] at hpresent
    intro b hb
    exact Option.mem_some.mp hb ▸ hread j a hne ha

end Json

end Statechart
