/-
# Statechart.Path -- dotted paths

A state is named by the keys on the way to it, joined by dots. `Path.segments` cuts a text at
every dot and `Path.join` puts segments together again; cutting and joining give the text back
(`Path.join_segments`).
-/

namespace Statechart.Path

/-- The pieces of a text between its dots; a text without a dot is one piece. -/
def cut : List Char → List (List Char)
  | [] => [[]]
  | c :: rest =>
    if c = '.' then [] :: cut rest
    else
      match cut rest with
      | [] => [[c]]
      | piece :: pieces => (c :: piece) :: pieces

/-- The segments of a dotted path; between two dots in a row stands an empty one. -/
def segments (path : String) : List String := (cut path.toList).map String.ofList

/-- The segments of a dotted path that are not empty. -/
def keys (path : String) : List String := (segments path).filter (fun s => s ≠ "")

/-- Segments put together with dots. -/
def join : List String → String
  | [] => ""
  | [s] => s
  | s :: rest => s ++ "." ++ join rest

/-- The text before the first dot and the text after it. -/
def splitFirst : List Char → Option (List Char × List Char)
  | [] => none
  | c :: rest =>
    if c = '.' then some ([], rest)
    else (splitFirst rest).map (fun p => (c :: p.1, p.2))

theorem cut_ne_nil (cs : List Char) : cut cs ≠ [] := by
  cases cs with
  | nil => simp [cut]
  | cons c rest =>
    unfold cut
    split
    · simp
    · split <;> simp

/-- Putting the segments of a path together gives the path back. -/
theorem join_segments (path : String) : join (segments path) = path := by
  have key : ∀ cs : List Char, join ((cut cs).map String.ofList) = String.ofList cs := by
    intro cs
    induction cs with
    | nil => rfl
    | cons c rest ih =>
      unfold cut
      split
      · rename_i hc
        obtain ⟨piece, pieces, h⟩ := List.exists_cons_of_ne_nil (cut_ne_nil rest)
        rw [h] at ih ⊢
        subst hc
        rw [List.map_cons, List.map_cons, join, ← List.map_cons, ih]
        · apply String.toList_inj.mp
          simp
        · simp
      · split
        · rename_i h
          exact absurd h (cut_ne_nil rest)
        · rename_i piece pieces h
          rw [h] at ih
          apply String.toList_inj.mp
          have ih' := congrArg String.toList ih
          cases pieces with
          | nil => simpa [join] using ih'
          | cons p ps => simpa [join] using ih'
  unfold segments
  rw [key]
  simp

end Statechart.Path
