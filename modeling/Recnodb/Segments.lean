import Mathlib.Algebra.BigOperators.Group.List.Basic
import Mathlib.Algebra.GroupWithZero.Nat
import Mathlib.Tactic.Common

/-!
# Consecutive segments

Segments of given lengths are laid end to end from zero. An index below their
total length falls into exactly one of them; `locate` says which one and where.
Further segments behind the others do not move any index that was located, and
scaled cells of located indices are disjoint within a segment.
-/

namespace Segments

/-- The segment an index falls into and its place there. -/
def locate : List Nat → Nat → Option (Nat × Nat)
  | [], _ => none
  | length :: rest, index =>
      if index < length then some (0, index)
      else (locate rest (index - length)).map fun found => (found.1 + 1, found.2)

/-- The first segment that an index does not pass holds it. -/
theorem locate_here {length index : Nat} (rest : List Nat) (inside : index < length) :
    locate (length :: rest) index = some (0, index) :=
  if_pos inside

/-- An index past the first segment is located behind it. -/
theorem locate_past {length index : Nat} (rest : List Nat) (past : length ≤ index) :
    locate (length :: rest) index =
      (locate rest (index - length)).map fun found => (found.1 + 1, found.2) :=
  if_neg (Nat.not_lt.mpr past)

/-- A located index is the start of its segment plus its place there. -/
theorem locate_eq_some_iff (lengths : List Nat) (index segment place : Nat) :
    locate lengths index = some (segment, place) ↔
      ∃ inside : segment < lengths.length, place < lengths[segment] ∧
        index = (lengths.take segment).sum + place := by
  induction lengths generalizing index segment with
  | nil => simp [locate]
  | cons length rest ih =>
    by_cases here : index < length
    · rw [locate_here rest here]
      constructor
      · rintro ⟨⟩
        exact ⟨by simp, by simpa using here, by simp⟩
      · rintro ⟨inside, below, total⟩
        cases segment with
        | zero =>
          have same : index = place := by simpa using total
          rw [same]
        | succ segment =>
          simp only [List.take_succ_cons, List.sum_cons] at total
          omega
    · rw [locate_past rest (Nat.not_lt.mp here), Option.map_eq_some_iff]
      constructor
      · rintro ⟨⟨before, there⟩, found, pair⟩
        obtain ⟨rfl, rfl⟩ := Prod.mk.inj pair
        obtain ⟨inside, below, total⟩ := (ih _ _).mp found
        refine ⟨by simpa using inside, by simpa using below, ?_⟩
        simp only [List.take_succ_cons, List.sum_cons]
        omega
      · rintro ⟨inside, below, total⟩
        cases segment with
        | zero =>
          have bounded : place < length := by simpa using below
          have same : index = place := by simpa using total
          omega
        | succ segment =>
          refine ⟨(segment, place),
            (ih _ _).mpr ⟨by simpa using inside, by simpa using below, ?_⟩, rfl⟩
          simp only [List.take_succ_cons, List.sum_cons] at total
          omega

/-- Exactly the indices below the total length are located. -/
theorem locate_isSome_iff (lengths : List Nat) (index : Nat) :
    (locate lengths index).isSome ↔ index < lengths.sum := by
  induction lengths generalizing index with
  | nil => simp [locate]
  | cons length rest ih =>
    rw [List.sum_cons]
    by_cases here : index < length
    · rw [locate_here rest here]
      simp
      omega
    · rw [locate_past rest (Nat.not_lt.mp here), Option.isSome_map, ih]
      omega

/-- Further segments do not move an index that was located. -/
theorem locate_append {lengths : List Nat} {index : Nat} {found : Nat × Nat} (more : List Nat)
    (located : locate lengths index = some found) : locate (lengths ++ more) index = some found := by
  obtain ⟨inside, below, total⟩ := (locate_eq_some_iff _ _ found.1 found.2).mp located
  have longer : found.1 < (lengths ++ more).length := by
    rw [List.length_append]
    omega
  refine (locate_eq_some_iff _ _ found.1 found.2).mpr ⟨longer, ?_, ?_⟩
  · rw [List.getElem_append_left inside]
    exact below
  · rw [List.take_append_of_le_length (Nat.le_of_lt inside)]
    exact total

/-- Two indices at the same place are the same index. -/
theorem locate_injective {lengths : List Nat} {first second : Nat} {found : Nat × Nat}
    (one : locate lengths first = some found) (other : locate lengths second = some found) :
    first = second := by
  obtain ⟨-, -, firstTotal⟩ := (locate_eq_some_iff _ _ found.1 found.2).mp one
  obtain ⟨-, -, secondTotal⟩ := (locate_eq_some_iff _ _ found.1 found.2).mp other
  rw [firstTotal, secondTotal]

/-- Cells of one width at different places do not meet. -/
theorem cells_apart {width first second : Nat} (different : first ≠ second) :
    first * width + width ≤ second * width ∨ second * width + width ≤ first * width := by
  rcases Nat.lt_or_gt_of_ne different with less | greater
  · left
    have := Nat.mul_le_mul_right width (Nat.succ_le_of_lt less)
    rwa [Nat.succ_mul] at this
  · right
    have := Nat.mul_le_mul_right width (Nat.succ_le_of_lt greater)
    rwa [Nat.succ_mul] at this

/-- A cell at a place below the capacity ends inside the room. -/
theorem cell_inside {width place room : Nat} (below : place < room / width) :
    place * width + width ≤ room := by
  have := Nat.mul_le_mul_right width (Nat.succ_le_of_lt below)
  rw [Nat.succ_mul] at this
  exact Nat.le_trans this (Nat.div_mul_le_self room width)

end Segments
