import Mathlib.Data.List.Basic
import Mathlib.Data.List.Pairwise
import Mathlib.Tactic.Common

/-!
# Consecutive extents

Ranges of natural numbers, each with its size. Extents tile a range when they follow
each other in it without a gap; then each position of the range lies in one of them,
and every extent ends before the later ones begin.
-/

namespace Extents

/-- A range of positions. -/
structure Extent where
  start : Nat
  size : Nat
deriving DecidableEq, Repr

/-- The first position behind an extent. -/
def Extent.stop (extent : Extent) : Nat := extent.start + extent.size

/-- The extents follow each other from a start to a stop. -/
def Tiles : Nat → List Extent → Nat → Prop
  | start, [], stop => start = stop
  | start, extent :: rest, stop => extent.start = start ∧ Tiles extent.stop rest stop

variable {start stop unit : Nat} {extents : List Extent}

/-- An extent behind a tiling continues it. -/
theorem Tiles.concat (tiles : Tiles start extents stop) (size : Nat) :
    Tiles start (extents ++ [⟨stop, size⟩]) (stop + size) := by
  induction extents generalizing start with
  | nil =>
    obtain rfl : start = stop := tiles
    exact ⟨rfl, rfl⟩
  | cons extent rest ih => exact ⟨tiles.1, ih tiles.2⟩

theorem Tiles.start_le_stop (tiles : Tiles start extents stop) : start ≤ stop := by
  induction extents generalizing start with
  | nil => exact Nat.le_of_eq tiles
  | cons extent rest ih =>
    have later := ih tiles.2
    have here := tiles.1
    rw [Extent.stop] at later
    omega

/-- The extents lie between the start and the stop. -/
theorem Tiles.within (tiles : Tiles start extents stop) {extent : Extent}
    (among : extent ∈ extents) : start ≤ extent.start ∧ extent.stop ≤ stop := by
  induction extents generalizing start with
  | nil => exact absurd among List.not_mem_nil
  | cons first rest ih =>
    have here := tiles.1
    rcases List.mem_cons.mp among with rfl | behind
    · exact ⟨Nat.le_of_eq here.symm, tiles.2.start_le_stop⟩
    · obtain ⟨above, below⟩ := ih tiles.2 behind
      rw [Extent.stop] at above
      exact ⟨by omega, below⟩

/-- Every extent ends before the later ones begin. -/
theorem Tiles.apart (tiles : Tiles start extents stop) :
    extents.Pairwise fun one other => one.stop ≤ other.start := by
  induction extents generalizing start with
  | nil => exact List.Pairwise.nil
  | cons extent rest ih =>
    rw [List.pairwise_cons]
    exact ⟨fun other among => (tiles.2.within among).1, ih tiles.2⟩

/-- Extents that lie behind each other do not overlap. -/
theorem disjoint_of_apart (apart : extents.Pairwise fun one other => one.stop ≤ other.start)
    {one other : Extent} (oneAmong : one ∈ extents) (otherAmong : other ∈ extents)
    (different : one ≠ other) : one.stop ≤ other.start ∨ other.stop ≤ one.start := by
  have symmetric : Std.Symm fun one other : Extent =>
      one.stop ≤ other.start ∨ other.stop ≤ one.start := ⟨fun _ _ => Or.symm⟩
  have either : extents.Pairwise fun one other =>
      one.stop ≤ other.start ∨ other.stop ≤ one.start := apart.imp Or.inl
  exact either.forall oneAmong otherAmong different

/-- Two extents of a tiling do not overlap. -/
theorem Tiles.disjoint (tiles : Tiles start extents stop) {one other : Extent}
    (oneAmong : one ∈ extents) (otherAmong : other ∈ extents) (different : one ≠ other) :
    one.stop ≤ other.start ∨ other.stop ≤ one.start :=
  disjoint_of_apart tiles.apart oneAmong otherAmong different

end Extents
