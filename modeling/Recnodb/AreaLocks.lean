import Recnodb.Extents

/-!
# Area locks

Exclusive locks that owners hold on areas of one file. Locks of different owners share no
position: that is a field of the table, so no operation can lose it. A lock is set only
where no other owner holds a part of the area, and clearing takes an area out of the
locks of one owner.
-/

namespace Extents

/-- The extents share no position. -/
def Extent.Apart (one other : Extent) : Prop := one.stop ≤ other.start ∨ other.stop ≤ one.start

instance (one other : Extent) : Decidable (one.Apart other) :=
  inferInstanceAs (Decidable (_ ∨ _))

theorem Extent.Apart.symm {one other : Extent} (apart : one.Apart other) : other.Apart one :=
  Or.symm apart

/-- An extent that is not empty meets itself. -/
theorem Extent.meets {extent : Extent} (positive : 0 < extent.size) : ¬ extent.Apart extent := by
  rw [Extent.Apart, Extent.stop]
  omega

/-- The parts of an extent outside another one. -/
def Extent.without (extent hole : Extent) : List Extent :=
  [⟨extent.start, min hole.start extent.stop - extent.start⟩,
    ⟨max extent.start (min hole.stop extent.stop), extent.stop - max extent.start hole.stop⟩].filter
      fun part => 0 < part.size

/-- The parts of an extent lie inside it. -/
theorem Extent.without_inside {extent hole part : Extent} (among : part ∈ extent.without hole) :
    extent.start ≤ part.start ∧ part.stop ≤ extent.stop := by
  have either := List.mem_of_mem_filter among
  simp only [List.mem_cons, List.not_mem_nil, or_false] at either
  rcases either with rfl | rfl
  · simp only [Extent.stop]
    omega
  · simp only [Extent.stop]
    omega

/-- What lies inside extents that are apart is apart. -/
theorem Extent.Apart.inside {one other part : Extent} (apart : one.Apart other)
    (within : one.start ≤ part.start ∧ part.stop ≤ one.stop) : part.Apart other := by
  rcases apart with before | behind
  · exact .inl (Nat.le_trans within.2 before)
  · exact .inr (Nat.le_trans behind within.1)

/-- The locks of a file: their owners and areas. -/
structure LockTable (ι : Type) where
  held : List (ι × Extent)
  exclusive : held.Pairwise fun one other => one.1 ≠ other.1 → one.2.Apart other.2

namespace LockTable

variable {ι : Type}

/-- No lock is held. -/
def empty : LockTable ι := ⟨[], .nil⟩

/-- The owner holds a lock on the area. -/
def Holds (table : LockTable ι) (owner : ι) (area : Extent) : Prop := (owner, area) ∈ table.held

/-- Nobody else holds a part of the area. -/
def Free (table : LockTable ι) (owner : ι) (area : Extent) : Prop :=
  ∀ lock ∈ table.held, lock.1 ≠ owner → lock.2.Apart area

instance [DecidableEq ι] (table : LockTable ι) (owner : ι) (area : Extent) :
    Decidable (table.Free owner area) :=
  inferInstanceAs (Decidable (∀ lock ∈ table.held, _))

/-- Add a lock to a free area. -/
def set (table : LockTable ι) (owner : ι) (area : Extent) (free : table.Free owner area) :
    LockTable ι where
  held := (owner, area) :: table.held
  exclusive := List.pairwise_cons.mpr
    ⟨fun lock among different => (free lock among (Ne.symm different)).symm, table.exclusive⟩

variable {table : LockTable ι} {owner other : ι} {area hole : Extent}

/-- Locks of different owners are apart. -/
theorem Holds.apart {area' : Extent} (one : table.Holds owner area) (two : table.Holds other area')
    (different : owner ≠ other) : area.Apart area' := by
  obtain ⟨before, behind, split⟩ := List.append_of_mem one
  have among := two
  rw [Holds, split, List.mem_append, List.mem_cons] at among
  have exclusive := table.exclusive
  rw [split, List.pairwise_append, List.pairwise_cons] at exclusive
  rcases among with front | same | back
  · exact (exclusive.2.2 _ front _ List.mem_cons_self (Ne.symm different)).symm
  · exact absurd (congrArg Prod.fst same).symm different
  · exact exclusive.2.1.1 _ back different

theorem holds_set (free : table.Free owner area) : (table.set owner area free).Holds owner area :=
  List.mem_cons_self

theorem Holds.set (holds : table.Holds other hole) (free : table.Free owner area) :
    (table.set owner area free).Holds other hole := List.mem_cons_of_mem _ holds

variable [DecidableEq ι]

/-- What clearing an area leaves of one lock. -/
def cleared (owner : ι) (area : Extent) (lock : ι × Extent) : List (ι × Extent) :=
  if lock.1 = owner then (lock.2.without area).map fun part => (owner, part) else [lock]

theorem cleared_inside {lock left : ι × Extent}
    (among : left ∈ cleared owner area lock) :
    left.1 = lock.1 ∧ lock.2.start ≤ left.2.start ∧ left.2.stop ≤ lock.2.stop := by
  unfold cleared at among
  split at among
  · rename_i own
    obtain ⟨part, there, rfl⟩ := List.mem_map.mp among
    exact ⟨own.symm, Extent.without_inside there⟩
  · obtain rfl := List.mem_singleton.mp among
    exact ⟨rfl, Nat.le_refl _, Nat.le_refl _⟩

/-- Take an area out of the locks of one owner. -/
def clear (table : LockTable ι) (owner : ι) (area : Extent) : LockTable ι where
  held := table.held.flatMap (cleared owner area)
  exclusive := by
    apply List.pairwise_flatMap.mpr
    constructor
    · intro lock _
      apply List.Pairwise.imp_of_mem _ (List.pairwise_of_forall fun _ _ => trivial)
      intro one other first second _ different
      exact absurd ((cleared_inside first).1.trans (cleared_inside second).1.symm) different
    · apply table.exclusive.imp
      intro one other apart first among second there different
      obtain ⟨same, within⟩ := cleared_inside among
      obtain ⟨same', within'⟩ := cleared_inside there
      rw [same, same'] at different
      exact (((apart different).inside within).symm.inside within').symm

/-- Give up all locks of one owner. -/
def drop (table : LockTable ι) (owner : ι) : LockTable ι where
  held := table.held.filter fun lock => lock.1 ≠ owner
  exclusive := table.exclusive.filter _

/-- Clearing leaves the locks of the other owners. -/
theorem Holds.clear (holds : table.Holds other area) (different : other ≠ owner) :
    (table.clear owner hole).Holds other area := by
  apply List.mem_flatMap.mpr ⟨_, holds, _⟩
  rw [cleared, if_neg different]
  exact List.mem_singleton_self _

theorem Holds.drop (holds : table.Holds other area) (different : other ≠ owner) :
    (table.drop owner).Holds other area :=
  List.mem_filter.mpr ⟨holds, by simpa using different⟩

end LockTable

end Extents
