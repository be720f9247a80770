import Recnodb.Creation
import Recnodb.Flatrecs

/-!
# Record capacity

How many records `flatrecs_get_record_capacity` says a block holds, against the number
that fits behind its header. The size of a record wraps to zero for the largest record
size. The payload of a block that is smaller than its header wraps as well; the answer is
then right only if what it wraps to is smaller than one record.
-/

namespace Recnodb

open Interaction Octets

/-- The bytes of a record with its prefix. -/
def recordBytes (htable : RndHeadTable) : Nat := htable.thead.recSize.toNat + 1

/-- The bytes of a block behind its header, none if the header does not fit. -/
def payloadBytes (hblock : InfoBlock) : Nat := hblock.blockSize.toNat - hblock.bytesToData.toNat

/-- The capacity is the number of records that fit. The distance of each of them from the
first is computed without wrapping, and it ends inside the block. -/
structure ExactCapacity (htable : RndHeadTable) (hblock : InfoBlock) : Prop where
  fits : (flatrecsGetRecordCapacity htable hblock).toNat * recordBytes htable ≤ payloadBytes hblock
  full : payloadBytes hblock <
    ((flatrecsGetRecordCapacity htable hblock).toNat + 1) * recordBytes htable
  distance : ∀ localIndex < flatrecsGetRecordCapacity htable hblock,
    (localIndex * flatrecsFullRecsize htable).toNat = localIndex.toNat * recordBytes htable
  inside : ∀ localIndex < flatrecsGetRecordCapacity htable hblock,
    hblock.bytesToData.toNat + (localIndex * flatrecsFullRecsize htable).toNat + recordBytes htable ≤
      hblock.blockSize.toNat

/-- The record size does not wrap, and the payload does not wrap to the size of a record. -/
def Countable (htable : RndHeadTable) (hblock : InfoBlock) : Prop :=
  htable.thead.recSize.toNat ≠ 2 ^ 32 - 1 ∧
    (hblock.bytesToData.toNat ≤ hblock.blockSize.toNat ∨
      2 ^ 32 + hblock.blockSize.toNat < hblock.bytesToData.toNat + recordBytes htable)

variable {htable : RndHeadTable} {hblock : InfoBlock}

/-- The size of a record, as it is computed. -/
theorem recsize_value (fits : htable.thead.recSize.toNat ≠ 2 ^ 32 - 1) :
    (flatrecsFullRecsize htable).toNat = recordBytes htable := by
  have bound := htable.thead.recSize.toNat_lt
  rw [flatrecsFullRecsize, UInt32.toNat_add, UInt32.toNat_one, Nat.mod_eq_of_lt (by omega)]
  rfl

/-- The payload, as it is computed. -/
theorem payload_value : (hblock.blockSize - hblock.bytesToData.toUInt32).toNat =
    if hblock.bytesToData.toNat ≤ hblock.blockSize.toNat then payloadBytes hblock
    else 2 ^ 32 + hblock.blockSize.toNat - hblock.bytesToData.toNat := by
  have size := hblock.blockSize.toNat_lt
  have header := hblock.bytesToData.toNat_lt
  rw [UInt32.toNat_sub, UInt16.toNat_toUInt32, payloadBytes]
  split <;> omega

/-- The capacity is the quotient of the two. -/
theorem capacity_value (fits : htable.thead.recSize.toNat ≠ 2 ^ 32 - 1) :
    (flatrecsGetRecordCapacity htable hblock).toNat =
      (hblock.blockSize - hblock.bytesToData.toUInt32).toNat / recordBytes htable := by
  have size := recsize_value fits
  have some : flatrecsFullRecsize htable > 0 := by
    rw [gt_iff_lt, UInt32.lt_iff_toNat_lt, size]
    exact Nat.succ_pos _
  rw [flatrecsGetRecordCapacity, if_pos some, UInt32.toNat_div, size]

/-- The largest record size leaves no room for a record, and the capacity is the largest. -/
theorem capacity_wrapped (wraps : htable.thead.recSize.toNat = 2 ^ 32 - 1) :
    (flatrecsGetRecordCapacity htable hblock).toNat = 2 ^ 32 - 1 := by
  have zero : flatrecsFullRecsize htable = 0 := by
    apply UInt32.toNat.inj
    rw [flatrecsFullRecsize, UInt32.toNat_add, wraps]
    rfl
  rw [flatrecsGetRecordCapacity, zero]
  rfl

/-! ## Exact where nothing wraps -/

/-- A record whose index is below a capacity that fits lies inside the payload. -/
theorem record_inside {capacity localIndex : Nat}
    (fits : capacity * recordBytes htable ≤ payloadBytes hblock) (below : localIndex < capacity) :
    localIndex * recordBytes htable + recordBytes htable ≤ payloadBytes hblock := by
  rw [← Nat.succ_mul]
  exact (Nat.mul_le_mul_right _ below).trans fits

/-- The records of a capacity that fits are found without wrapping. -/
theorem exactCapacity_of_fits (size : htable.thead.recSize.toNat ≠ 2 ^ 32 - 1)
    (fits : (flatrecsGetRecordCapacity htable hblock).toNat * recordBytes htable ≤
      payloadBytes hblock)
    (full : payloadBytes hblock <
      ((flatrecsGetRecordCapacity htable hblock).toNat + 1) * recordBytes htable) :
    ExactCapacity htable hblock := by
  have bound := hblock.blockSize.toNat_lt
  have some : 0 < recordBytes htable := Nat.succ_pos _
  have distance (localIndex : UInt32) (below : localIndex < flatrecsGetRecordCapacity htable hblock) :
      (localIndex * flatrecsFullRecsize htable).toNat = localIndex.toNat * recordBytes htable := by
    have inside := record_inside fits (UInt32.lt_iff_toNat_lt.mp below)
    unfold payloadBytes at inside
    rw [UInt32.toNat_mul, recsize_value size, Nat.mod_eq_of_lt (by omega)]
  refine ⟨fits, full, distance, fun localIndex below => ?_⟩
  have inside := record_inside fits (UInt32.lt_iff_toNat_lt.mp below)
  unfold payloadBytes at inside
  rw [distance localIndex below]
  omega

/-- The capacity is exact where the sizes do not wrap, for every header. -/
theorem capacity_exact : ExactCapacity htable hblock ↔ Countable htable hblock := by
  have some : 0 < recordBytes htable := Nat.succ_pos _
  have size := hblock.blockSize.toNat_lt
  have header := hblock.bytesToData.toNat_lt
  constructor
  · rintro ⟨fits, full, -, -⟩
    have unwrapped : htable.thead.recSize.toNat ≠ 2 ^ 32 - 1 := by
      intro wraps
      rw [capacity_wrapped wraps, recordBytes, wraps] at fits
      unfold payloadBytes at fits
      omega
    refine ⟨unwrapped, ?_⟩
    by_contra wrapped
    obtain ⟨short, reaches⟩ := not_or.mp wrapped
    -- The payload is empty, but what it wraps to holds a record.
    have none : payloadBytes hblock = 0 := Nat.sub_eq_zero_of_le (Nat.le_of_not_le short)
    have one : 1 ≤ (flatrecsGetRecordCapacity htable hblock).toNat := by
      rw [capacity_value unwrapped, payload_value, if_neg short]
      exact Nat.div_pos (by omega) some
    have record := Nat.mul_le_mul_right (recordBytes htable) one
    omega
  · rintro ⟨unwrapped, room⟩
    have capacity := @capacity_value htable hblock unwrapped
    rw [payload_value] at capacity
    split at capacity
    · apply exactCapacity_of_fits unwrapped
      · rw [capacity]
        exact Nat.div_mul_le_self _ _
      · rw [capacity, Nat.mul_comm]
        exact Nat.lt_mul_div_succ _ some
    · rename_i short
      have zero : (flatrecsGetRecordCapacity htable hblock).toNat = 0 := by
        rw [capacity]
        exact Nat.div_eq_of_lt (by have := room.resolve_left short; omega)
      have none : payloadBytes hblock = 0 := Nat.sub_eq_zero_of_le (Nat.le_of_not_le short)
      apply exactCapacity_of_fits unwrapped
      · rw [zero, Nat.zero_mul]
        exact Nat.zero_le _
      · rw [zero, none, Nat.zero_add, Nat.one_mul]
        exact some

/-- The root of a new file of 50 bytes, smaller than its header, is to hold a billion records. -/
theorem capacity_not_exact : blocksValidateHeadFile (some (freshHead 50 3)) = .success ∧
    ¬ ExactCapacity (freshTable 50 3) (freshTable 50 3).bhead := by
  refine ⟨by decide, fun counted => ?_⟩
  exact absurd counted.fits (by decide)

end Recnodb
