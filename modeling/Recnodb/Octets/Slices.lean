import Mathlib.Tactic.Common

/-!
# Ranges of a byte string

A byte string is read and overwritten by ranges. `slice` reads what lies inside
the string and silently returns less beyond its end; `patch` overwrites a range,
fills a gap past the end with zeros and lengthens the string as needed. An empty
patch changes nothing, not even the length.

The laws are pointwise: one equation says which byte every index of a patched
string holds, and the range laws follow from it.
-/

namespace Octets

/-- The bytes of a range, as far as the string reaches. -/
def slice (bytes : List UInt8) (start count : Nat) : List UInt8 := (bytes.drop start).take count

/-- Overwrite a range, with zeros between the old end and a start beyond it. -/
def patch (bytes : List UInt8) (start : Nat) (written : List UInt8) : List UInt8 :=
  if written = [] then bytes
  else bytes.take start ++ List.replicate (start - bytes.length) 0 ++ written ++
    bytes.drop (start + written.length)

@[simp] theorem patch_nil (bytes : List UInt8) (start : Nat) : patch bytes start [] = bytes := by
  simp [patch]

theorem slice_getElem? (bytes : List UInt8) (start count index : Nat) :
    (slice bytes start count)[index]? = if index < count then bytes[start + index]? else none := by
  simp only [slice, List.getElem?_take, List.getElem?_drop]

@[simp] theorem slice_length (bytes : List UInt8) (start count : Nat) :
    (slice bytes start count).length = min count (bytes.length - start) := by
  simp [slice]

/-- A range inside the string has its full length. -/
theorem slice_length_inside {bytes : List UInt8} {start count : Nat}
    (inside : start + count ≤ bytes.length) : (slice bytes start count).length = count := by
  rw [slice_length]
  omega

/-- A range of a range is a range. -/
theorem slice_slice (bytes : List UInt8) (start count inner width : Nat)
    (inside : inner + width ≤ count) :
    slice (slice bytes start count) inner width = slice bytes (start + inner) width := by
  apply List.ext_getElem?
  intro index
  simp only [slice_getElem?]
  by_cases bounded : index < width
  · have reached : inner + index < count := by omega
    simp [bounded, reached, Nat.add_assoc]
  · simp [bounded]

/-- Strings agree on a range when they agree at each of its indices. -/
theorem slice_congr {first second : List UInt8} {start count : Nat}
    (same : ∀ index, start ≤ index → index < start + count → first[index]? = second[index]?) :
    slice first start count = slice second start count := by
  apply List.ext_getElem?
  intro index
  simp only [slice_getElem?]
  split
  · exact same _ (by omega) (by omega)
  · rfl

/-- A whole string is a range of itself. -/
@[simp] theorem slice_all (bytes : List UInt8) : slice bytes 0 bytes.length = bytes := by
  simp [slice]

theorem slice_append_left {first : List UInt8} (second : List UInt8) {start count : Nat}
    (inside : start + count ≤ first.length) :
    slice (first ++ second) start count = slice first start count := by
  apply slice_congr
  intro index above below
  exact List.getElem?_append_left (by omega)

theorem slice_append_right (first : List UInt8) {second : List UInt8} {start count : Nat}
    (past : first.length ≤ start) :
    slice (first ++ second) start count = slice second (start - first.length) count := by
  apply List.ext_getElem?
  intro index
  simp only [slice_getElem?]
  rw [List.getElem?_append_right (by omega), Nat.sub_add_comm past]

/-- Adjacent ranges join. -/
theorem slice_append_slice (bytes : List UInt8) (start first second : Nat) :
    slice bytes start first ++ slice bytes (start + first) second =
      slice bytes start (first + second) := by
  simp only [slice, ← List.drop_drop, List.take_add]

/-- Every index of a patched string: the written range, the old bytes before the
old end, the zero fill of a gap, and nothing beyond. -/
theorem patch_getElem? (bytes : List UInt8) (start : Nat) (written : List UInt8)
    (nonempty : written ≠ []) (index : Nat) :
    (patch bytes start written)[index]? =
      if start ≤ index ∧ index < start + written.length then written[index - start]?
      else if index < bytes.length then bytes[index]?
      else if index < start then some 0 else none := by
  have headLength : (bytes.take start ++ List.replicate (start - bytes.length) (0 : UInt8)).length =
      start := by
    simp only [List.length_append, List.length_take, List.length_replicate]
    omega
  rw [patch, if_neg nonempty]
  by_cases before : index < start
  · rw [if_neg (by omega), List.append_assoc, List.getElem?_append_left (by omega)]
    by_cases inside : index < bytes.length
    · rw [if_pos inside, List.getElem?_append_left (by simp; omega), List.getElem?_take,
        if_pos before]
    · rw [if_neg inside, if_pos before, List.getElem?_append_right (by simp; omega)]
      simp only [List.getElem?_replicate, List.length_take]
      rw [if_pos (by omega)]
  · rw [List.append_assoc, List.getElem?_append_right (by omega), headLength]
    by_cases inRange : index < start + written.length
    · rw [if_pos (by omega), List.getElem?_append_left (by omega)]
    · rw [if_neg (by omega), List.getElem?_append_right (by omega), List.getElem?_drop]
      have same : start + written.length + (index - start - written.length) = index := by omega
      rw [same]
      by_cases inside : index < bytes.length
      · rw [if_pos inside]
      · rw [if_neg inside, if_neg before, List.getElem?_eq_none (by omega)]

theorem patch_length (bytes : List UInt8) (start : Nat) (written : List UInt8)
    (nonempty : written ≠ []) :
    (patch bytes start written).length = max bytes.length (start + written.length) := by
  have positive : 0 < written.length := List.length_pos_iff.mpr nonempty
  simp only [patch, if_neg nonempty, List.length_append, List.length_take, List.length_replicate,
    List.length_drop]
  omega

/-- A patch never shortens. -/
theorem length_le_patch (bytes : List UInt8) (start : Nat) (written : List UInt8) :
    bytes.length ≤ (patch bytes start written).length := by
  by_cases empty : written = []
  · simp [empty]
  · rw [patch_length bytes start written empty]
    omega

/-- A patch inside the string keeps its length. -/
theorem patch_length_inside {bytes : List UInt8} {start : Nat} {written : List UInt8}
    (inside : start + written.length ≤ bytes.length) :
    (patch bytes start written).length = bytes.length := by
  by_cases empty : written = []
  · simp [empty]
  · rw [patch_length bytes start written empty]
    omega

/-- Bytes of the old string outside the written range stay. -/
theorem patch_getElem?_outside {bytes : List UInt8} {start : Nat} {written : List UInt8}
    {index : Nat} (inside : index < bytes.length)
    (outside : index < start ∨ start + written.length ≤ index) :
    (patch bytes start written)[index]? = bytes[index]? := by
  by_cases empty : written = []
  · simp [empty]
  · rw [patch_getElem? bytes start written empty, if_neg (by omega), if_pos inside]

/-- Bytes of the written range are the written ones. -/
theorem patch_getElem?_inside (bytes : List UInt8) {start : Nat} {written : List UInt8}
    {index : Nat} (above : start ≤ index) (below : index < start + written.length) :
    (patch bytes start written)[index]? = written[index - start]? := by
  have nonempty : written ≠ [] := by
    rintro rfl
    simp at below
    omega
  rw [patch_getElem? bytes start written nonempty, if_pos ⟨above, below⟩]

/-- A range that the write does not meet reads as before. -/
theorem slice_patch_disjoint {bytes : List UInt8} {start : Nat} {written : List UInt8}
    {from_ count : Nat} (inside : from_ + count ≤ bytes.length)
    (apart : from_ + count ≤ start ∨ start + written.length ≤ from_) :
    slice (patch bytes start written) from_ count = slice bytes from_ count := by
  apply slice_congr
  intro index above below
  exact patch_getElem?_outside (by omega) (by omega)

/-- A range inside the written one reads the written bytes. -/
theorem slice_patch_inside (bytes : List UInt8) {start : Nat} {written : List UInt8}
    {from_ count : Nat} (above : start ≤ from_) (below : from_ + count ≤ start + written.length) :
    slice (patch bytes start written) from_ count = slice written (from_ - start) count := by
  apply List.ext_getElem?
  intro index
  simp only [slice_getElem?]
  split
  · rw [patch_getElem?_inside bytes (by omega) (by omega)]
    congr 1
    omega
  · rfl

/-- A write that agrees with the string on a range at its start keeps that range. -/
theorem slice_patch_agrees {bytes : List UInt8} {start count : Nat} {written : List UInt8}
    (inside : start + count ≤ bytes.length)
    (agrees : ∀ index, index < count → index < written.length →
      written[index]? = bytes[start + index]?) :
    slice (patch bytes start written) start count = slice bytes start count := by
  apply slice_congr
  intro index above below
  by_cases reached : index < start + written.length
  · have same := agrees (index - start) (by omega) (by omega)
    rw [patch_getElem?_inside bytes above reached, same]
    congr 1
    omega
  · exact patch_getElem?_outside (by omega) (by omega)

/-- Reading back exactly what was written. -/
theorem slice_patch_same (bytes : List UInt8) (start : Nat) (written : List UInt8) :
    slice (patch bytes start written) start written.length = written := by
  rw [slice_patch_inside bytes (Nat.le_refl start) (Nat.le_refl _), Nat.sub_self]
  simp [slice]

/-- A write inside a range is a write to what the range reads. -/
theorem slice_patch_within {bytes written : List UInt8} {start place count : Nat}
    (fits : place + written.length ≤ count) (inside : start + count ≤ bytes.length) :
    slice (patch bytes (start + place) written) start count =
      patch (slice bytes start count) place written := by
  have length := slice_length_inside inside
  by_cases empty : written = []
  · rw [empty, patch_nil, patch_nil]
  · apply List.ext_getElem?
    intro index
    rw [slice_getElem?, patch_getElem? (slice bytes start count) _ _ empty, length, slice_getElem?]
    by_cases within : index < count
    · rw [if_pos within, if_pos within]
      by_cases among : place ≤ index ∧ index < place + written.length
      · rw [patch_getElem?_inside _ (by omega) (by omega), if_pos among]
        congr 1
        omega
      · rw [patch_getElem?_outside (by omega) (by omega), if_neg among, if_pos within]
    · rw [if_neg within, if_neg within, if_neg (by omega), if_neg (by omega)]

/-- A write as long as the front of a string replaces that front. -/
theorem patch_front {first second written : List UInt8} (length : written.length = first.length) :
    patch (first ++ second) 0 written = written ++ second := by
  by_cases empty : written = []
  · subst empty
    have none : first = [] := List.length_eq_zero_iff.mp length.symm
    simp [none]
  · rw [patch, if_neg empty]
    simp [length]

/-- A write inside the front of a string leaves the rest behind it. -/
theorem patch_append_left {first written : List UInt8} (second : List UInt8) {start : Nat}
    (inside : start + written.length ≤ first.length) :
    patch (first ++ second) start written = patch first start written ++ second := by
  by_cases empty : written = []
  · simp [empty]
  · rw [patch, patch, if_neg empty, if_neg empty, List.take_append_of_le_length (by omega),
      List.drop_append_of_le_length inside, Nat.sub_eq_zero_of_le (by simp; omega),
      Nat.sub_eq_zero_of_le (by omega)]
    simp

/-- Writing back what is there changes nothing. -/
theorem patch_slice_self {bytes : List UInt8} {start count : Nat}
    (inside : start + count ≤ bytes.length) :
    patch bytes start (slice bytes start count) = bytes := by
  by_cases empty : slice bytes start count = []
  · rw [empty, patch_nil]
  · apply List.ext_getElem?
    intro index
    rw [patch_getElem? bytes start _ empty, slice_length_inside inside]
    by_cases inRange : start ≤ index ∧ index < start + count
    · rw [if_pos inRange, slice_getElem?, if_pos (by omega)]
      congr 1
      omega
    · rw [if_neg inRange]
      by_cases reached : index < bytes.length
      · rw [if_pos reached]
      · rw [if_neg reached, if_neg (by omega), List.getElem?_eq_none (by omega)]

end Octets
