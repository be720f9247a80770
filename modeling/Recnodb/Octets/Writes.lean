import Recnodb.Octets.Slices

/-!
# Writes in a row

Writes that a buffer has taken and not yet passed on: putting them into a byte string one
after the other, and the part of them that a number of bytes makes up, which is what has
arrived when they were passed on in order and not to the end.
-/

namespace Octets

/-- Bytes that are to be put at a position. -/
structure Write where
  position : Nat
  bytes : List UInt8
deriving DecidableEq, Repr

/-- A byte string behind some writes, the first one done first. -/
def puts (writes : List Write) (string : List UInt8) : List UInt8 :=
  writes.foldl (fun string write => patch string write.position write.bytes) string

/-- The writes that a number of bytes makes up: whole ones, and a front part of the next. -/
def frontWrites : Nat → List Write → List Write
  | _, [] => []
  | count, write :: rest =>
    if write.bytes.length ≤ count then write :: frontWrites (count - write.bytes.length) rest
    else [{ write with bytes := write.bytes.take count }]

@[simp] theorem puts_nil (string : List UInt8) : puts [] string = string := rfl

/-- One write more is a patch of what the others left. -/
theorem puts_concat (writes : List Write) (write : Write) (string : List UInt8) :
    puts (writes ++ [write]) string = patch (puts writes string) write.position write.bytes := by
  rw [puts, List.foldl_append]
  rfl

/-- The front part of a single write is a front part of its bytes. -/
theorem puts_frontWrites_one (count : Nat) (write : Write) (string : List UInt8) :
    puts (frontWrites count [write]) string =
      patch string write.position (write.bytes.take count) := by
  rw [frontWrites]
  split
  · rename_i short
    rw [frontWrites, List.take_of_length_le short]
    rfl
  · rfl

/-- Each write of a front part is a front part of one of them. -/
theorem frontWrites_part {count : Nat} {writes : List Write} {write : Write}
    (among : write ∈ frontWrites count writes) :
    ∃ whole ∈ writes, ∃ part, write = { whole with bytes := whole.bytes.take part } := by
  induction writes generalizing count with
  | nil => cases among
  | cons first rest ih =>
    rw [frontWrites] at among
    split at among
    · rcases List.mem_cons.mp among with rfl | later
      · exact ⟨write, List.mem_cons_self, write.bytes.length, by rw [List.take_length]⟩
      · obtain ⟨whole, there, part⟩ := ih later
        exact ⟨whole, List.mem_cons_of_mem _ there, part⟩
    · exact ⟨first, List.mem_cons_self, count, List.mem_singleton.mp among⟩

/-- Writes never shorten a string. -/
theorem length_le_puts (writes : List Write) (string : List UInt8) :
    string.length ≤ (puts writes string).length := by
  induction writes generalizing string with
  | nil => exact Nat.le_refl _
  | cons write rest ih => exact Nat.le_trans (length_le_patch _ _ _) (ih _)

/-- A front part of a write leaves no longer a string than the whole of it. -/
theorem length_patch_take_le (string : List UInt8) (position : Nat) (bytes : List UInt8)
    (count : Nat) :
    (patch string position (bytes.take count)).length ≤ (patch string position bytes).length := by
  by_cases empty : bytes.take count = []
  · rw [empty, patch_nil]
    exact length_le_patch _ _ _
  · have some : bytes ≠ [] := fun none => empty (by rw [none, List.take_nil])
    rw [patch_length _ _ _ empty, patch_length _ _ _ some, List.length_take]
    omega

/-- A front part of some writes leaves no longer a string than all of them. -/
theorem length_puts_frontWrites_le (count : Nat) (writes : List Write) (string : List UInt8) :
    (puts (frontWrites count writes) string).length ≤ (puts writes string).length := by
  induction writes generalizing count string with
  | nil => exact Nat.le_refl _
  | cons write rest ih =>
    rw [frontWrites]
    split
    · exact ih _ _
    · refine Nat.le_trans ?_ (length_le_puts rest _)
      exact length_patch_take_le _ _ _ _

end Octets
