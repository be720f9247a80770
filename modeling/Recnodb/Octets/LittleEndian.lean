import Recnodb.Octets.Slices
import Mathlib.Tactic.Ring

/-!
# Little-endian numbers

A field of a fixed width holds a natural number with its least significant byte
first. Decoding an encoded number reduces it modulo the field's range; encoding
a decoded field gives its bytes back. Both directions are needed: headers are
written from values and rewritten from what was read.
-/

namespace Octets

/-- The low bytes of a number, least significant first. -/
def encode : (width : Nat) → Nat → List UInt8
  | 0, _ => []
  | width + 1, value => UInt8.ofNat value :: encode width (value / 256)

/-- The number a field holds. -/
def decode : List UInt8 → Nat
  | [] => 0
  | low :: rest => low.toNat + 256 * decode rest

/-- Each byte is zero, or the byte that other bytes have there. -/
def Faded (bytes others : List UInt8) : Prop :=
  ∀ (index : Nat) (byte : UInt8), bytes[index]? = some byte → byte = 0 ∨ others[index]? = some byte

/-- A part of faded bytes is a faded part. -/
theorem Faded.slice {bytes others : List UInt8} (faded : Faded bytes others) (start count : Nat) :
    Faded (slice bytes start count) (slice others start count) := by
  intro index byte there
  rw [slice_getElem?] at there ⊢
  split at there
  · rename_i inside
    rw [if_pos inside]
    exact faded _ byte there
  · exact absurd there.symm (Option.some_ne_none byte)

/-- Faded bytes make no larger number. -/
theorem Faded.decode_le {bytes others : List UInt8} (faded : Faded bytes others) :
    decode bytes ≤ decode others := by
  induction bytes generalizing others with
  | nil => exact Nat.zero_le _
  | cons low rest ih =>
    have lowest := faded 0 low rfl
    cases others with
    | nil =>
      obtain rfl : low = 0 := lowest.resolve_right fun there =>
        absurd there.symm (Option.some_ne_none low)
      have behind : Faded rest [] := fun index byte there => faded (index + 1) byte there
      have none : decode rest ≤ 0 := ih behind
      rw [decode, decode, Nat.le_zero.mp none]
      rfl
    | cons other others =>
      have behind : Faded rest others := fun index byte there => faded (index + 1) byte there
      have later := ih behind
      rw [decode, decode]
      rcases lowest with rfl | same
      · exact Nat.add_le_add (Nat.zero_le _) (Nat.mul_le_mul_left _ later)
      · obtain rfl := Option.some.inj same
        exact Nat.add_le_add_left (Nat.mul_le_mul_left _ later) _

/-- A write of which only a front part arrives over zeros leaves faded bytes of the whole. -/
theorem faded_patch_take {string bytes : List UInt8} {position : Nat} (count : Nat)
    (zeros : ∀ index byte, position ≤ index → string[index]? = some byte → byte = 0) :
    Faded (patch string position (bytes.take count)) (patch string position bytes) := by
  intro index byte there
  by_cases none : bytes.take count = []
  · rw [none, patch_nil] at there
    by_cases before : index < position
    · have inside : index < string.length := (List.getElem?_eq_some_iff.mp there).1
      rw [patch_getElem?_outside inside (.inl before)]
      exact .inr there
    · exact .inl (zeros index byte (Nat.le_of_not_lt before) there)
  · have some : bytes ≠ [] := fun empty => none (by rw [empty, List.take_nil])
    rw [patch_getElem? _ _ _ none] at there
    rw [patch_getElem? _ _ _ some]
    split_ifs at there with arrived inside gap
    · rw [List.length_take] at arrived
      rw [List.getElem?_take_of_lt (by omega)] at there
      rw [if_pos (by omega)]
      exact .inr there
    · by_cases before : index < position
      · rw [if_neg (by omega), if_pos inside]
        exact .inr there
      · exact .inl (zeros index byte (Nat.le_of_not_lt before) there)
    · exact .inl (Option.some.inj there).symm

@[simp] theorem encode_length (width value : Nat) : (encode width value).length = width := by
  induction width generalizing value with
  | zero => rfl
  | succ width ih => simp [encode, ih]

theorem decode_bound (bytes : List UInt8) : decode bytes < 256 ^ bytes.length := by
  induction bytes with
  | nil => simp [decode]
  | cons low rest ih =>
    have small : low.toNat < 256 := low.toNat_lt
    simp only [decode, List.length_cons, Nat.pow_succ]
    omega

/-- A field of known width holds a number below its range. -/
theorem decode_lt {bytes : List UInt8} {width : Nat} (length : bytes.length ≤ width) :
    decode bytes < 256 ^ width :=
  Nat.lt_of_lt_of_le (decode_bound bytes) (Nat.pow_le_pow_right (by decide) length)

/-- Decoding keeps a number modulo the field's range. -/
theorem decode_encode (width value : Nat) : decode (encode width value) = value % 256 ^ width := by
  induction width generalizing value with
  | zero => simp [encode, decode, Nat.mod_one]
  | succ width ih =>
    have low : (UInt8.ofNat value).toNat = value % 256 := by simp
    rw [encode, decode, ih, low, Nat.pow_succ, Nat.mul_comm (256 ^ width) 256, Nat.mod_mul]

/-- A number that fits its field survives. -/
theorem decode_encode_of_lt {width value : Nat} (fits : value < 256 ^ width) :
    decode (encode width value) = value := by
  rw [decode_encode, Nat.mod_eq_of_lt fits]

/-- Encoding a field's number gives the field's bytes. -/
theorem encode_decode (bytes : List UInt8) : encode bytes.length (decode bytes) = bytes := by
  induction bytes with
  | nil => rfl
  | cons low rest ih =>
    have small : low.toNat < 256 := low.toNat_lt
    have quotient : (low.toNat + 256 * decode rest) / 256 = decode rest := by omega
    have remainder : UInt8.ofNat (low.toNat + 256 * decode rest) = low := by
      apply UInt8.toNat.inj
      rw [UInt8.toNat_ofNat']
      omega
    rw [List.length_cons, encode, decode, quotient, remainder, ih]

theorem encode_decode_of_length {bytes : List UInt8} {width : Nat}
    (length : bytes.length = width) : encode width (decode bytes) = bytes := by
  rw [← length, encode_decode]

/-! ## Signed fields of eight bytes -/

/-- Two's complement of a signed number in eight bytes. -/
def encodeSigned (value : Int) : List UInt8 := encode 8 (value % 2 ^ 64).toNat

/-- The signed number of an eight-byte field. -/
def decodeSigned (bytes : List UInt8) : Int :=
  if decode bytes < 2 ^ 63 then decode bytes else (decode bytes : Int) - 2 ^ 64

@[simp] theorem encodeSigned_length (value : Int) : (encodeSigned value).length = 8 :=
  encode_length 8 _

/-- Every number of the signed range survives. -/
theorem decodeSigned_encodeSigned {value : Int} (above : -2 ^ 63 ≤ value) (below : value < 2 ^ 63) :
    decodeSigned (encodeSigned value) = value := by
  have fits : (value % 2 ^ 64).toNat < 256 ^ 8 := by omega
  rw [decodeSigned, encodeSigned, decode_encode_of_lt fits]
  split <;> omega

theorem encodeSigned_decodeSigned {bytes : List UInt8} (length : bytes.length = 8) :
    encodeSigned (decodeSigned bytes) = bytes := by
  have bound : decode bytes < 256 ^ 8 := length ▸ decode_bound bytes
  have unsigned : (decodeSigned bytes % 2 ^ 64).toNat = decode bytes := by
    rw [decodeSigned]
    split <;> omega
  rw [encodeSigned, unsigned, encode_decode_of_length length]

/-- A field holds zero if all its bytes do. -/
theorem decodeSigned_zero {bytes : List UInt8} (length : bytes.length ≤ 8) :
    decodeSigned bytes = 0 ↔ decode bytes = 0 := by
  have bound := decode_lt length
  rw [decodeSigned]
  split <;> omega

/-- A decoded field lies in the signed range. -/
theorem decodeSigned_bounds {bytes : List UInt8} (length : bytes.length ≤ 8) :
    -2 ^ 63 ≤ decodeSigned bytes ∧ decodeSigned bytes < 2 ^ 63 := by
  have bound := decode_lt length
  rw [decodeSigned]
  split <;> omega

end Octets
