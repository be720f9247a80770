import Recnodb.Interaction.Triples
import Recnodb.Stdio

/-!
# Runs on a platform without faults

On a platform on which no failure is injected a call still fails for reasons of its
own. The triples here follow the file and the stream through calls that stay within
those limits, so that a run with a stated outcome exists and not only a run without a
failure is described.
-/

namespace Recnodb

open Interaction Octets Program

/-- The program returns from every state with this file and position, and what then
holds of the value, the file and the position. -/
def OnSound {α : Type} (memory : Nat → Nat → UInt8) (file : List UInt8) (position : Nat)
    (program : Prog α) (post : α → List UInt8 → Nat → Prop) : Prop :=
  Ensures (posix (Platform.sound memory))
    (fun world => world.file = file ∧ world.position = position) program
    fun value _ world => post value world.file world.position

namespace OnSound

variable {α β : Type} {memory : Nat → Nat → UInt8} {file : List UInt8} {position : Nat}
variable {post : β → List UInt8 → Nat → Prop}

theorem ret {value : β} (holds : post value file position) :
    OnSound memory file position (.ret value) post := by
  rintro world ⟨rfl, rfl⟩
  exact ⟨value, world, rfl, holds⟩

/-- The sequence rule: the second part starts where the first one left. -/
theorem bind {program : Prog α} {rest : α → Prog β} {middle : α → List UInt8 → Nat → Prop}
    (first : OnSound memory file position program middle)
    (second : ∀ value after stands, middle value after stands →
      OnSound memory after stands (rest value) post) :
    OnSound memory file position (program >>= rest) post := by
  refine Ensures.bind first fun value past world established => ?_
  obtain ⟨result, final, completed, holds⟩ := second value _ _ established world ⟨rfl, rfl⟩
  exact ⟨result, final, completed, holds⟩

/-- A call with a known reply, by the file and the position it leaves. -/
theorem call {request : Call} {rest : Answer request → Prog β} {reply : Answer request}
    {after : List UInt8} {stands : Nat}
    (answered : ∀ world, world.file = file → world.position = position → ∃ next,
      posix (Platform.sound memory) request world = (reply, next) ∧ next.file = after ∧
        next.position = stands)
    (second : OnSound memory after stands (rest reply) post) :
    OnSound memory file position (issue request >>= rest) post := by
  intro world here
  obtain ⟨next, same, left⟩ := answered world here.1 here.2
  obtain ⟨result, final, completed, holds⟩ := second next left
  refine ⟨result, final, ?_, holds⟩
  rw [← completed]
  change run _ (rest (posix (Platform.sound memory) request world).1)
    (posix (Platform.sound memory) request world).2 = _
  rw [same]

theorem primeHandle_bind {rest : Unit → Prog β}
    (second : OnSound memory file position (rest ()) post) :
    OnSound memory file position (primeHandle >>= rest) post :=
  call (fun _ same here => ⟨_, rfl, same, here⟩) second

theorem note_bind {event : Event} {rest : Unit → Prog β}
    (second : OnSound memory file position (rest ()) post) :
    OnSound memory file position (note event >>= rest) post :=
  call (fun _ same here => ⟨_, rfl, same, here⟩) second

theorem assert_bind {fact : Bool} {rest : Unit → Prog β} (holds : fact = true)
    (second : OnSound memory file position (rest ()) post) :
    OnSound memory file position (cAssert fact >>= rest) post := by
  rw [holds]
  exact second

theorem ftell_bind {rest : OffT → Prog β}
    (second : OnSound memory file position (rest position) post) :
    OnSound memory file position (ftell >>= rest) post := by
  apply @call _ _ _ _ _ .ftell _ _ _ _ (fun world same here => ?_) second
  subst here
  exact ⟨_, rfl, same, rfl⟩

/-- A seek to a place in the range of `off_t`. -/
theorem fseek_bind {offset : OffT} {whence : Whence} {target : Nat} {rest : Bool → Prog β}
    (place : (match whence with
      | .seekSet => offset
      | .seekEnd => file.length + offset) = (target : OffT)) (bounded : target ≤ offMax)
    (second : OnSound memory file target (rest true) post) :
    OnSound memory file position (fseek offset whence >>= rest) post := by
  refine call (fun world same here => ⟨{ world.flush.tick with position := target }, ?_, same, rfl⟩)
    second
  subst same
  have absolute : world.target offset whence = (target : OffT) := by
    rw [← place]
    cases whence <;> rfl
  change unfaulted memory (.fseek offset whence) world = _
  rw [unfaulted, absolute, if_pos ⟨Int.natCast_nonneg _, Int.ofNat_le.mpr bounded⟩]
  rfl

/-- A read of a range inside the file. -/
theorem fread_bind {size : Nat} {rest : Option { bytes : List UInt8 // bytes.length = size } → Prog β}
    (some : 0 < size) (inside : position + size ≤ file.length)
    (second : OnSound memory file (position + size)
      (rest (.some ⟨slice file position size, slice_length_inside inside⟩)) post) :
    OnSound memory file position (fread size >>= rest) post := by
  refine call (fun world same here =>
    ⟨{ world.flush.tick with position := position + size }, ?_, same, rfl⟩) second
  subst same here
  change unfaulted memory (.fread size) world = _
  rw [unfaulted, dif_pos ⟨some, inside⟩]

/-- A write that ends in the range of `off_t`. -/
theorem fwrite_bind {bytes : List UInt8} {rest : Bool → Prog β} (some : 0 < bytes.length)
    (bounded : position + bytes.length ≤ offMax)
    (second : OnSound memory (patch file position bytes) (position + bytes.length) (rest true)
      post) :
    OnSound memory file position (fwrite bytes >>= rest) post := by
  refine call (fun world same here => ⟨{ (world.hold bytes).tick with
    position := position + bytes.length }, ?_, ?_, rfl⟩) second
  rotate_left
  · rw [← same, ← here]
    exact world.hold_file bytes
  subst same here
  change unfaulted memory (.fwrite bytes) world = _
  rw [unfaulted, if_pos ⟨some, bounded⟩]

/-- A read of a range inside the file, behind its seek. -/
theorem seekRead_bind {offset size : Nat}
    {rest : Option { bytes : List UInt8 // bytes.length = size } → Prog β} (some : 0 < size)
    (inside : offset + size ≤ file.length) (bounded : offset ≤ offMax)
    (second : OnSound memory file (offset + size)
      (rest (.some ⟨slice file offset size, slice_length_inside inside⟩)) post) :
    OnSound memory file position (seekRead offset size >>= rest) post := by
  rw [seekRead, bind_assoc]
  refine fseek_bind rfl bounded ?_
  exact fread_bind some inside second

end OnSound

end Recnodb
