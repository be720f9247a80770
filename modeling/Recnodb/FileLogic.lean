import Recnodb.Interaction.Triples
import Recnodb.Events

/-!
# Triples over file contents

On a file on which nothing fails, every function of the library seeks before it
reads or writes, so its result depends on the bytes of the file and not on the
stream position, the clock or the error numbers. The triples here quantify over
those: they say what a program returns, what it leaves in the file and which
events it passes, from every state with the given file.
-/

namespace Recnodb

open Interaction Octets Program

/-- The program returns from every state with this file, and what then holds of
the value, the file and the events. -/
def OnFile {α : Type} (memory : Nat → Nat → UInt8) (file : List UInt8) (program : Prog α)
    (post : α → List UInt8 → List Event → Prop) : Prop :=
  Ensures (smooth memory) (fun world => world.file = file) program
    fun value past world => post value world.file (events past)

namespace OnFile

variable {α β : Type} {memory : Nat → Nat → UInt8} {file : List UInt8}

/-- A value leaves the file. -/
theorem ret {value : α} {post : α → List UInt8 → List Event → Prop} (holds : post value file []) :
    OnFile memory file (.ret value) post :=
  fun world same => ⟨value, world, rfl, by
    subst same
    exact holds⟩

/-- A weaker postcondition. -/
theorem mono {program : Prog α} {post post' : α → List UInt8 → List Event → Prop}
    (proved : OnFile memory file program post)
    (stronger : ∀ value after past, post value after past → post' value after past) :
    OnFile memory file program post' :=
  Ensures.mono proved (fun _ same => same) fun _ _ _ established => stronger _ _ _ established

/-- The sequence rule: the second part starts from the file the first one left. -/
theorem bind {program : Prog α} {rest : α → Prog β}
    {middle : α → List UInt8 → List Event → Prop} {post : β → List UInt8 → List Event → Prop}
    (first : OnFile memory file program middle)
    (second : ∀ value after past, middle value after past →
      OnFile memory after (rest value) fun result final later => post result final (past ++ later)) :
    OnFile memory file (program >>= rest) post := by
  refine Ensures.bind first fun value past world established => ?_
  obtain ⟨result, final, completed, holds⟩ := second value _ _ established world rfl
  refine ⟨result, final, completed, ?_⟩
  simpa only [events_append] using holds

/-- The sequence rule behind a part whose outcome is known. -/
theorem bind_eq {program : Prog α} {rest : α → Prog β} {value : α} {between : List UInt8}
    {past : List Event} {post : β → List UInt8 → List Event → Prop}
    (first : OnFile memory file program
      fun result after events => result = value ∧ after = between ∧ events = past)
    (second : OnFile memory between (rest value)
      fun result final later => post result final (past ++ later)) :
    OnFile memory file (program >>= rest) post := by
  refine bind first ?_
  rintro _ _ _ ⟨rfl, rfl, rfl⟩
  exact second

/-! ## Single calls -/

/-- A call that leaves the file alone and is no event. -/
theorem quiet {request : Call} {rest : Answer request → Prog β}
    {post : β → List UInt8 → List Event → Prop}
    (untouched : ∀ world, (smooth memory request world).2.file = world.file)
    (silent : ∀ event, request ≠ .note event)
    (second : ∀ reply, OnFile memory file (rest reply) post) :
    OnFile memory file (issue request >>= rest) post := by
  intro world same
  obtain ⟨result, final, completed, holds⟩ :=
    second (smooth memory request world).1 (smooth memory request world).2
      ((untouched world).trans same)
  refine ⟨result, final, completed, ?_⟩
  have noEvent : Event.ofMoment (σ := World) ⟨world, request, (smooth memory request world).1⟩ =
      none := by
    cases request with
    | note event => exact absurd rfl (silent event)
    | _ => rfl
  change post result final.file (events (_ :: _))
  rw [events, List.filterMap_cons, noEvent]
  exact holds

/-- The error number of the handle is no part of the file. -/
theorem primeHandle_bind {rest : Unit → Prog β} {post : β → List UInt8 → List Event → Prop}
    (second : OnFile memory file (rest ()) post) :
    OnFile memory file (primeHandle >>= rest) post :=
  quiet (fun _ => rfl) (fun _ => Call.noConfusion) fun _ => second

/-- A seek succeeds and leaves the file. -/
theorem fseek_bind {offset : OffT} {whence : Whence} {rest : Bool → Prog β}
    {post : β → List UInt8 → List Event → Prop} (second : OnFile memory file (rest true) post) :
    OnFile memory file (fseek offset whence >>= rest) post := by
  intro world same
  exact second _ same

/-- A note is one event more. -/
theorem note_bind {event : Event} {rest : Unit → Prog β}
    {post : β → List UInt8 → List Event → Prop}
    (second : OnFile memory file (rest ()) fun result after past =>
      post result after (event :: past)) :
    OnFile memory file (note event >>= rest) post := by
  intro world same
  exact second world same

/-- An assertion that holds is passed. -/
theorem assert_bind {fact : Bool} {rest : Unit → Prog β}
    {post : β → List UInt8 → List Event → Prop} (holds : fact = true)
    (second : OnFile memory file (rest ()) post) :
    OnFile memory file (cAssert fact >>= rest) post := by
  rw [holds]
  exact second

/-- A read of a range inside the file. -/
theorem seekRead {offset size : Nat} (inside : offset + size ≤ file.length) :
    OnFile memory file (seekRead offset size) fun bytes after past =>
      bytes = some ⟨slice file offset size, slice_length_inside inside⟩ ∧ after = file ∧ past =
        [] := by
  intro world same
  subst same
  refine ⟨_, _, rfl, ?_, rfl, rfl⟩
  exact congrArg Prod.fst (@smooth_fread memory { world.tick with position := offset } size inside)

/-- A write at an offset is made. -/
theorem seekWrite_bind {offset : Nat} {bytes : List UInt8} {rest : Bool → Prog β}
    {post : β → List UInt8 → List Event → Prop}
    (second : OnFile memory (patch file offset bytes) (rest true) post) :
    OnFile memory file (seekWrite offset bytes >>= rest) post := by
  intro world same
  subst same
  exact second (smooth memory (.fwrite bytes) { world.flush.tick with position := offset }).2
    (World.hold_file _ _)

end OnFile

/-! ## Triples at a stream position

Between a seek and the transfer behind it, the position matters. -/

/-- The same with a known stream position at the start. -/
def OnStream {α : Type} (memory : Nat → Nat → UInt8) (file : List UInt8) (position : Nat)
    (program : Prog α) (post : α → List UInt8 → List Event → Prop) : Prop :=
  Ensures (smooth memory) (fun world => world.file = file ∧ world.position = position) program
    fun value past world => post value world.file (events past)

namespace OnStream

variable {α β : Type} {memory : Nat → Nat → UInt8} {file : List UInt8} {position : Nat}
variable {post : β → List UInt8 → List Event → Prop}

/-- What holds from every position holds from this one. -/
theorem of_file {program : Prog β} (proved : OnFile memory file program post) :
    OnStream memory file position program post :=
  fun world same => proved world same.1

/-- A seek goes to its target. -/
theorem fseek_bind {offset : OffT} {target : Nat} {rest : Bool → Prog β}
    (absolute : offset.toNat = target) (second : OnStream memory file target (rest true) post) :
    OnStream memory file position (fseek offset .seekSet >>= rest) post := by
  rintro world ⟨rfl, -⟩
  exact second _ ⟨rfl, absolute⟩

/-- A seek from the end goes to its target. -/
theorem fseek_end_bind {offset : OffT} {target : Nat} {rest : Bool → Prog β}
    (absolute : (file.length + offset).toNat = target)
    (second : OnStream memory file target (rest true) post) :
    OnStream memory file position (fseek offset .seekEnd >>= rest) post := by
  rintro world ⟨rfl, -⟩
  exact second _ ⟨rfl, absolute⟩

/-- A measurement tells the position. -/
theorem ftell_bind {rest : OffT → Prog β}
    (second : OnStream memory file position (rest position) post) :
    OnStream memory file position (ftell >>= rest) post := by
  rintro world ⟨rfl, rfl⟩
  exact second _ ⟨rfl, rfl⟩

/-- A read of a range inside the file. -/
theorem fread_bind {size : Nat} {rest : Option { bytes : List UInt8 // bytes.length = size } → Prog β}
    (inside : position + size ≤ file.length)
    (second : OnStream memory file (position + size)
      (rest (some ⟨slice file position size, slice_length_inside inside⟩)) post) :
    OnStream memory file position (fread size >>= rest) post := by
  rintro world ⟨rfl, rfl⟩
  have read := congrArg Prod.fst (@smooth_fread memory world size inside)
  dsimp only at read
  rw [← read] at second
  exact second _ ⟨rfl, rfl⟩

/-- A write is made at the position. -/
theorem fwrite_bind {bytes : List UInt8} {rest : Bool → Prog β}
    (second : OnStream memory (patch file position bytes) (position + bytes.length) (rest true)
      post) :
    OnStream memory file position (fwrite bytes >>= rest) post := by
  rintro world ⟨rfl, rfl⟩
  exact second _ ⟨World.hold_file _ _, rfl⟩

/-- A read of the memory next to a buffer delivers some bytes. -/
theorem adjacent_bind {count : Nat} {rest : { bytes : List UInt8 // bytes.length = count } → Prog β}
    (second : ∀ bytes, OnStream memory file position (rest bytes) post) :
    OnStream memory file position (adjacent count >>= rest) post := by
  rintro world ⟨rfl, rfl⟩
  exact second _ _ ⟨rfl, rfl⟩

end OnStream

/-- An opened stream stands at the start of the file, which a creating one empties. -/
theorem OnFile.fopen_bind {β : Type} {memory : Nat → Nat → UInt8} {file : List UInt8}
    {create : Bool} {rest : Option Nat → Prog β} {post : β → List UInt8 → List Event → Prop}
    (second : ∀ stream, OnStream memory (if create then [] else file) 0 (rest (some stream)) post) :
    OnFile memory file (fopen create >>= rest) post := by
  rintro world rfl
  exact second world.streams _ ⟨rfl, rfl⟩

/-- A program whose position is not known starts at some position. -/
theorem OnFile.of_stream {β : Type} {memory : Nat → Nat → UInt8} {file : List UInt8}
    {program : Prog β} {post : β → List UInt8 → List Event → Prop}
    (proved : ∀ position, OnStream memory file position program post) :
    OnFile memory file program post :=
  fun world same => proved world.position world ⟨same, rfl⟩

/-! ## Runs that may not complete -/

/-- What holds of every completed run on a file on which nothing fails. -/
def Smoothly {α : Type} (memory : Nat → Nat → UInt8) (file : List UInt8) (program : Prog α)
    (post : α → List UInt8 → List Event → Prop) : Prop :=
  Allows (smooth memory) (fun world => world.file = file) program
    fun value past world => post value world.file (events past)

/-- The same with a known stream position at the start. -/
def SmoothlyFrom {α : Type} (memory : Nat → Nat → UInt8) (file : List UInt8) (position : Nat)
    (program : Prog α) (post : α → List UInt8 → List Event → Prop) : Prop :=
  Allows (smooth memory) (fun world => world.file = file ∧ world.position = position) program
    fun value past world => post value world.file (events past)

namespace Smoothly

variable {α β : Type} {memory : Nat → Nat → UInt8} {file : List UInt8}
variable {post : β → List UInt8 → List Event → Prop}

/-- A program that returns has one run. -/
theorem of_total {program : Prog α} {post : α → List UInt8 → List Event → Prop}
    (total : OnFile memory file program post) : Smoothly memory file program post := by
  intro world same value after completed
  obtain ⟨value', after', completed', holds⟩ := total world same
  obtain ⟨delivered, rfl⟩ := Prod.mk.inj (completed'.symm.trans completed)
  obtain rfl := Except.ok.inj delivered
  exact holds

/-- A stop completes no run. -/
theorem stop (reason : Stop) : Smoothly memory file (.stop reason) post := Allows.stop reason _

/-- A program whose position is not known starts at some position. -/
theorem of_positions {program : Prog β}
    (proved : ∀ position, SmoothlyFrom memory file position program post) :
    Smoothly memory file program post :=
  fun world same => proved world.position world ⟨same, rfl⟩

/-- Behind an assertion, whether it holds or not. -/
theorem assert_bind {fact : Bool} {rest : Unit → Prog β}
    (second : Smoothly memory file (rest ()) post) :
    Smoothly memory file (cAssert fact >>= rest) post := by
  cases fact with
  | true => exact second
  | false => exact stop _

/-- The error number of the handle is no part of the file. -/
theorem primeHandle_bind {rest : Unit → Prog β} (second : Smoothly memory file (rest ()) post) :
    Smoothly memory file (primeHandle >>= rest) post := by
  intro world same
  exact second _ same

/-- A lock request is granted. -/
theorem fcntl_bind {type : LockType} {start len : OffT} {rest : Option Int → Prog β}
    (second : Smoothly memory file (rest none) post) :
    Smoothly memory file (fcntl type start len >>= rest) post := by
  intro world same
  exact second _ same

/-- An event that the first part passes is passed. -/
theorem among_left {program : Prog α} {rest : α → Prog β} {event : Event}
    (first : Smoothly memory file program fun _ _ past => event ∈ past) :
    Smoothly memory file (program >>= rest) fun _ _ past => event ∈ past := by
  refine Allows.bind first fun value past world there result after completed => ?_
  change event ∈ events (_ ++ _)
  rw [events_append]
  exact List.mem_append_left _ there

/-- An event that the rest passes is passed behind a note. -/
theorem among_note {event other : Event} {rest : Unit → Prog β}
    (second : Smoothly memory file (rest ()) fun _ _ past => event ∈ past) :
    Smoothly memory file (note other >>= rest) fun _ _ past => event ∈ past := by
  intro world same result after completed
  exact List.mem_cons_of_mem _ (second world same result after completed)

end Smoothly

namespace SmoothlyFrom

variable {β : Type} {memory : Nat → Nat → UInt8} {file : List UInt8} {position : Nat}
variable {post : β → List UInt8 → List Event → Prop}

/-- What holds from every position holds from this one. -/
theorem of_file {program : Prog β} (proved : Smoothly memory file program post) :
    SmoothlyFrom memory file position program post :=
  fun world same => proved world same.1

/-- A measurement tells the position. -/
theorem ftell_bind {rest : OffT → Prog β}
    (second : SmoothlyFrom memory file position (rest position) post) :
    SmoothlyFrom memory file position (ftell >>= rest) post := by
  rintro world ⟨rfl, rfl⟩
  exact second _ ⟨rfl, rfl⟩

/-- A seek goes to its target. -/
theorem fseek_bind {offset : OffT} {rest : Bool → Prog β}
    (second : SmoothlyFrom memory file offset.toNat (rest true) post) :
    SmoothlyFrom memory file position (fseek offset .seekSet >>= rest) post := by
  rintro world ⟨rfl, -⟩
  exact second _ ⟨rfl, rfl⟩

/-- A read inside the file. -/
theorem fread_bind {size : Nat}
    {rest : Option { bytes : List UInt8 // bytes.length = size } → Prog β}
    (inside : position + size ≤ file.length)
    (second : SmoothlyFrom memory file (position + size)
      (rest (some ⟨slice file position size, slice_length_inside inside⟩)) post) :
    SmoothlyFrom memory file position (fread size >>= rest) post := by
  rintro world ⟨rfl, rfl⟩
  have read := congrArg Prod.fst (@smooth_fread memory world size inside)
  dsimp only at read
  rw [← read] at second
  exact second _ ⟨rfl, rfl⟩

end SmoothlyFrom

end Recnodb
