import Recnodb.Interaction.Program
import Recnodb.Layout
import Recnodb.Octets.Writes

/-!
# Calls of the library and the file behind them

Every function of the library is a program over the calls it makes to the
platform: the stdio functions on the handle's stream, `fcntl` record locks, the
error number, and the memory next to a local buffer, which an over-long write
reads. Events are notes without effect; they name the moments that properties
speak about.

`posix` runs such a program for one process. The disk is a byte string, and the stream a position in
it and the writes it holds: a write goes into the buffer of the stream, and the next seek, read or
closing passes on what the stream holds; an unbuffered stream passes on every write at once. The
file of a world is the file as its stream knows it, with what is held; only this is what the calls
of the process act on. A fault schedule may make any call fail, with any error number and any
partial transfer; where a call that passes on what is held fails, any front part of it may reach the
disk and the rest is lost. Otherwise a call fails only for a reason of its own: a seek outside the
range of `off_t`, a read beyond the end of file, a write past the largest offset, or a transfer of
no bytes. Every failure is counted. `smooth` never fails; a `posix` run without a failure is a
`smooth` run.
-/

namespace Recnodb

open Interaction Octets

/-- The origin of a seek. -/
inductive Whence where
  | seekSet
  | seekEnd
deriving DecidableEq, Repr

/-- The lock requests of `rnd_lock_area`. -/
inductive LockType where
  | writeLock
  | unlock
deriving DecidableEq, Repr

/-- Moments that properties speak about. They have no effect on any state.

* `appendEntered`, `appendLeft`: the entry to `blocks_append_block` and its
  return, with the code and the block it delivered.
* `requested`, `extended`: a call of `blocks_extend_chain` by the record search
  and its return, with the code and the block it linked.
* `numbered`: the next record number was computed from a table header.
* `handed`: a record number and its offset are handed to the user callback.
* `answered`: the user callback returned, asking for the header to be written back
  or not. -/
inductive Event where
  | appendEntered
  | appendLeft (rval : RndError) (newBlock : BlockLoc)
  | requested (chainEnd : OffT) (bdef : RndBlockDef)
  | extended (chainEnd : OffT) (rval : RndError) (newBlock : BlockLoc)
  | numbered (recno : UInt32)
  | handed (recno : UInt32) (offset : OffT)
  | answered (changed : Bool)
deriving DecidableEq, Repr

/-- Calls to the platform. Stream calls act on the one stream of the process:
`handle->file`, or the stream that is about to be stored there. -/
inductive Call where
  | fopen (create : Bool)
  | fclose (stream : Nat)
  | fseek (offset : OffT) (whence : Whence)
  | ftell
  | fread (size : Nat)
  | fwrite (bytes : List UInt8)
  | fcntl (type : LockType) (start len : OffT)
  | adjacent (count : Nat)
  | primeHandle
  | keepErrno
  | note (event : Event)
deriving DecidableEq, Repr

/-- Replies. A failed `fopen` or `fread` delivers nothing, a failed `ftell`
delivers `-1`, and a failed `fcntl` its error number. What `fclose` returns, no
function of the library looks at. -/
@[reducible] def Answer : Call → Type
  | .fopen _ => Option Nat
  | .fclose _ => Bool
  | .fseek _ _ => Bool
  | .ftell => OffT
  | .fread size => Option { bytes : List UInt8 // bytes.length = size }
  | .fwrite _ => Bool
  | .fcntl _ _ _ => Option Int
  | .adjacent count => { bytes : List UInt8 // bytes.length = count }
  | .primeHandle => Unit
  | .keepErrno => Unit
  | .note _ => Unit

/-- A program ends without a value when an assertion fails, and is unfinished
when the fuel of a loop is used up. -/
inductive Stop where
  | assertion
  | fuel
deriving DecidableEq, Repr

/-- A function of the library, or a part of one. -/
abbrev Prog := Program Call Answer Stop

/-- One call of the library to the platform. -/
def issue (request : Call) : Prog (Answer request) := Program.perform request

def fopen (create : Bool) : Prog (Option Nat) := issue (.fopen create)
def fclose (stream : Nat) : Prog Bool := issue (.fclose stream)
def fseek (offset : OffT) (whence : Whence) : Prog Bool := issue (.fseek offset whence)
def ftell : Prog OffT := issue .ftell
def fread (size : Nat) : Prog (Option { bytes : List UInt8 // bytes.length = size }) :=
  issue (.fread size)
def fwrite (bytes : List UInt8) : Prog Bool := issue (.fwrite bytes)
def fcntl (type : LockType) (start len : OffT) : Prog (Option Int) :=
  issue (.fcntl type start len)
def adjacent (count : Nat) : Prog { bytes : List UInt8 // bytes.length = count } :=
  issue (.adjacent count)
def primeHandle : Prog Unit := issue .primeHandle
def keepErrno : Prog Unit := issue .keepErrno
def note (event : Event) : Prog Unit := issue (.note event)

/-- `assert(...)`. -/
def cAssert (fact : Bool) : Prog Unit := Program.require .assertion fact

/-- `fseek(...) || !fread(...)`, with the bytes read when neither fails. -/
def seekRead (offset : OffT) (size : Nat) :
    Prog (Option { bytes : List UInt8 // bytes.length = size }) := do
  if ← fseek offset .seekSet then fread size else pure none

/-- `fseek(...) || !fwrite(...)`, true when neither fails. -/
def seekWrite (offset : OffT) (bytes : List UInt8) : Prog Bool := do
  if ← fseek offset .seekSet then fwrite bytes else pure false

/-! ## One process and its file -/

/-- The largest value of `off_t`. -/
def offMax : Nat := 2 ^ 63 - 1

def einval : Int := 22
def efbig : Int := 27
def eagain : Int := 11
def eacces : Int := 13

/-- An injected failure: its error number, how many bytes of a failed write were taken,
where a failed transfer leaves the stream, and how much of what the stream held reached the
disk, if some of it is lost. -/
structure Fault where
  errno : Int
  written : Nat := 0
  position : Nat := 0
  lost : Option Nat := none
deriving DecidableEq, Repr

/-- Which calls fail, counted from the start, and what the memory next to a
local buffer holds at that time. -/
structure Platform where
  faults : Nat → Option Fault
  memory : Nat → Nat → UInt8

/-- A platform on which no failure is injected. -/
def Platform.sound (memory : Nat → Nat → UInt8) : Platform := ⟨fun _ => none, memory⟩

/-- The disk, the stream and the error numbers of one process. The writes held by the
stream are listed in their order; an unbuffered one holds none. Streams are numbered in the
order they were opened; `live` lists those still open. -/
structure World where
  disk : List UInt8
  held : List Write := []
  unbuffered : Bool := false
  position : Nat := 0
  streams : Nat := 0
  live : List Nat := []
  errno : Int := 0
  sysErrno : Int := 0
  clock : Nat := 0
  failures : Nat := 0
deriving DecidableEq, Repr

namespace World

/-- The file as the stream knows it: the disk with the writes that are held. -/
def file (world : World) : List UInt8 := puts world.held world.disk

/-- A call that does not fail is counted by the clock. -/
def tick (world : World) : World := { world with clock := world.clock + 1 }

/-- A call that fails is counted, and leaves its error number. -/
def failed (world : World) (errno : Int) : World :=
  { world with clock := world.clock + 1, errno := errno, failures := world.failures + 1 }

/-- What is held reaches the disk. -/
def flush (world : World) : World := { world with disk := world.file, held := [] }

/-- The stream takes a write at its position, and holds it if it has a buffer. -/
def hold (world : World) (bytes : List UInt8) : World :=
  { world with
    disk := if world.unbuffered then patch world.file world.position bytes else world.disk
    held := if world.unbuffered then [] else world.held ++ [⟨world.position, bytes⟩] }

/-- The disk behind a flush that loses nothing, or all but so many bytes. -/
def reached (world : World) : Option Nat → List UInt8
  | none => world.file
  | some count => puts (frontWrites count world.held) world.disk

/-- What is held reaches the disk, or a part of it and the rest is lost. -/
def drain (world : World) (lost : Option Nat) : World :=
  { world with disk := world.reached lost, held := [] }

/-- The absolute target of a seek. -/
def target (world : World) (offset : OffT) : Whence → OffT
  | .seekSet => offset
  | .seekEnd => world.file.length + offset

@[simp] theorem tick_file (world : World) : world.tick.file = world.file := rfl
@[simp] theorem tick_position (world : World) : world.tick.position = world.position := rfl
@[simp] theorem tick_failures (world : World) : world.tick.failures = world.failures := rfl
@[simp] theorem failed_file (world : World) (errno : Int) :
    (world.failed errno).file = world.file := rfl
@[simp] theorem failed_failures (world : World) (errno : Int) :
    (world.failed errno).failures = world.failures + 1 := rfl
@[simp] theorem flush_file (world : World) : world.flush.file = world.file := rfl
@[simp] theorem flush_failures (world : World) : world.flush.failures = world.failures := rfl
@[simp] theorem drain_failures (world : World) (lost : Option Nat) :
    (world.drain lost).failures = world.failures := rfl

@[simp] theorem hold_failures (world : World) (bytes : List UInt8) :
    (world.hold bytes).failures = world.failures := rfl

/-- The stream knows the file with the writes it has taken. -/
@[simp] theorem hold_file (world : World) (bytes : List UInt8) :
    (world.hold bytes).file = patch world.file world.position bytes := by
  simp only [hold, file]
  split_ifs
  · rfl
  · exact puts_concat _ _ _

/-- A write that is taken stays with the stream, or is on the disk with all that was held. -/
theorem hold_taken (world : World) (bytes : List UInt8) :
    ((world.hold bytes).disk = world.disk ∧
        (world.hold bytes).held = world.held ++ [⟨world.position, bytes⟩]) ∨
      (world.hold bytes).held = [] := by
  simp only [hold]
  split_ifs
  · exact .inr rfl
  · exact .inl ⟨rfl, rfl⟩

@[simp] theorem drain_position (world : World) (lost : Option Nat) :
    (world.drain lost).position = world.position := rfl
@[simp] theorem drain_file (world : World) (lost : Option Nat) :
    (world.drain lost).file = world.reached lost := rfl

/-- A stream that holds nothing knows the file as the disk has it. -/
theorem file_of_empty {world : World} (empty : world.held = []) : world.file = world.disk := by
  rw [file, empty]
  rfl

/-- Where nothing is held, nothing is lost. -/
theorem drain_empty {world : World} (empty : world.held = []) (lost : Option Nat) :
    world.drain lost = world.flush := by
  have kept : world.reached lost = world.file := by
    cases lost with
    | none => rfl
    | some count =>
      rw [reached, file, empty]
      rfl
  rw [drain, kept]
  rfl

end World

/-- The memory past a buffer, as a string of the length asked for. -/
def adjacentBytes (memory : Nat → UInt8) (count : Nat) :
    { bytes : List UInt8 // bytes.length = count } :=
  ⟨(List.range count).map memory, by simp⟩

@[simp] theorem adjacentBytes_length (memory : Nat → UInt8) (count : Nat) :
    (adjacentBytes memory count).val.length = count :=
  (adjacentBytes memory count).property

/-- Calls on which no failure is injected. A stream that is opened finds the file as the one
before it knew it. -/
def unfaulted (memory : Nat → Nat → UInt8) : Program.Handler Call Answer World
  | .fopen create, world =>
      (some world.streams, { world.tick with
        disk := if create then [] else world.file, held := [], position := 0,
        streams := world.streams + 1, live := world.streams :: world.live })
  | .fclose stream, world => (true, { world.flush.tick with live := world.live.erase stream })
  | .fseek offset whence, world =>
      if 0 ≤ world.target offset whence ∧ world.target offset whence ≤ offMax then
        (true, { world.flush.tick with position := (world.target offset whence).toNat })
      else (false, world.flush.failed einval)
  | .ftell, world => (world.position, world.tick)
  | .fread size, world =>
      if inside : 0 < size ∧ world.position + size ≤ world.file.length then
        (some ⟨slice world.file world.position size, slice_length_inside inside.2⟩,
          { world.flush.tick with position := world.position + size })
      else (none, { world.flush.failed world.errno with
        position := max world.position world.file.length })
  | .fwrite bytes, world =>
      if 0 < bytes.length ∧ world.position + bytes.length ≤ offMax then
        (true, { (world.hold bytes).tick with position := world.position + bytes.length })
      else (false, world.failed efbig)
  | .fcntl _ start _, world =>
      if 0 ≤ start then (none, world.tick) else (some einval, world.failed einval)
  | .adjacent count, world => (adjacentBytes (memory world.clock) count, world.tick)
  | .primeHandle, world => ((), { world with sysErrno := 0 })
  | .keepErrno, world => ((), { world with sysErrno := world.errno })
  | .note _, world => ((), world)

/-- How many bytes of a failed write go to the disk: none behind a loss. -/
def Fault.taken (fault : Fault) (world : World) : Nat :=
  if fault.lost = none then min fault.written (offMax - world.position) else 0

/-- Calls on which a failure is injected. Those that report no failure are not
affected. A stream that does not take a write passes on what it holds with any front
part of the write. -/
def faulted (memory : Nat → Nat → UInt8) (fault : Fault) : Program.Handler Call Answer World
  | .fopen _, world => (none, world.failed fault.errno)
  | .fclose stream, world =>
      (false, { (world.drain fault.lost).failed fault.errno with live := world.live.erase stream })
  | .fseek _ _, world => (false, (world.drain fault.lost).failed fault.errno)
  | .ftell, world => (-1, world.failed fault.errno)
  | .fread _, world =>
      (none, { (world.drain fault.lost).failed fault.errno with
        position := min fault.position offMax })
  | .fwrite bytes, world =>
      (false, { (((world.drain fault.lost).hold (bytes.take (fault.taken world))).flush).failed
          fault.errno with
        position := min fault.position offMax })
  | .fcntl _ _ _, world => (some fault.errno, world.failed fault.errno)
  | request, world => unfaulted memory request world

/-- One process on one file. -/
def posix (platform : Platform) : Program.Handler Call Answer World := fun request world =>
  match platform.faults world.clock with
  | none => unfaulted platform.memory request world
  | some fault => faulted platform.memory fault request world

/-- One process on a file on which nothing fails. A read beyond the end of file
delivers zeros, and a seek before the start goes to the start; neither occurs in
a run that agrees with `posix`. -/
def smooth (memory : Nat → Nat → UInt8) : Program.Handler Call Answer World
  | .fseek offset whence, world =>
      (true, { world.flush.tick with position := (world.target offset whence).toNat })
  | .fread size, world =>
      (some ⟨(slice world.file world.position size ++ List.replicate size 0).take size, by simp⟩,
        { world.flush.tick with position := world.position + size })
  | .fwrite bytes, world =>
      (true, { (world.hold bytes).tick with position := world.position + bytes.length })
  | .fcntl _ _ _, world => (none, world.tick)
  | request, world => unfaulted memory request world

/-- A read inside the file delivers the range, without added zeros. -/
theorem smooth_fread {memory : Nat → Nat → UInt8} {world : World} {size : Nat}
    (inside : world.position + size ≤ world.file.length) : smooth memory (.fread size) world =
      (some ⟨slice world.file world.position size, slice_length_inside inside⟩,
        { world.flush.tick with position := world.position + size }) := by
  have length := slice_length_inside inside
  have same : (slice world.file world.position size ++ List.replicate size 0).take size =
      slice world.file world.position size := by
    rw [List.take_append_of_le_length (by omega), List.take_of_length_le (by omega)]
  exact Prod.ext (congrArg some (Subtype.ext same)) rfl

/-- The failure counter never falls. -/
theorem posix_failures (platform : Platform) (request : Call) (world : World) :
    world.failures ≤ (posix platform request world).2.failures := by
  unfold posix
  split
  · cases request <;> simp only [unfaulted] <;> (try split_ifs) <;> simp
  · cases request <;> simp [faulted, unfaulted]

/-- A write that ends at or before the largest offset keeps the file there. -/
theorem patch_bounded {file bytes : List UInt8} {position : Nat} (bounded : file.length ≤ offMax)
    (ends : bytes ≠ [] → position + bytes.length ≤ offMax) :
    (patch file position bytes).length ≤ offMax := by
  by_cases empty : bytes = []
  · rw [empty, patch_nil]
    exact bounded
  · rw [patch_length _ _ _ empty]
    exact max_le bounded (ends empty)

/-- What reaches the disk makes it no shorter. -/
theorem World.disk_le_reached (world : World) (lost : Option Nat) :
    world.disk.length ≤ (world.reached lost).length := by
  cases lost with
  | none => exact length_le_puts _ _
  | some count => exact length_le_puts _ _

/-- What a loss leaves is no longer than the file the stream knew. -/
theorem World.reached_length (world : World) (lost : Option Nat) :
    (world.reached lost).length ≤ world.file.length := by
  cases lost with
  | none => exact Nat.le_refl _
  | some count => exact length_puts_frontWrites_le _ _ _

/-- No call makes a file longer than the largest offset. -/
theorem posix_bounded (platform : Platform) (request : Call) (world : World)
    (bounded : world.file.length ≤ offMax) :
    (posix platform request world).2.file.length ≤ offMax := by
  have drained (lost : Option Nat) : (world.reached lost).length ≤ offMax :=
    (world.reached_length lost).trans bounded
  unfold posix
  cases platform.faults world.clock with
  | none =>
    cases request with
    | fopen create =>
      cases create with
      | true => exact Nat.zero_le _
      | false => exact bounded
    | fwrite bytes =>
      simp only [unfaulted]
      split_ifs with inside
      · change (World.hold world bytes).file.length ≤ offMax
        rw [World.hold_file]
        exact patch_bounded bounded fun _ => inside.2
      · exact bounded
    | _ =>
      simp only [unfaulted]
      (try split_ifs) <;> exact bounded
  | some fault =>
    cases request with
    | fwrite bytes =>
      change ((world.drain fault.lost).hold _).file.length ≤ offMax
      rw [World.hold_file]
      refine patch_bounded (drained _) fun some => ?_
      have taken : 0 < (bytes.take (fault.taken world)).length := List.length_pos_iff.mpr some
      rw [List.length_take, Fault.taken] at taken
      rw [World.drain_position, List.length_take, Fault.taken]
      split_ifs at taken ⊢ <;> omega
    | fclose | fseek | fread => exact drained fault.lost
    | _ => exact bounded

/-- A call that is not counted as failed is the call on which nothing fails. -/
theorem posix_agrees_smooth (platform : Platform) (request : Call) (world : World)
    (calm : (posix platform request world).2.failures = world.failures) :
    posix platform request world = smooth platform.memory request world := by
  unfold posix at calm ⊢
  cases scheduled : platform.faults world.clock with
  | none =>
    simp only [scheduled] at calm ⊢
    cases request with
    | fseek offset whence =>
      simp only [unfaulted, smooth] at calm ⊢
      split_ifs at calm ⊢ with inside
      · rfl
      · simp at calm
    | fread size =>
      simp only [unfaulted] at calm ⊢
      split_ifs at calm ⊢ with inside
      · exact (smooth_fread inside.2).symm
      · simp at calm
    | fwrite bytes =>
      simp only [unfaulted, smooth] at calm ⊢
      split_ifs at calm ⊢ with inside
      · rfl
      · simp at calm
    | fcntl type start len =>
      simp only [unfaulted, smooth] at calm ⊢
      split_ifs at calm ⊢ with inside
      · rfl
      · simp at calm
    | _ => rfl
  | some fault =>
    simp only [scheduled] at calm ⊢
    cases request <;> first | rfl | simp [faulted] at calm

/-- A run without a failure is a run on a file on which nothing fails. -/
theorem run_calm {α : Type} {platform : Platform} {program : Prog α} {world : World}
    (calm : (Program.run (posix platform) program world).2.failures = world.failures) :
    Program.run (posix platform) program world =
        Program.run (smooth platform.memory) program world ∧
      Program.log (posix platform) program world =
        Program.log (smooth platform.memory) program world :=
  Program.run_agree World.failures (posix_failures platform) (posix_agrees_smooth platform)
    program world calm

/-- The failure counter never falls in a run. -/
theorem run_failures {α : Type} (platform : Platform) (program : Prog α) (world : World) :
    world.failures ≤ (Program.run (posix platform) program world).2.failures :=
  Program.run_rises _ World.failures (posix_failures platform) program world

/-! ## Losses -/

/-- A call of a stream that passes on what it holds. -/
def Call.Drains : Call → Prop
  | .fclose _ => True
  | .fseek _ _ => True
  | .fread _ => True
  | .fwrite _ => True
  | _ => False

/-- A call at which nothing is lost that the stream has taken. -/
def Spared (platform : Platform) (world : World) (request : Call) : Prop :=
  request.Drains → ∀ fault, platform.faults world.clock = some fault →
    fault.lost = none ∨ world.held = []

/-- Such a call passes on all that is held, also where it fails. -/
theorem Spared.drain {platform : Platform} {world : World} {request : Call} {fault : Fault}
    (spared : Spared platform world request) (drains : request.Drains)
    (scheduled : platform.faults world.clock = some fault) : world.drain fault.lost = world.flush :=
      by
  rcases spared drains fault scheduled with none | empty
  · rw [none]
    rfl
  · exact World.drain_empty empty _

/-- A run in which nothing is lost that the stream had taken. -/
def Lossless (platform : Platform) (past : List (Program.Moment Call Answer World)) : Prop :=
  ∀ moment ∈ past, Spared platform moment.before moment.request

/-- No call loses nothing. -/
theorem lossless_nil {platform : Platform} : Lossless platform [] :=
  fun _ among => absurd among List.not_mem_nil

/-- The first call loses nothing, and the others lose nothing. -/
theorem lossless_cons {platform : Platform} {moment : Program.Moment Call Answer World}
    {past : List (Program.Moment Call Answer World)} : Lossless platform (moment :: past) ↔
      Spared platform moment.before moment.request ∧ Lossless platform past :=
  List.forall_mem_cons

/-- Two parts in a row lose nothing if neither does. -/
theorem lossless_append {platform : Platform}
    {first second : List (Program.Moment Call Answer World)} :
    Lossless platform (first ++ second) ↔ Lossless platform first ∧ Lossless platform second :=
  List.forall_mem_append

/-- A platform on which a failing call loses nothing of what a stream has taken. -/
def Platform.Durable (platform : Platform) : Prop :=
  ∀ time fault, platform.faults time = some fault → fault.lost = none

/-- On such a platform no run loses anything. -/
theorem Platform.Durable.lossless {platform : Platform} (durable : platform.Durable)
    (past : List (Program.Moment Call Answer World)) : Lossless platform past :=
  fun _ _ _ fault scheduled => .inl (durable _ fault scheduled)

/-- Where no failure is injected, nothing is lost. -/
theorem Platform.durable_sound (memory : Nat → Nat → UInt8) : (Platform.sound memory).Durable :=
  fun _ fault scheduled => absurd scheduled.symm (Option.some_ne_none fault)

/-- A call that is not counted as failed loses nothing. -/
theorem spared_of_calm {platform : Platform} {request : Call} {world : World}
    (calm : (posix platform request world).2.failures = world.failures) :
    Spared platform world request := by
  intro drains fault scheduled
  unfold posix at calm
  rw [scheduled] at calm
  cases request <;> first | exact drains.elim | simp [faulted] at calm

/-- A run without a failure loses nothing. -/
theorem lossless_of_calm {α : Type} {platform : Platform} {program : Prog α} {world : World}
    (calm : (Program.run (posix platform) program world).2.failures = world.failures) :
    Lossless platform (Program.log (posix platform) program world) := by
  induction program generalizing world with
  | ret value => exact lossless_nil
  | stop reason => exact lossless_nil
  | call request next ih =>
    have here := posix_failures platform request world
    have later := run_failures platform (next (posix platform request world).1)
      (posix platform request world).2
    have total : (Program.run (posix platform) (next (posix platform request world).1)
      (posix platform request world).2).2.failures = world.failures := calm
    have first : (posix platform request world).2.failures = world.failures := by omega
    exact lossless_cons.mpr ⟨spared_of_calm first, ih _ (by omega)⟩

/-- No run makes a file longer than the largest offset. -/
theorem run_bounded {α : Type} (platform : Platform) (program : Prog α) (world : World)
    (bounded : world.file.length ≤ offMax) :
    (Program.run (posix platform) program world).2.file.length ≤ offMax :=
  Program.run_keeps _ (fun after => after.file.length ≤ offMax) (posix_bounded platform) program
    world bounded

end Recnodb
