import Mathlib.Logic.Function.Basic
import Recnodb.AreaLocks
import Recnodb.Outcomes

/-!
# Several processes on one file

Each process has its own stream, its own error numbers and its own platform, which may
make any of its calls fail; the file and the locks on it are shared. A call is one step. A
lock is refused at once where another process holds a part of the area. A read may be
answered from what the stream buffered at an earlier read, as a platform may do when the
position lies inside its buffer. What a stream holds of its writes is its own: the others
see the file without it, until a seek, a read or the closing of the stream passes it on,
whether its process then has a lock or not. A process is settled where its stream holds
nothing.
-/

namespace Recnodb

open Interaction Octets Program Extents

/-- Bytes that a stream took from the file ahead of what was asked for. -/
structure Ahead where
  start : Nat
  bytes : List UInt8
deriving DecidableEq, Repr

/-- The buffer can answer a read. -/
def Ahead.Answers (ahead : Ahead) (position size : Nat) : Prop :=
  ahead.start ≤ position ∧ position + size ≤ ahead.start + ahead.bytes.length

instance (ahead : Ahead) (position size : Nat) : Decidable (ahead.Answers position size) :=
  inferInstanceAs (Decidable (_ ∧ _))

/-- The part of the buffer that answers a read. -/
def Ahead.part (ahead : Ahead) (position size : Nat) : List UInt8 :=
  slice ahead.bytes (position - ahead.start) size

/-- The bytes answered from the read-ahead are as many as were asked for. -/
theorem Ahead.part_length {ahead : Ahead} {position size : Nat}
    (answers : ahead.Answers position size) : (ahead.part position size).length = size := by
  apply slice_length_inside
  obtain ⟨behind, inside⟩ := answers
  omega

/-- The buffer behind a write of the same stream. -/
def Ahead.overlay (ahead : Ahead) (position : Nat) (bytes : List UInt8) : Ahead :=
  { ahead with
    bytes := ahead.bytes.mapIdx fun index byte =>
      if position ≤ ahead.start + index then (bytes[ahead.start + index - position]?).getD byte
      else byte }

/-- The platform of a process: which calls fail, whether a read may be answered from the buffer, and
how many bytes a read from the file takes into it. Both are by the time of the process. -/
structure Machine where
  platform : Platform
  kept : Nat → Bool
  depth : Nat → Nat

/-- A platform whose streams read nothing ahead. -/
def Machine.unbuffered (platform : Platform) : Machine := ⟨platform, fun _ => false, fun _ => 0⟩

/-- The stream and the error numbers of a process, and what the stream has read ahead. The disk of
the world is not used. -/
structure Process where
  world : World
  ahead : Ahead := ⟨0, []⟩
deriving DecidableEq, Repr

/-- The file, the locks on it, and the processes. -/
structure Shared (ι : Type) where
  file : List UInt8
  locks : LockTable ι
  processes : ι → Process

namespace Shared

variable {ι : Type}

/-- The world of one process: the file, and its own stream. -/
def view (shared : Shared ι) (process : ι) : World :=
  { (shared.processes process).world with disk := shared.file }

/-- What a process has written is in the file. -/
def Settled (shared : Shared ι) (process : ι) : Prop := (shared.processes process).world.held = []

instance (shared : Shared ι) (process : ι) : Decidable (shared.Settled process) :=
  inferInstanceAs (Decidable (_ = []))

/-- The stream of a process has no buffer for what it writes. -/
structure Unbuffered (shared : Shared ι) (process : ι) : Prop where
  unbuffered : (shared.processes process).world.unbuffered = true
  settled : shared.Settled process

/-- A settled process knows the file as it is. -/
theorem Settled.file {shared : Shared ι} {process : ι} (settled : shared.Settled process) :
    (shared.view process).file = shared.file := World.file_of_empty settled

/-- What a read would be answered with from the buffer is what the file has there. -/
def Current (shared : Shared ι) (machine : Machine) (process : ι) (size : Nat) : Prop :=
  let world := shared.view process
  let ahead := (shared.processes process).ahead
  machine.kept world.clock = true ∧ ahead.Answers world.position size →
    ahead.part world.position size = slice world.file world.position size

instance (shared : Shared ι) (machine : Machine) (process : ι) (size : Nat) :
    Decidable (shared.Current machine process size) :=
  inferInstanceAs (Decidable (_ ∧ _ → _))

variable [DecidableEq ι]

/-- A process did something that its world knows of. -/
def turn (shared : Shared ι) (process : ι) (after : World) (ahead : Ahead) : Shared ι :=
  { shared with
    file := after.disk
    processes := Function.update shared.processes process ⟨after, ahead⟩ }

variable {shared : Shared ι} {process other : ι} {after : World} {ahead : Ahead}

/-- The file is what the process leaves on the disk. -/
@[simp] theorem turn_file : (shared.turn process after ahead).file = after.disk := rfl

/-- A turn leaves the locks. -/
@[simp] theorem turn_locks : (shared.turn process after ahead).locks = shared.locks := rfl

/-- A turn leaves its process as it is said. -/
@[simp] theorem turn_processes :
    (shared.turn process after ahead).processes process = ⟨after, ahead⟩ :=
  Function.update_self _ _ _

/-- The process sees what it left. -/
@[simp] theorem turn_view : (shared.turn process after ahead).view process = after := by
  simp [view]

/-- A turn leaves the other processes. -/
@[simp] theorem turn_other (different : other ≠ process) :
    (shared.turn process after ahead).processes other = shared.processes other :=
  Function.update_of_ne different _ _

end Shared

/-- The area of a lock request. A length of zero reaches to the largest offset. -/
def lockedArea (start len : OffT) : Extent :=
  if len = 0 then ⟨start.toNat, 2 ^ 63 - start.toNat⟩
  else if 0 < len then ⟨start.toNat, len.toNat⟩
  else ⟨(start + len).toNat, (-len).toNat⟩

section Handler

variable {ι : Type} [DecidableEq ι]

/-- A call that acts on the shared file as it does on the file of one process. What the stream has
read ahead is gone when another stream is opened, and has what the stream writes itself. -/
def onFile (machine : Machine) (process : ι) (request : Call) (shared : Shared ι) :
    Answer request × Shared ι :=
  let world := shared.view process
  let ahead := (shared.processes process).ahead
  let (reply, after) := posix machine.platform request world
  (reply, shared.turn process after (match request with
    | .fopen _ => ⟨0, []⟩
    | .fread _ => ⟨world.position, slice world.file world.position (machine.depth world.clock)⟩
    | .fwrite bytes => ahead.overlay world.position bytes
    | _ => ahead))

/-- The calls of each process. Closing a stream gives up the locks of its process. -/
def sharedPosix (machine : ι → Machine) (process : ι) : Handler Call Answer (Shared ι)
  | .fcntl .writeLock start len, shared =>
    if free : shared.locks.Free process (lockedArea start len) then
      let (reply, after) := onFile (machine process) process (.fcntl .writeLock start len) shared
      (reply, { after with
        locks := if reply.isNone then shared.locks.set process (lockedArea start len) free
          else shared.locks })
    else
      (some eagain,
        shared.turn process ((shared.view process).failed eagain) (shared.processes process).ahead)
  | .fcntl .unlock start len, shared =>
    let (reply, after) := onFile (machine process) process (.fcntl .unlock start len) shared
    (reply, { after with
      locks := if reply.isNone then shared.locks.clear process (lockedArea start len)
        else shared.locks })
  | .fclose stream, shared =>
    let (reply, after) := onFile (machine process) process (.fclose stream) shared
    (reply, { after with locks := shared.locks.drop process })
  | .fread size, shared =>
    let world := shared.view process
    let ahead := (shared.processes process).ahead
    if buffered : (machine process).kept world.clock = true ∧ ahead.Answers world.position size then
      (some ⟨ahead.part world.position size, Ahead.part_length buffered.2⟩,
        shared.turn process { world.flush.tick with position := world.position + size } ahead)
    else onFile (machine process) process (.fread size) shared
  | request, shared => onFile (machine process) process request shared

end Handler

/-! ## What one call does -/

/-- A call with the effect it has on the file of one process. -/
def Call.OnFile : Call → Prop
  | .fcntl .writeLock _ _ => False
  | .fread _ => False
  | _ => True

/-- A call that gives up locks of its process. -/
def Call.Releases : Call → Prop
  | .fcntl .unlock _ _ => True
  | .fclose _ => True
  | _ => False

section Steps

variable {ι : Type} [DecidableEq ι] {machine : ι → Machine} {process other : ι} {request : Call}
variable {shared : Shared ι}

/-- Only a creating opening makes the file shorter. -/
theorem posix_length {platform : Platform} {world : World} (kept : request ≠ .fopen true) :
    world.disk.length ≤ (posix platform request world).2.disk.length := by
  by_cases write : ∃ bytes, request = .fwrite bytes
  · obtain ⟨bytes, rfl⟩ := write
    exact (posix_fwrite_after bytes).longer
  have flushed : world.disk.length ≤ world.file.length := length_le_puts _ _
  rcases @FromPosition.posix_cases platform request world with sound | ⟨fault, broken⟩
  · rw [sound]
    cases request with
    | fopen create =>
      cases create with
      | false => exact flushed
      | true => exact absurd rfl kept
    | fwrite bytes => exact absurd ⟨bytes, rfl⟩ write
    | fclose => exact flushed
    | fseek | fread =>
      simp only [unfaulted]
      split_ifs <;> exact flushed
    | fcntl =>
      simp only [unfaulted]
      split_ifs <;> exact Nat.le_refl _
    | _ => exact Nat.le_refl _
  · rw [broken]
    cases request with
    | fwrite bytes => exact absurd ⟨bytes, rfl⟩ write
    | fclose | fseek | fread => exact world.disk_le_reached fault.lost
    | _ => exact Nat.le_refl _

/-- The reply and the world behind a call that acts on the file. -/
theorem sharedPosix_onFile (plain : request.OnFile) :
    ((sharedPosix machine process request shared).1,
      (sharedPosix machine process request shared).2.view process) =
        posix (machine process).platform request (shared.view process) := by
  cases request with
  | fcntl type start len =>
    cases type with
    | writeLock => exact plain.elim
    | unlock => exact Prod.ext rfl Shared.turn_view
  | fread size => exact plain.elim
  | _ => exact Prod.ext rfl Shared.turn_view

/-- Every call is a turn of its process, whose world goes on as it does alone, but for a lock that
is refused and a read that is answered from what the stream has. -/
theorem sharedPosix_turn : ∃ after ahead,
    (sharedPosix machine process request shared).2.file = after.disk ∧
    (sharedPosix machine process request shared).2.processes =
      Function.update shared.processes process ⟨after, ahead⟩ ∧
    (after = (posix (machine process).platform request (shared.view process)).2 ∨
      after = (shared.view process).failed eagain ∨
      ∃ position, after = { (shared.view process).flush.tick with position := position }) := by
  cases request with
  | fcntl type start len =>
    cases type with
    | writeLock =>
      rw [sharedPosix]
      split
      · exact ⟨_, _, rfl, rfl, .inl rfl⟩
      · exact ⟨_, _, rfl, rfl, .inr (.inl rfl)⟩
    | unlock => exact ⟨_, _, rfl, rfl, .inl rfl⟩
  | fread size =>
    rw [sharedPosix]
    dsimp only
    split
    · exact ⟨{ (shared.view process).flush.tick with position := _ }, _, rfl, rfl,
        .inr (.inr ⟨_, rfl⟩)⟩
    · exact ⟨_, _, rfl, rfl, .inl rfl⟩
  | _ => exact ⟨_, _, rfl, rfl, .inl rfl⟩

/-- A note changes nothing. -/
theorem sharedPosix_note {event : Event} :
    (sharedPosix machine process (.note event) shared).2.view process = shared.view process := by
  have alone := @sharedPosix_onFile ι _ machine process (.note event) shared trivial
  rw [posix_note] at alone
  exact congrArg Prod.snd alone

/-- No call touches another process. -/
theorem sharedPosix_other (different : other ≠ process) :
    (sharedPosix machine process request shared).2.processes other = shared.processes other := by
  obtain ⟨after, ahead, -, same, -⟩ := @sharedPosix_turn ι _ machine process request shared
  rw [same, Function.update_of_ne different]

/-- What holds of the disk and of the stream behind a turn holds of the file and of the process. -/
theorem sharedPosix_behind {holds : World → Prop}
    (alone : holds (posix (machine process).platform request (shared.view process)).2)
    (refused : holds ((shared.view process).failed eagain))
    (answered : ∀ position, holds { (shared.view process).flush.tick with position := position }) :
    holds ((sharedPosix machine process request shared).2.view process) := by
  obtain ⟨after, ahead, file, same, each⟩ := @sharedPosix_turn ι _ machine process request shared
  have view : (sharedPosix machine process request shared).2.view process = after := by
    rw [Shared.view, same, Function.update_self, file]
  rw [view]
  rcases each with rfl | rfl | ⟨position, rfl⟩
  · exact alone
  · exact refused
  · exact answered position

/-- Of a settled process, only writes and creating openings change the file, and it stays settled. -/
theorem sharedPosix_keeping (keeping : request.Keeping) (settled : shared.Settled process) :
    (sharedPosix machine process request shared).2.file = shared.file ∧
      (sharedPosix machine process request shared).2.Settled process := by
  have empty := @posix_keeping_held (machine process).platform (shared.view process) _ keeping settled
  have spared : Spared (machine process).platform (shared.view process) request :=
    spared_of_empty settled request
  refine @sharedPosix_behind ι _ machine process request shared
    (fun after => after.disk = shared.file ∧ after.held = []) ⟨?_, empty⟩ ⟨rfl, settled⟩
    fun _ => ⟨Shared.Settled.file settled, rfl⟩
  rw [← World.file_of_empty empty, posix_keeping keeping spared]
  exact Shared.Settled.file settled

/-- Only a creating opening makes the file shorter. -/
theorem sharedPosix_length (kept : request ≠ .fopen true) :
    shared.file.length ≤ (sharedPosix machine process request shared).2.file.length :=
  @sharedPosix_behind ι _ machine process request shared
    (fun after => shared.file.length ≤ after.disk.length)
    (@posix_length request (machine process).platform (shared.view process) kept) (Nat.le_refl _)
    fun _ => length_le_puts _ _

/-- An unbuffered stream passes on everything at once. -/
theorem posix_unbuffered {platform : Platform} {world : World} (unbuffered : world.unbuffered = true)
    (empty : world.held = []) : (posix platform request world).2.unbuffered = true ∧
      (posix platform request world).2.held = [] := by
  rcases @FromPosition.posix_cases platform request world with sound | ⟨fault, broken⟩
  · rw [sound]
    cases request with
    | fwrite bytes =>
      simp only [unfaulted]
      split_ifs
      · exact ⟨unbuffered, if_pos unbuffered⟩
      · exact ⟨unbuffered, empty⟩
    | fseek | fread | fcntl =>
      simp only [unfaulted]
      split_ifs <;> first | exact ⟨unbuffered, rfl⟩ | exact ⟨unbuffered, empty⟩
    | _ => first | exact ⟨unbuffered, rfl⟩ | exact ⟨unbuffered, empty⟩
  · rw [broken]
    cases request <;> first | exact ⟨unbuffered, rfl⟩ | exact ⟨unbuffered, empty⟩

/-- The stream of every process stays unbuffered. -/
theorem sharedPosix_unbuffered (unbuffered : ∀ process, shared.Unbuffered process) :
    (sharedPosix machine process request shared).2.Unbuffered other := by
  by_cases same : other = process
  · subst same
    obtain ⟨flag, settled⟩ := unbuffered other
    obtain ⟨flag', settled'⟩ := @sharedPosix_behind ι _ machine other request shared
      (fun after => after.unbuffered = true ∧ after.held = [])
      (@posix_unbuffered request (machine other).platform (shared.view other) flag settled)
      ⟨flag, settled⟩ fun _ => ⟨flag, rfl⟩
    exact ⟨flag', settled'⟩
  · have kept := @sharedPosix_other ι _ machine process other request shared same
    constructor
    · rw [kept]
      exact (unbuffered other).unbuffered
    · rw [Shared.Settled, kept]
      exact (unbuffered other).settled

/-- No call gives up a lock of another process, and few give up one of their own. -/
theorem sharedPosix_holds (kept : other ≠ process ∨ ¬ request.Releases) {area : Extent}
    (holds : shared.locks.Holds other area) :
    (sharedPosix machine process request shared).2.locks.Holds other area := by
  cases request with
  | fcntl type start len =>
    cases type with
    | writeLock =>
      rw [sharedPosix]
      split
      · rename_i free
        dsimp only
        split
        · exact holds.set free
        · exact holds
      · exact holds
    | unlock =>
      have different := kept.resolve_right (not_not_intro trivial)
      rw [sharedPosix]
      dsimp only
      split
      · exact holds.clear different
      · exact holds
  | fclose stream => exact holds.drop (kept.resolve_right (not_not_intro trivial))
  | fread size =>
    rw [sharedPosix]
    dsimp only
    split
    · exact holds
    · exact holds
  | _ => exact holds

/-- A release that fails keeps the locks. -/
theorem sharedPosix_unreleased {start len : OffT}
    (failed : (sharedPosix machine process (.fcntl .unlock start len) shared).1 ≠ none) :
    (sharedPosix machine process (.fcntl .unlock start len) shared).2.locks = shared.locks := by
  rw [sharedPosix] at failed ⊢
  dsimp only at failed ⊢
  rw [if_neg (fun none => failed (Option.isNone_iff_eq_none.mp none))]

/-- A lock that is not refused is held. -/
theorem sharedPosix_granted {start len : OffT}
    (granted : (sharedPosix machine process (.fcntl .writeLock start len) shared).1 = none) :
    (sharedPosix machine process (.fcntl .writeLock start len) shared).2.locks.Holds process
      (lockedArea start len) := by
  rw [sharedPosix] at granted ⊢
  split at granted
  · rename_i free
    rw [dif_pos free]
    dsimp only at granted ⊢
    rw [granted, if_pos Option.isNone_none]
    exact LockTable.holds_set free
  · exact absurd granted (Option.some_ne_none _)

/-- A read where the buffer holds nothing else than the file delivers the bytes of the file. -/
theorem sharedPosix_current {size : Nat} (current : shared.Current (machine process) process size)
    {bytes : { bytes : List UInt8 // bytes.length = size }}
    (read : (sharedPosix machine process (.fread size) shared).1 = some bytes) :
    bytes.val = slice (shared.view process).file (shared.view process).position size := by
  rw [sharedPosix] at read
  dsimp only at read
  split at read
  · rename_i buffered
    rw [← Option.some.inj read]
    exact current buffered
  · exact ((posix_fread_after size).read bytes read).1

end Steps

end Recnodb
