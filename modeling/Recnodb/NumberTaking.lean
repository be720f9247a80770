import Mathlib.Data.Fintype.Basic
import Recnodb.Interaction.Threads
import Recnodb.NextOffset
import Recnodb.SharedFile

/-!
# Record numbers of several processes

Processes that open one file and take record numbers of one table, in any interleaving of
their single calls to the platform. The header is locked before it is read, so of all
processes at most one stands between the lock and its release, and the number it computes
lies behind all numbers given before if the header it reads is that of the file. A stream
that still buffers an older header makes its process compute a number that was given. The
header with the new number is in the file once the stream is sent back, under the lock.
-/

namespace Recnodb

open Interaction Octets Program Extents

/-- A user callback that adds one to the last record number and asks for the write-back. Besides,
it may read and write through the stream. -/
def Counts (user : FlatrecsUseNewRecord) : Prop :=
  ∀ handle htable offset, (user handle htable offset).Only Call.Direct ∧
    (user handle htable offset).Answers
      fun answer => answer = (true, htable.numbered (htable.thead.lastRecno + 1))

/-- A process that takes numbers. It has the file open, or opens it as one that exists. -/
structure Worker where
  handle : Option Rndh
  flags : UInt32
  chunkSize : UInt32
  recSize : UInt32
  fuel : Nat → Nat
  user : FlatrecsUseNewRecord
  existing : rndCreate flags = false
  counts : Counts user

/-- What a call of a worker returned: the handle behind it, and the code. -/
inductive Returned where
  | opened (handle : Rndh) (rval : RndError)
  | called (number : Nat) (handle : Rndh) (rval : RndError)

namespace Worker

variable (worker : Worker) (tableHead : OffT)

/-- The opening of the file by a worker. -/
def openFile : Prog Returned := do
  let (rval, handle) ← blocksFileOpen worker.flags worker.chunkSize worker.recSize
  pure (.opened handle rval)

/-- The call of a worker that takes a number. -/
def takeNext (number : Nat) (handle : Rndh) : Prog Returned := do
  let rval ← flatrecsGetNextOffset (worker.fuel number) handle tableHead worker.user
  pure (.called number handle rval)

/-- The first call of a process. -/
def first : Prog Returned :=
  match worker.handle with
  | none => worker.openFile
  | some handle => worker.takeNext tableHead 0 handle

/-- A process whose opening failed opens again, and otherwise takes the next number. -/
def again : Returned → Prog Returned
  | .opened handle rval =>
    if rval = .success then worker.takeNext tableHead 0 handle else worker.openFile
  | .called number handle _ => worker.takeNext tableHead (number + 1) handle

end Worker

/-- Where a process stands: without the lock, with the lock and a header in the file that counts all
numbers given, with the number behind the header it read, with that number given, with the header
changed but not written back, with the changed header taken by the stream, or with a call that can
only fail. -/
inductive Taking where
  | outside
  | holding
  | read (number : UInt32)
  | numbered (number : UInt32)
  | answered (number : UInt32)
  | written (number : UInt32)
  | failed (locked : Bool)
deriving DecidableEq

namespace Taking

/-- A process that has the lock. -/
def locked : Taking → Bool
  | .outside => false
  | .failed locked => locked
  | _ => true

/-- A process whose call may still succeed. -/
def live : Taking → Bool
  | .failed _ => false
  | _ => true

/-- The number a process is using. -/
def inUse : Taking → Option UInt32
  | .numbered number => some number
  | .answered number => some number
  | .written number => some number
  | _ => none

/-- Where a process stands behind a request to release the lock. Where the search failed, the call
succeeds with the release, and fails without it. -/
def unlocked (phase : Taking) (released : Bool) : Taking :=
  match phase, released with
  | .failed _, true => .failed false
  | _, true => .outside
  | .numbered _, false => .failed true
  | phase, false => phase

/-- Where a process stands when its call has returned. -/
def returned : Taking → Taking
  | .failed true => .holding
  | .failed false => .outside
  | phase => phase

/-- A process that uses a number has the lock. -/
theorem locked_of_inUse {phase : Taking} {number : UInt32} (used : phase.inUse = some number) :
    phase.locked = true := by
  cases phase <;> first | rfl | exact nomatch used

end Taking

/-- The last record number in a table header of a file. -/
def lastRecno (tableHead : OffT) (file : List UInt8) : UInt32 :=
  (htableAt file tableHead.toNat).thead.lastRecno

/-- A header that counts the numbers given up to this one, or up to the one in front of it. -/
def Unharmed (tableHead : OffT) (number : UInt32) (file : List UInt8) : Prop :=
  lastRecno tableHead file = number ∨ lastRecno tableHead file + 1 = number

instance (tableHead : OffT) (number : UInt32) (file : List UInt8) :
    Decidable (Unharmed tableHead number file) :=
  inferInstanceAs (Decidable (_ ∨ _))

section Acts

variable {ι : Type}

/-- Where a process stands behind one of its deeds. -/
def Taking.advance (phase : Taking) (deed : Deed Call Answer Returned (Shared ι)) : Taking :=
  match deed with
  | .call ⟨_, .fcntl .writeLock _ _, reply⟩ => if Option.isNone reply then .holding else phase
  | .call ⟨_, .fcntl .unlock _ _, reply⟩ => phase.unlocked (Option.isNone reply)
  | .call ⟨_, .fread _, reply⟩ =>
    match phase, reply with
    | .holding, some bytes => .read (recnoBehind bytes.val)
    | phase, _ => phase
  | .call ⟨_, .note (.numbered number), _⟩ => .numbered number
  | .call ⟨_, .note (.answered _), _⟩ =>
    match phase with
    | .numbered number => .answered number
    | phase => phase
  | .call ⟨_, .fseek _ _, reply⟩ =>
    match phase with
    | .answered number => if (reply : Bool) then .answered number else .failed true
    | .written _ => .holding
    | phase => phase
  | .call ⟨_, .fwrite _, reply⟩ =>
    match phase with
    | .answered number => if (reply : Bool) then .written number else .failed true
    | phase => phase
  | .deliver _ => phase.returned
  | _ => phase

/-- What is assumed of the calls of a process: the header it reads under the lock is that of the
file; the number behind it is no wrapped one; the lock is not released in front of the callback;
where the header is not written back, the one in the file counts as many numbers as before; and
where the stream is not sent back, the header it has taken is not lost. -/
def Taking.fine (machine : Machine) (tableHead : OffT) (process : ι) (phase : Taking)
    (moment : Moment Call Answer (Shared ι)) : Bool :=
  match moment with
  | ⟨before, .fread size, _⟩ =>
    match phase with
    | .holding => decide (before.Current machine process size)
    | _ => true
  | ⟨_, .note (.numbered number), _⟩ => number != 0
  | ⟨before, .fcntl .unlock _ _, reply⟩ =>
    match phase.inUse with
    | some number => Option.isSome reply && decide (Unharmed tableHead number before.file)
    | none => true
  | ⟨before, .fseek offset whence, reply⟩ =>
    let (_, after) := posix machine.platform (.fseek offset whence) (before.view process)
    match phase with
    | .answered number => reply || decide (Unharmed tableHead number after.disk)
    | .written number => reply || decide (lastRecno tableHead after.disk = number)
    | _ => true
  | ⟨before, .fwrite bytes, reply⟩ =>
    match phase with
    | .answered number =>
      let (_, after) := posix machine.platform (.fwrite bytes) (before.view process)
      reply || decide (Unharmed tableHead number after.disk)
    | _ => true
  | _ => true

/-- The lock on a table header. -/
abbrev headerLock (tableHead : OffT) : Extent := lockedArea tableHead sizeofHeadTable

/-- What a process may do where it stands: it has the lock wherever it should, and changes the file
under the lock only, while it uses a number. It takes a number behind the header in the file, and
when it is done with it, the header in the file counts it, or the call fails. -/
structure Taking.Moves (tableHead : OffT) (process : ι) (phase : Taking)
    (moment : Moment Call Answer (Shared ι)) (after : Shared ι) : Prop where
  locked : (phase.advance (.call moment)).locked = true →
    after.locks.Holds process (headerLock tableHead)
  file : after.file = moment.before.file ∨
    phase.inUse ≠ none ∧ moment.before.locks.Holds process (headerLock tableHead)
  reads : ∀ number, phase.advance (.call moment) = .read number →
    phase = .read number ∨ number = lastRecno tableHead after.file + 1
  numbers : ∀ number, moment.request = .note (.numbered number) → phase = .read number ∧ number ≠ 0
  uses : ∀ number, (phase.advance (.call moment)).inUse = some number →
    moment.request = .note (.numbered number) ∨ phase.inUse = some number
  counts : ∀ number, phase.inUse = some number → (phase.advance (.call moment)).inUse = some number ∨
    (phase.advance (.call moment)).inUse = none ∧ (lastRecno tableHead after.file = number ∨
      (phase.advance (.call moment)).live = false ∧ lastRecno tableHead after.file + 1 = number)
  fails : phase.live = false → (phase.advance (.call moment)).live = false

/-- Besides, it leaves the other processes and their locks. -/
structure Taking.Allows (tableHead : OffT) (process : ι) (phase : Taking)
    (moment : Moment Call Answer (Shared ι)) (after : Shared ι) : Prop
    extends Taking.Moves tableHead process phase moment after where
  processes : ∀ other, other ≠ process → after.processes other = moment.before.processes other
  locks : ∀ other, other ≠ process → ∀ area, moment.before.locks.Holds other area →
    after.locks.Holds other area

/-- What a process relies on: its stream and its locks, and with the lock of the header, the file. -/
structure Taking.Relies (tableHead : OffT) (process : ι) (before now : Shared ι) : Prop where
  stream : now.processes process = before.processes process
  locks : ∀ area, before.locks.Holds process area → now.locks.Holds process area
  file : before.locks.Holds process (headerLock tableHead) → now.file = before.file

/-- The discipline of taking numbers: what a phase allows, and what it may rely on. -/
def taking (machine : ι → Machine) (tableHead : OffT) (process : ι) :
    Discipline Call Answer Returned (Shared ι) Taking where
  rely := Taking.Relies tableHead process
  fine phase moment := phase.fine (machine process) tableHead process moment = true
  allowed := Taking.Allows tableHead process
  advance := Taking.advance

instance (machine : ι → Machine) (tableHead : OffT) (process : ι) (phase : Taking)
    (moment : Moment Call Answer (Shared ι)) :
    Decidable ((taking machine tableHead process).fine phase moment) :=
  inferInstanceAs (Decidable (phase.fine (machine process) tableHead process moment = true))

end Acts

/-! ## Single calls -/

/-- A call that reads and writes nothing, asks for no lock, gives up none, is no event of a number
and does not prepare the write-back. -/
def Call.Calm : Call → Taking → Prop
  | .fopen create, _ => create = false
  | .fclose _, _ => False
  | .fread _, _ => False
  | .fwrite _, _ => False
  | .fcntl _ _ _, _ => False
  | .fseek _ _, .answered _ => False
  | .fseek _ _, .written _ => False
  | .note (.numbered _), _ => False
  | .note (.answered _), _ => False
  | _, _ => True

section Rules

variable {ι : Type} {tableHead : OffT} {process : ι} {shared : Shared ι} {phase : Taking}

/-- A process has the lock where it should, and is settled where it uses no number. -/
structure Stands (tableHead : OffT) (process : ι) (phase : Taking) (shared : Shared ι) : Prop where
  holds : phase.locked = true → shared.locks.Holds process (headerLock tableHead)
  settled : phase.inUse = none → shared.Settled process

/-- The other processes leave the stream of this one settled. -/
theorem Taking.Relies.settled {now : Shared ι} (relied : Taking.Relies tableHead process shared now)
    (settled : shared.Settled process) : now.Settled process := by
  rw [Shared.Settled, relied.stream]
  exact settled

/-- The other processes leave the position of this one. -/
theorem Taking.Relies.position {now : Shared ι}
    (relied : Taking.Relies tableHead process shared now) :
    (now.view process).position = (shared.view process).position := by
  rw [Shared.view, relied.stream]
  rfl

/-- The other processes leave what the phase of this one says. -/
theorem Taking.Relies.stands {now : Shared ι} (relied : Taking.Relies tableHead process shared now)
    (stands : Stands tableHead process phase shared) : Stands tableHead process phase now :=
  ⟨fun locked => relied.locks _ (stands.holds locked), fun unused =>
    relied.settled (stands.settled unused)⟩

/-- A call that leaves the phase may be made if it leaves the file, or if the process is using a
number. -/
theorem Taking.moves_same {moment : Moment Call Answer (Shared ι)} {after : Shared ι}
    (same : phase.advance (.call moment) = phase) (stands : Stands tableHead process phase after)
    (file : after.file = moment.before.file ∨
      phase.inUse ≠ none ∧ moment.before.locks.Holds process (headerLock tableHead))
    (plain : ∀ number, moment.request ≠ .note (.numbered number)) :
    Taking.Moves tableHead process phase moment after where
  locked here := stands.holds (same ▸ here)
  file := file
  reads _ read := .inl (same.symm.trans read)
  numbers number passed := absurd passed (plain number)
  uses _ used := .inr (same ▸ used)
  counts _ used := .inl (same.symm ▸ used)
  fails dead := same.symm ▸ dead

/-- A call with which a process is done with its number: the header counts it, or the call fails
and the header counts it or the one in front of it. -/
theorem Taking.moves_done {number : UInt32} {moment : Moment Call Answer (Shared ι)}
    {after : Shared ι} (used : phase.inUse = some number) (alive : phase.live = true)
    (before : moment.before.locks.Holds process (headerLock tableHead))
    (held : after.locks.Holds process (headerLock tableHead))
    (plain : ∀ number, moment.request ≠ .note (.numbered number))
    (done : phase.advance (.call moment) = .holding ∧ lastRecno tableHead after.file = number ∨
      phase.advance (.call moment) = .failed true ∧ Unharmed tableHead number after.file) :
    Taking.Moves tableHead process phase moment after := by
  have numbers (number' : UInt32) (passed : moment.request = .note (.numbered number')) :
      phase = .read number' ∧ number' ≠ 0 := absurd passed (plain number')
  have file : phase.inUse ≠ none ∧ moment.before.locks.Holds process (headerLock tableHead) :=
    ⟨fun none => Option.some_ne_none number (used.symm.trans none), before⟩
  have fails (dead : phase.live = false) : (phase.advance (.call moment)).live = false :=
    absurd (alive.symm.trans dead) Bool.noConfusion
  rcases done with ⟨next, counted⟩ | ⟨next, unharmed⟩
  · refine ⟨fun _ => held, .inr file, ?_, numbers, ?_, ?_, fails⟩
    · exact fun _ read => Taking.noConfusion (next.symm.trans read)
    · exact fun _ used => nomatch (congrArg Taking.inUse next).symm.trans used
    · intro other same
      rw [next]
      exact .inr ⟨rfl, .inl (counted.trans (Option.some.inj (used.symm.trans same)))⟩
  · refine ⟨fun _ => held, .inr file, ?_, numbers, ?_, ?_, fails⟩
    · exact fun _ read => Taking.noConfusion (next.symm.trans read)
    · exact fun _ used => nomatch (congrArg Taking.inUse next).symm.trans used
    · intro other same
      obtain rfl := Option.some.inj (used.symm.trans same)
      rw [next]
      exact .inr ⟨rfl, unharmed.imp_right fun before => ⟨rfl, before⟩⟩

/-- Where a request to release the lock may lead. -/
theorem Taking.moves_unlocked {machine : Machine} {start len : OffT} {now after : Shared ι}
    {reply : Option Int}
    (fine : phase.fine machine tableHead process ⟨now, .fcntl .unlock start len, reply⟩ = true)
    (stands : Stands tableHead process (phase.unlocked reply.isNone) after)
    (file : after.file = now.file) :
    Taking.Moves tableHead process phase ⟨now, .fcntl .unlock start len, reply⟩ after where
  locked := stands.holds
  file := .inl file
  reads number read := by
    change phase.unlocked reply.isNone = .read number at read
    cases phase <;> cases reply <;> first | exact .inl read | exact Taking.noConfusion read
  numbers _ passed := Call.noConfusion passed
  uses number used := by
    change (phase.unlocked reply.isNone).inUse = some number at used
    cases phase <;> cases reply <;> first | exact .inr used | exact nomatch used
  counts number used := by
    change (phase.unlocked reply.isNone).inUse = some number ∨
      (phase.unlocked reply.isNone).inUse = none ∧ (lastRecno tableHead after.file = number ∨
        (phase.unlocked reply.isNone).live = false ∧ lastRecno tableHead after.file + 1 = number)
    rw [Taking.fine, used] at fine
    obtain ⟨refused, unharmed⟩ := Bool.and_eq_true_iff.mp fine
    cases reply with
    | none => exact nomatch refused
    | some errno =>
      cases phase with
      | numbered used' =>
        rw [file]
        exact .inr ⟨rfl, (of_decide_eq_true unharmed).imp_right fun before => ⟨rfl, before⟩⟩
      | answered used' => exact .inl used
      | written used' => exact .inl used
      | _ => exact nomatch used
  fails dead := by
    change (phase.unlocked reply.isNone).live = false
    cases phase <;> cases reply <;> first | rfl | exact nomatch dead

variable [DecidableEq ι] {machine : ι → Machine} {β : Type} {post : β → Taking → Shared ι → Prop}

/-- What a process does, it leaves the other processes and their locks. -/
theorem Taking.Moves.allows {request : Call} {now : Shared ι} {reply : Answer request}
    (moves : Taking.Moves tableHead process phase ⟨now, request, reply⟩
      (sharedPosix machine process request now).2) :
    Taking.Allows tableHead process phase ⟨now, request, reply⟩
      (sharedPosix machine process request now).2 where
  toMoves := moves
  processes _ different := sharedPosix_other different
  locks _ different _ holds := sharedPosix_holds (.inl different) holds

/-- The rule for a calm call, by its effect on the world of the process. -/
theorem taking_calm {request : Call} {rest : Answer request → Prog β} (calm : request.Calm phase)
    (stands : Stands tableHead process phase shared)
    (each : ∀ (now after : Shared ι) (reply : Answer request),
      (now.view process).position = (shared.view process).position →
      posix (machine process).platform request (now.view process) = (reply, after.view process) →
      Stands tableHead process phase after →
      Keeps (sharedPosix machine process) (taking machine tableHead process) (rest reply) phase after
        post) :
    Keeps (sharedPosix machine process) (taking machine tableHead process) (issue request >>= rest)
      phase shared post := by
  apply Keeps.call
  intro now relied _
  have standing := Taking.Relies.stands relied stands
  have plain : request.OnFile := by
    cases request with
    | fcntl type start len => exact calm.elim
    | fread size => exact calm.elim
    | _ => trivial
  have keeping : request.Keeping := by
    cases request with
    | fopen create => exact calm
    | fwrite bytes => exact calm.elim
    | _ => trivial
  have keptLocks : ¬ request.Releases := by
    cases request with
    | fcntl type start len => exact calm.elim
    | fclose stream => exact calm.elim
    | _ => exact id
  have same : phase.advance (.call ⟨now, request, (sharedPosix machine process request now).1⟩) =
      phase := by
    cases request with
    | note event => cases event <;> first | exact calm.elim | rfl
    | fseek offset whence =>
      cases phase with
      | answered number => exact calm.elim
      | written number => exact calm.elim
      | _ => rfl
    | _ => first | exact calm.elim | rfl
  have standing' : Stands tableHead process phase (sharedPosix machine process request now).2 :=
    ⟨fun locked => sharedPosix_holds (.inr keptLocks) (standing.holds locked),
      fun unused => (sharedPosix_keeping keeping (standing.settled unused)).2⟩
  constructor
  · apply Taking.Moves.allows
    apply Taking.moves_same
    · exact same
    · exact standing'
    · cases used : phase.inUse with
      | none => exact .inl (sharedPosix_keeping keeping (standing.settled used)).1
      | some number =>
        exact .inr ⟨Option.some_ne_none number, standing.holds (Taking.locked_of_inUse used)⟩
    · rintro number rfl
      exact calm
  · have rested := each now _ _ relied.position (sharedPosix_onFile plain).symm standing'
    rw [← same] at rested
    exact rested

/-- A lock is asked for where no number is in use. It is granted or the process stays where it is. -/
theorem taking_lock {rest : Option Int → Prog β} (unused : phase.inUse = none)
    (alive : phase.live = true) (stands : Stands tableHead process phase shared)
    (granted : ∀ after, Stands tableHead process .holding after →
      Keeps (sharedPosix machine process) (taking machine tableHead process) (rest none) .holding
        after post)
    (refused : ∀ errno after, Stands tableHead process phase after →
      Keeps (sharedPosix machine process) (taking machine tableHead process) (rest (some errno)) phase
        after post) :
    Keeps (sharedPosix machine process) (taking machine tableHead process)
      (fcntl .writeLock tableHead sizeofHeadTable >>= rest) phase shared post := by
  apply Keeps.call
  intro now relied _
  have standing := Taking.Relies.stands relied stands
  obtain ⟨file, settled⟩ := @sharedPosix_keeping ι _ machine process
    (.fcntl .writeLock tableHead sizeofHeadTable) now trivial (standing.settled unused)
  cases answer : (sharedPosix machine process
      (.fcntl .writeLock tableHead sizeofHeadTable) now).1 with
  | none =>
    have held := sharedPosix_granted answer
    refine ⟨Taking.Moves.allows ⟨fun _ => held, .inl file, ?_, ?_, ?_, ?_, ?_⟩,
      granted _ ⟨fun _ => held, fun _ => settled⟩⟩
    · exact fun _ read => Taking.noConfusion read
    · exact fun _ passed => Call.noConfusion passed
    · exact fun _ used => nomatch used
    · exact fun number used => absurd (used.symm.trans unused) (Option.some_ne_none number)
    · exact fun dead => absurd (alive.symm.trans dead) Bool.noConfusion
  | some errno =>
    have standing' : Stands tableHead process phase (sharedPosix machine process
        (.fcntl .writeLock tableHead sizeofHeadTable) now).2 :=
      ⟨fun locked => sharedPosix_holds (.inr id) (standing.holds locked), fun _ => settled⟩
    refine ⟨Taking.Moves.allows (Taking.moves_same rfl standing' (.inl file) ?_),
      refused errno _ standing'⟩
    exact fun _ passed => Call.noConfusion passed

/-- The lock is released, or stays. -/
theorem taking_unlock {rest : Option Int → Prog β} (stands : Stands tableHead process phase shared)
    (passed : shared.Settled process)
    (each : ∀ now after reply,
      phase.fine (machine process) tableHead process
        ⟨now, .fcntl .unlock tableHead sizeofHeadTable, reply⟩ = true →
      Stands tableHead process (phase.unlocked (Option.isNone reply)) after →
      Keeps (sharedPosix machine process) (taking machine tableHead process) (rest reply)
        (phase.unlocked (Option.isNone reply)) after post) :
    Keeps (sharedPosix machine process) (taking machine tableHead process)
      (fcntl .unlock tableHead sizeofHeadTable >>= rest) phase shared post := by
  apply Keeps.call
  intro now relied fine
  have standing := Taking.Relies.stands relied stands
  obtain ⟨file, settled⟩ := @sharedPosix_keeping ι _ machine process
    (.fcntl .unlock tableHead sizeofHeadTable) now trivial (Taking.Relies.settled relied passed)
  have standing' : Stands tableHead process
      (phase.unlocked (Option.isNone
        (sharedPosix machine process (.fcntl .unlock tableHead sizeofHeadTable) now).1))
      (sharedPosix machine process (.fcntl .unlock tableHead sizeofHeadTable) now).2 := by
    refine ⟨fun locked => ?_, fun _ => settled⟩
    cases answer : (sharedPosix machine process
        (.fcntl .unlock tableHead sizeofHeadTable) now).1 with
    | none =>
      rw [answer] at locked
      cases phase <;> exact nomatch locked
    | some errno =>
      rw [sharedPosix_unreleased (answer.trans_ne (Option.some_ne_none errno))]
      rw [answer] at locked
      apply standing.holds
      cases phase <;> first | rfl | exact locked
  exact ⟨(Taking.moves_unlocked fine standing' file).allows, each now _ _ fine standing'⟩

/-- The header is read under the lock, and from then on the number behind it is known. -/
theorem taking_read {size : Nat}
    {rest : Option { bytes : List UInt8 // bytes.length = size } → Prog β}
    (whole : size = sizeofHeadTable) (stands : Stands tableHead process .holding shared)
    (there : ((shared.view process).position : OffT) = tableHead)
    (read : ∀ (bytes : { bytes : List UInt8 // bytes.length = size }) (after : Shared ι),
      Stands tableHead process (.read (recnoBehind bytes.val)) after →
      Keeps (sharedPosix machine process) (taking machine tableHead process) (rest (some bytes))
        (.read (recnoBehind bytes.val)) after post)
    (lost : ∀ after, Stands tableHead process .holding after →
      Keeps (sharedPosix machine process) (taking machine tableHead process) (rest none) .holding
        after post) :
    Keeps (sharedPosix machine process) (taking machine tableHead process) (fread size >>= rest)
      .holding shared post := by
  apply Keeps.call
  intro now relied current
  have standing := Taking.Relies.stands relied stands
  have held : (sharedPosix machine process (.fread size) now).2.locks.Holds process
      (headerLock tableHead) := sharedPosix_holds (.inr id) (standing.holds rfl)
  obtain ⟨file, settled⟩ :=
    @sharedPosix_keeping ι _ machine process (.fread size) now trivial (standing.settled rfl)
  cases answer : (sharedPosix machine process (.fread size) now).1 with
  | none =>
    refine ⟨Taking.Moves.allows
      (Taking.moves_same rfl ⟨fun _ => held, fun _ => settled⟩ (.inl file) ?_),
      lost _ ⟨fun _ => held, fun _ => settled⟩⟩
    exact fun _ passed => Call.noConfusion passed
  | some bytes =>
    have place : (now.view process).position = tableHead.toNat := by
      rw [Taking.Relies.position relied, ← there]
      rfl
    have behind : recnoBehind bytes.val = lastRecno tableHead now.file + 1 := by
      rw [sharedPosix_current (of_decide_eq_true current) answer, (standing.settled rfl).file, place,
        whole]
      rfl
    refine ⟨Taking.Moves.allows ⟨fun _ => held, .inl file, ?_, ?_, ?_, ?_, ?_⟩,
      read bytes _ ⟨fun _ => held, fun _ => settled⟩⟩
    · intro number same
      rw [← Taking.read.inj same, file]
      exact .inr behind
    · exact fun _ passed => Call.noConfusion passed
    · exact fun _ used => nomatch used
    · exact fun _ used => nomatch used
    · exact fun dead => nomatch dead

/-- A note changes neither the file nor the locks. -/
theorem taking_note {event : Event} {rest : Unit → Prog β}
    (stands : Stands tableHead process phase shared)
    (moves : ∀ now after : Shared ι, after.file = now.file →
      phase.fine (machine process) tableHead process ⟨now, .note event, ()⟩ = true →
      (phase.locked = true → after.locks.Holds process (headerLock tableHead)) →
      Taking.Moves tableHead process phase ⟨now, .note event, ()⟩ after)
    (each : ∀ now after : Shared ι, (phase.locked = true →
      after.locks.Holds process (headerLock tableHead)) →
      Keeps (sharedPosix machine process) (taking machine tableHead process) (rest ())
        (phase.advance (.call ⟨now, .note event, ()⟩)) after post) :
    Keeps (sharedPosix machine process) (taking machine tableHead process) (note event >>= rest) phase
      shared post := by
  apply Keeps.call
  intro now relied fine
  have standing := Taking.Relies.stands relied stands
  have held : phase.locked = true → (sharedPosix machine process (.note event) now).2.locks.Holds
      process (headerLock tableHead) := fun locked =>
        sharedPosix_holds (.inr id) (standing.holds locked)
  have same := @sharedPosix_note ι _ machine process now event
  exact ⟨(moves now _ (congrArg World.disk same) fine held).allows, each now _ held⟩

/-- The number behind the header is given. -/
theorem taking_numbered {number : UInt32} {rest : Unit → Prog β}
    (stands : Stands tableHead process (.read number) shared)
    (each : ∀ after, Stands tableHead process (.numbered number) after →
      Keeps (sharedPosix machine process) (taking machine tableHead process) (rest ())
        (.numbered number) after post) :
    Keeps (sharedPosix machine process) (taking machine tableHead process)
      (note (.numbered number) >>= rest) (.read number) shared post := by
  apply taking_note stands
  · intro now after file fine held
    refine ⟨fun _ => held rfl, .inl file, ?_, ?_, ?_, ?_, ?_⟩
    · exact fun _ read => Taking.noConfusion read
    · rintro other ⟨⟩
      exact ⟨rfl, bne_iff_ne.mp fine⟩
    · rintro other ⟨⟩
      exact .inl rfl
    · exact fun _ used => nomatch used
    · exact fun dead => nomatch dead
  · exact fun now after held => each after ⟨fun _ => held rfl, nofun⟩

/-- The callback returned. -/
theorem taking_answered {number : UInt32} {changed : Bool} {rest : Unit → Prog β}
    (stands : Stands tableHead process (.numbered number) shared)
    (each : ∀ after, Stands tableHead process (.answered number) after →
      Keeps (sharedPosix machine process) (taking machine tableHead process) (rest ())
        (.answered number) after post) :
    Keeps (sharedPosix machine process) (taking machine tableHead process)
      (note (.answered changed) >>= rest) (.numbered number) shared post := by
  apply taking_note stands
  · intro now after file fine held
    refine ⟨fun _ => held rfl, .inl file, ?_, ?_, ?_, ?_, ?_⟩
    · exact fun _ read => Taking.noConfusion read
    · exact fun _ passed => Event.noConfusion (Call.note.inj passed)
    · exact fun _ used => .inr used
    · exact fun _ used => .inl used
    · exact fun dead => nomatch dead
  · exact fun now after held => each after ⟨fun _ => held rfl, nofun⟩

/-- Behind a seek a process is settled. -/
theorem settled_fseek {offset : OffT} {whence : Whence} :
    (sharedPosix machine process (.fseek offset whence) shared).2.Settled process := by
  have alone := @sharedPosix_onFile ι _ machine process (.fseek offset whence) shared trivial
  have moved := @posix_fseek_after (machine process).platform (shared.view process) offset whence
  rw [← alone] at moved
  exact moved.drained.held

/-- The position is set for the write-back, or the call fails with the header as it is. -/
theorem taking_seekBack {number : UInt32} {rest : Bool → Prog β}
    (stands : Stands tableHead process (.answered number) shared)
    (found : ∀ after, Stands tableHead process (.answered number) after → after.Settled process →
      ((after.view process).position : OffT) = tableHead →
      Keeps (sharedPosix machine process) (taking machine tableHead process) (rest true)
        (.answered number) after post)
    (lost : ∀ after, Stands tableHead process (.failed true) after →
      Keeps (sharedPosix machine process) (taking machine tableHead process) (rest false)
        (.failed true) after post) :
    Keeps (sharedPosix machine process) (taking machine tableHead process)
      (fseek tableHead .seekSet >>= rest) (.answered number) shared post := by
  apply Keeps.call
  intro now relied fine
  have before := (Taking.Relies.stands relied stands).holds rfl
  have held : (sharedPosix machine process (.fseek tableHead .seekSet) now).2.locks.Holds process
      (headerLock tableHead) := sharedPosix_holds (.inr id) before
  have settled := @settled_fseek ι process now _ machine tableHead .seekSet
  cases answer : (sharedPosix machine process (.fseek tableHead .seekSet) now).1 with
  | true =>
    have moved := @posix_fseek_after (machine process).platform (now.view process) tableHead .seekSet
    rw [← @sharedPosix_onFile ι _ machine process (.fseek tableHead .seekSet) now trivial] at moved
    refine ⟨Taking.Moves.allows
      (Taking.moves_same rfl ⟨fun _ => held, nofun⟩ (.inr ⟨nofun, before⟩) ?_),
      found _ ⟨fun _ => held, nofun⟩ settled (moved.found answer)⟩
    exact fun _ passed => Call.noConfusion passed
  | false =>
    have unharmed : Unharmed tableHead number
        (sharedPosix machine process (.fseek tableHead .seekSet) now).2.file := by
      rw [answer] at fine
      exact of_decide_eq_true fine
    refine ⟨Taking.Moves.allows (Taking.moves_done rfl rfl before held ?_ (.inr ⟨rfl, unharmed⟩)),
      lost _ ⟨fun _ => held, fun _ => settled⟩⟩
    exact fun _ passed => Call.noConfusion passed

/-- The stream takes the header, or the call fails. -/
theorem taking_write {number : UInt32} {bytes : List UInt8} {rest : Bool → Prog β}
    (stands : Stands tableHead process (.answered number) shared) (passed : shared.Settled process)
    (there : ((shared.view process).position : OffT) = tableHead)
    (counted : ∀ file, lastRecno tableHead (patch file tableHead.toNat bytes) = number)
    (whole : ∀ after, Stands tableHead process (.written number) after →
      lastRecno tableHead (after.view process).file = number →
      Keeps (sharedPosix machine process) (taking machine tableHead process) (rest true)
        (.written number) after post)
    (torn : ∀ after, Stands tableHead process (.failed true) after →
      Keeps (sharedPosix machine process) (taking machine tableHead process) (rest false)
        (.failed true) after post) :
    Keeps (sharedPosix machine process) (taking machine tableHead process) (fwrite bytes >>= rest)
      (.answered number) shared post := by
  apply Keeps.call
  intro now relied fine
  have before := (Taking.Relies.stands relied stands).holds rfl
  have settled := Taking.Relies.settled relied passed
  have held : (sharedPosix machine process (.fwrite bytes) now).2.locks.Holds process
      (headerLock tableHead) := sharedPosix_holds (.inr id) before
  have place : (now.view process).position = tableHead.toNat := by
    rw [Taking.Relies.position relied, ← there]
    rfl
  have wrote := @posix_fwrite_after (machine process).platform (now.view process) bytes
  rw [← @sharedPosix_onFile ι _ machine process (.fwrite bytes) now trivial] at wrote
  cases answer : (sharedPosix machine process (.fwrite bytes) now).1 with
  | true =>
    have file := (wrote.whole answer).1
    rw [place] at file
    refine ⟨Taking.Moves.allows ⟨fun _ => held, .inr ⟨nofun, before⟩, ?_, ?_, ?_, ?_, nofun⟩,
      whole _ ⟨fun _ => held, nofun⟩ ?_⟩
    · exact fun _ read => Taking.noConfusion read
    · exact fun _ passed => Call.noConfusion passed
    · exact fun _ used => .inr used
    · exact fun _ used => .inl used
    · rw [file]
      exact counted _
  | false =>
    have unharmed : Unharmed tableHead number
        (sharedPosix machine process (.fwrite bytes) now).2.file := by
      rw [answer] at fine
      exact of_decide_eq_true fine
    have nothing : (sharedPosix machine process (.fwrite bytes) now).2.Settled process :=
      (wrote.refused answer).elim (fun kept => kept.2.trans settled) id
    refine ⟨Taking.Moves.allows (Taking.moves_done rfl rfl before held ?_ (.inr ⟨rfl, unharmed⟩)),
      torn _ ⟨fun _ => held, fun _ => nothing⟩⟩
    exact fun _ passed => Call.noConfusion passed

/-- The stream is sent back, and the header in the file counts the number. -/
theorem taking_sentBack {number : UInt32} {offset : OffT} {rest : Bool → Prog β}
    (stands : Stands tableHead process (.written number) shared)
    (counted : lastRecno tableHead (shared.view process).file = number)
    (each : ∀ reply after, Stands tableHead process .holding after →
      Keeps (sharedPosix machine process) (taking machine tableHead process) (rest reply) .holding
        after post) :
    Keeps (sharedPosix machine process) (taking machine tableHead process)
      (fseek offset .seekSet >>= rest) (.written number) shared post := by
  apply Keeps.call
  intro now relied fine
  have before := (Taking.Relies.stands relied stands).holds rfl
  have held : (sharedPosix machine process (.fseek offset .seekSet) now).2.locks.Holds process
      (headerLock tableHead) := sharedPosix_holds (.inr id) before
  have settled := @settled_fseek ι process now _ machine offset .seekSet
  have same : now.view process = shared.view process := by
    rw [Shared.view, Shared.view, Taking.Relies.stream relied,
      Taking.Relies.file relied (stands.holds rfl)]
  have there : lastRecno tableHead
      (sharedPosix machine process (.fseek offset .seekSet) now).2.file = number := by
    cases answer : (sharedPosix machine process (.fseek offset .seekSet) now).1 with
    | true =>
      have moved := @posix_fseek_after (machine process).platform (now.view process) offset .seekSet
      rw [← @sharedPosix_onFile ι _ machine process (.fseek offset .seekSet) now trivial] at moved
      rw [← settled.file, moved.file answer, same]
      exact counted
    | false =>
      rw [answer] at fine
      exact of_decide_eq_true fine
  refine ⟨Taking.Moves.allows (Taking.moves_done rfl rfl before held ?_ (.inl ⟨rfl, there⟩)),
    each _ _ ⟨fun _ => held, fun _ => settled⟩⟩
  exact fun _ passed => Call.noConfusion passed

/-! ## Programs that stay where they are -/

/-- A call that is made while a number is used: on the stream or on the handle, and no event of a
number. -/
def Call.WithNumber : Call → Prop
  | .note (.numbered _) => False
  | .note (.answered _) => False
  | .note _ => True
  | request => request.Plain

/-- A plain call may be made while a number is used. -/
theorem Call.Plain.withNumber {request : Call} (plain : request.Plain) : request.WithNumber := by
  cases request with
  | note event => exact plain.elim
  | _ => exact plain

/-- Under the lock, a process that uses a number may change the file. -/
theorem taking_using {number : UInt32} {program : Prog β} (calls : program.Only Call.WithNumber)
    (stands : Stands tableHead process (.numbered number) shared) :
    Keeps (sharedPosix machine process) (taking machine tableHead process) program
      (.numbered number) shared fun _ phase' after =>
        phase' = .numbered number ∧ Stands tableHead process (.numbered number) after := by
  refine Keeps.only (fun (phase' : Taking) (after : Shared ι) => phase' = .numbered number ∧
    Stands tableHead process (.numbered number) after) calls ?_ ⟨rfl, stands⟩
  rintro _ before now request call ⟨rfl, stands⟩ relied -
  have before := (Taking.Relies.stands relied stands).holds rfl
  have keptLocks : ¬ request.Releases := by
    cases request with
    | fcntl type start len => exact call.elim
    | fclose stream => exact call.elim
    | _ => exact id
  have held : (sharedPosix machine process request now).2.locks.Holds process
      (headerLock tableHead) := sharedPosix_holds (.inr keptLocks) before
  have same : (Taking.numbered number).advance
      (.call ⟨now, request, (sharedPosix machine process request now).1⟩) = .numbered number := by
    cases request with
    | note event => cases event <;> first | exact call.elim | rfl
    | _ => first | exact call.elim | rfl
  refine ⟨Taking.Moves.allows
    (Taking.moves_same same ⟨fun _ => held, nofun⟩ (.inr ⟨nofun, before⟩) ?_),
    same, fun _ => held, nofun⟩
  rintro other rfl
  exact call

/-- A call of an opening that does not create the file. -/
def Call.Opens : Call → Prop
  | .fcntl _ _ _ => False
  | .fwrite _ => False
  | .note _ => False
  | .fopen create => create = false
  | _ => True

/-- Without the lock, an opening by a settled process leaves the file. -/
theorem taking_outside {program : Prog β} (calls : program.Only Call.Opens)
    (settled : shared.Settled process) :
    Keeps (sharedPosix machine process) (taking machine tableHead process) program .outside shared
      fun _ phase' after => phase' = .outside ∧ after.Settled process := by
  refine Keeps.only (fun (phase' : Taking) (after : Shared ι) => phase' = .outside ∧
    after.Settled process) calls ?_ ⟨rfl, settled⟩
  rintro _ before now request call ⟨rfl, settled⟩ relied -
  have keeping : request.Keeping := by
    cases request with
    | fopen create => exact call
    | fwrite bytes => exact call.elim
    | _ => trivial
  have same : Taking.outside.advance
      (.call ⟨now, request, (sharedPosix machine process request now).1⟩) = .outside := by
    cases request with
    | fcntl type start len => exact call.elim
    | note event => exact call.elim
    | _ => rfl
  obtain ⟨file, still⟩ := @sharedPosix_keeping ι _ machine process request now keeping
    (Taking.Relies.settled relied settled)
  refine ⟨Taking.Moves.allows (Taking.moves_same same ⟨nofun, fun _ => still⟩ (.inl file) ?_), same,
    still⟩
  rintro other rfl
  exact call

end Rules

/-! ## The calls of a worker -/

section Footprint

variable {handle : Rndh} {flags chunkSize recSize : UInt32}

/-- An opening of an existing file makes such calls only. -/
theorem opens_blocksFileOpen (existing : rndCreate flags = false) :
    (blocksFileOpen flags chunkSize recSize).Only Call.Opens := by
  have closed {stream : Nat} {result : RndError × Rndh} :
      (fclose stream >>= fun _ => pure result : Prog (RndError × Rndh)).Only Call.Opens :=
    only_bind (only_perform trivial) fun _ => trivial
  rw [blocksFileOpen, existing]
  apply only_bind (only_perform trivial)
  intro _
  apply only_bind (only_perform (show (Call.fopen false).Opens from rfl))
  intro opened
  cases opened with
  | none => exact only_bind (only_perform trivial) fun _ => trivial
  | some stream =>
    apply only_bind
    · apply only_bind (only_perform trivial)
      intro read
      cases read with
      | none => exact only_bind (only_perform trivial) fun _ => trivial
      | some bytes => trivial
    · rintro ⟨rval, handle⟩
      dsimp only
      split
      · exact closed
      · split
        · exact closed
        · trivial

/-- The record search makes such calls only. -/
theorem withNumber_searchNext {fuel : Nat} {bloc : BlockLoc} {buffer : List UInt8} :
    (searchNext fuel handle bloc buffer).Only Call.WithNumber := by
  apply only_flatrecsMakeOffsetToRecno
  · exact fun _ => Call.Plain.withNumber
  · intro event search
    cases event <;> first | exact search.elim | trivial

end Footprint

section Calls

variable {ι : Type} {tableHead : OffT} {process : ι} {shared : Shared ι} {phase : Taking}

/-- Where a process stands when it begins a call: the release behind its last call may have failed. -/
def Ready (tableHead : OffT) (process : ι) (phase : Taking) (shared : Shared ι) : Prop :=
  Stands tableHead process phase shared ∧ (phase = .outside ∨ phase = .holding)

/-- Where a process stands when a call has returned this code: a call that could only fail did. -/
def Closed (tableHead : OffT) (process : ι) (rval : RndError) (phase : Taking) (shared : Shared ι) :
    Prop :=
  Stands tableHead process phase shared ∧
    (phase = .outside ∨ phase = .holding ∨ rval ≠ .success ∧ ∃ locked, phase = .failed locked)

/-- Where a process stands when it goes on behind an answer. -/
def RestsBehind (tableHead : OffT) (process : ι) : Returned → Taking → Shared ι → Prop
  | .opened _ _, phase, shared => phase = .outside ∧ shared.Settled process
  | .called _ _ rval, phase, shared => Closed tableHead process rval phase shared

/-- A settled process outside is ready. -/
theorem ready_outside (settled : shared.Settled process) : Ready tableHead process .outside shared :=
  ⟨⟨nofun, fun _ => settled⟩, .inl rfl⟩

/-- A process that is ready may leave with any code. -/
theorem Ready.closed {rval : RndError} (ready : Ready tableHead process phase shared) :
    Closed tableHead process rval phase shared :=
  ⟨ready.1, ready.2.imp_right .inl⟩

/-- The next call begins where the last one ended. -/
theorem Closed.ready {rval : RndError} (closed : Closed tableHead process rval phase shared) :
    Ready tableHead process phase.returned shared := by
  obtain ⟨stands, rfl | rfl | ⟨-, locked, rfl⟩⟩ := closed
  · exact ⟨stands, .inl rfl⟩
  · exact ⟨stands, .inr rfl⟩
  · cases locked with
    | false => exact ⟨⟨nofun, fun _ => stands.settled rfl⟩, .inl rfl⟩
    | true => exact ⟨⟨fun _ => stands.holds rfl, fun _ => stands.settled rfl⟩, .inr rfl⟩

/-- What the end of a call is like: no number is in use, and the lock is where it was. -/
theorem Closed.at_rest {rval : RndError} {phase : Taking}
    (closed : Closed tableHead process rval phase shared) :
    phase.inUse = none ∧ phase.returned.inUse = none ∧ phase.returned.locked = phase.locked ∧
      (∀ number, phase.returned ≠ .read number) ∧ (rval = .success → phase.live = true) := by
  obtain ⟨-, rfl | rfl | ⟨failed, locked, rfl⟩⟩ := closed
  · exact ⟨rfl, rfl, rfl, fun _ => nofun, fun _ => rfl⟩
  · exact ⟨rfl, rfl, rfl, fun _ => nofun, fun _ => rfl⟩
  · cases locked <;> exact ⟨rfl, rfl, rfl, fun _ => nofun, fun success => absurd success failed⟩

variable [DecidableEq ι] {machine : ι → Machine} {handle : Rndh}

/-- The release of the lock ends the use of a number, or a failed attempt. -/
theorem taking_release {rval : RndError} (stands : Stands tableHead process phase shared)
    (done : phase = .holding ∨ rval ≠ .success ∧ phase = .failed true) :
    Keeps (sharedPosix machine process) (taking machine tableHead process)
      (release (tableArea tableHead) rval) phase shared (Closed tableHead process) := by
  have unused : phase.inUse = none := by
    obtain rfl | ⟨-, rfl⟩ := done <;> rfl
  apply taking_unlock stands (stands.settled unused)
  intro now after reply _ standing
  cases reply with
  | none =>
    obtain rfl | ⟨failed, rfl⟩ := done
    · exact ⟨standing, .inl rfl⟩
    · exact ⟨standing, .inr (.inr ⟨failed, _, rfl⟩)⟩
  | some errno =>
    apply taking_calm (show Call.keepErrno.Calm _ from trivial) standing
    intro _ _ _ _ _ standing
    obtain rfl | ⟨-, rfl⟩ := done
    · exact ⟨standing, .inr (.inl rfl)⟩
    · exact ⟨standing, .inr (.inr ⟨RndError.noConfusion, _, rfl⟩)⟩

/-- Behind a failed search the lock stays, or the number is lost to the call. -/
theorem taking_release_numbered {number : UInt32}
    (stands : Stands tableHead process (.numbered number) shared) (settled : shared.Settled process) :
    Keeps (sharedPosix machine process) (taking machine tableHead process)
      (release (tableArea tableHead) .success) (.numbered number) shared
      (Closed tableHead process) := by
  apply taking_unlock stands settled
  intro now after reply fine standing
  cases reply with
  | none => exact nomatch fine
  | some errno =>
    apply taking_calm (show Call.keepErrno.Calm _ from trivial) standing
    intro _ _ _ _ _ standing
    exact ⟨standing, .inr (.inr ⟨RndError.noConfusion, _, rfl⟩)⟩

/-- What the calls in front of the callback leave: the lock, with the number behind the header. -/
def LockedOrClosed (tableHead : OffT) (process : ι) :
    Except RndError (OffT × List UInt8) → Taking → Shared ι → Prop
  | .error rval, phase, shared => Closed tableHead process rval phase shared
  | .ok (_, buffer), phase, shared =>
    phase = .read (recnoBehind buffer) ∧ Stands tableHead process phase shared

/-- The read of the table header leaves the process with the lock, or without it. -/
theorem taking_readTableHead (ready : Ready tableHead process phase shared) :
    Keeps (sharedPosix machine process) (taking machine tableHead process)
      (readTableHead handle (tableArea tableHead)) phase shared
      (LockedOrClosed tableHead process) := by
  have given {code : RndError} {now : Shared ι} (standing : Stands tableHead process .holding now) :
      Keeps (sharedPosix machine process) (taking machine tableHead process)
        (release (tableArea tableHead) code >>= fun rval => pure (.error rval)) .holding now
        (LockedOrClosed tableHead process) := by
    apply Keeps.bind (taking_release standing (.inl rfl))
    exact fun _ _ _ closed => closed
  obtain ⟨unused, alive⟩ : phase.inUse = none ∧ phase.live = true := by
    obtain rfl | rfl := ready.2 <;> exact ⟨rfl, rfl⟩
  obtain ⟨stands, places⟩ := ready
  unfold readTableHead
  cases handle.file.isSome with
  | false => trivial
  | true =>
    apply taking_calm (show Call.primeHandle.Calm _ from trivial) stands
    intro _ _ _ _ _ stands
    apply taking_calm (show Call.primeHandle.Calm _ from trivial) stands
    intro _ _ _ _ _ stands
    apply taking_lock unused alive stands
    · intro locked standing
      apply taking_calm (show Call.ftell.Calm _ from trivial) standing
      intro _ _ saved _ _ standing
      apply taking_calm (show (Call.fseek tableHead .seekSet).Calm .holding from trivial) standing
      intro now sought found _ same standing
      cases found with
      | false =>
        apply taking_calm (show Call.keepErrno.Calm _ from trivial) standing
        intro _ _ _ _ _ standing
        exact given standing
      | true =>
        have moved := @posix_fseek_after (machine process).platform (now.view process) tableHead
          .seekSet
        rw [same] at moved
        apply taking_read rfl standing (moved.found rfl)
        · exact fun bytes after standing => ⟨rfl, standing⟩
        · intro lost standing
          apply taking_calm (show (Call.fseek saved .seekSet).Calm .holding from trivial) standing
          intro _ _ _ _ _ standing
          exact given standing
    · intro errno after standing
      dsimp only
      split
      · exact Ready.closed ⟨standing, places⟩
      · apply taking_calm (show Call.keepErrno.Calm _ from trivial) standing
        intro _ _ _ _ _ standing
        exact Ready.closed ⟨standing, places⟩

/-- A header that was written back counts the number it holds. -/
theorem lastRecno_patch {file : List UInt8} {htable : RndHeadTable} :
    lastRecno tableHead (patch file tableHead.toNat htable.toBytes) = htable.thead.lastRecno := by
  have whole := slice_all htable.toBytes
  rw [RndHeadTable.toBytes_length] at whole
  rw [lastRecno, htableAt, slice_patch_inside _ (Nat.le_refl _) (by simp), Nat.sub_self, whole,
    RndHeadTable.thead_toBytes]

/-- The write-back and the release. -/
theorem taking_leaveTable {number : UInt32} {savedOffset : OffT} {htable : RndHeadTable}
    (stands : Stands tableHead process (.answered number) shared)
    (counted : htable.thead.lastRecno = number) :
    Keeps (sharedPosix machine process) (taking machine tableHead process)
      (leaveTable (tableArea tableHead) savedOffset true htable.toBytes) (.answered number) shared
      (Closed tableHead process) := by
  have lost {after : Shared ι} (standing : Stands tableHead process (.failed true) after) :
      Keeps (sharedPosix machine process) (taking machine tableHead process)
        (fseek savedOffset .seekSet >>= fun _ => release (tableArea tableHead) .unlockWriteFailed)
        (.failed true) after (Closed tableHead process) := by
    apply taking_calm (show (Call.fseek savedOffset .seekSet).Calm (.failed true) from trivial)
      standing
    intro _ _ _ _ _ standing
    exact taking_release standing (.inr ⟨RndError.noConfusion, rfl⟩)
  rw [leaveTable, writeBack, if_pos rfl, seekWrite, bind_assoc, bind_assoc]
  apply taking_seekBack stands
  · intro sought standing settled there
    apply taking_write standing settled there
    · intro file
      rw [lastRecno_patch, counted]
    · intro written standing counts
      apply taking_sentBack standing counts
      intro _ _ standing
      exact taking_release standing (.inl rfl)
    · exact fun _ standing => lost standing
  · exact fun _ standing => lost standing

/-- From the header read to the return of the call. -/
theorem taking_useTable {fuel : Nat} {user : FlatrecsUseNewRecord} {savedOffset : OffT}
    {buffer : List UInt8} (counts : Counts user)
    (stands : Stands tableHead process (.read (recnoBehind buffer)) shared) :
    Keeps (sharedPosix machine process) (taking machine tableHead process)
      (useTable fuel handle (tableArea tableHead) user savedOffset buffer)
      (.read (recnoBehind buffer)) shared (Closed tableHead process) := by
  apply taking_numbered stands
  intro numbered standing
  apply Keeps.bind (taking_using withNumber_searchNext standing)
  rintro ⟨rval, offset⟩ _ searched ⟨rfl, standing⟩
  dsimp only
  split
  · change Keeps _ _ (fseek savedOffset .seekSet >>= fun _ =>
      release (tableArea tableHead) .success) _ _ _
    apply taking_calm (show (Call.fseek savedOffset .seekSet).Calm (.numbered _) from trivial)
      standing
    intro now after sent _ same standing
    refine taking_release_numbered standing ?_
    have moved := @posix_fseek_after (machine process).platform
      (now.view process) savedOffset .seekSet
    rw [same] at moved
    exact moved.drained.held
  · apply taking_calm (show (Call.note (.handed (recnoBehind buffer) offset)).Calm _ from trivial)
      standing
    intro _ _ _ _ _ standing
    obtain ⟨direct, answers⟩ := counts handle (RndHeadTable.ofBytes buffer) offset
    have calls := only_mono (fun _ direct => Call.Plain.withNumber (Call.Direct.plain direct)) direct
    apply Keeps.bind ((taking_using calls standing).answers answers)
    rintro ⟨changed, left⟩ _ used ⟨⟨⟩, rfl, standing⟩
    apply taking_answered standing
    intro answered standing
    exact taking_leaveTable standing rfl

/-- A call of a worker ends with its code. -/
theorem taking_takeNext {worker : Worker} {number : Nat}
    (ready : Ready tableHead process phase shared) :
    Keeps (sharedPosix machine process) (taking machine tableHead process)
      (worker.takeNext tableHead number handle) phase shared (RestsBehind tableHead process) := by
  rw [Worker.takeNext, flatrecsGetNextOffset_eq, bind_assoc]
  apply Keeps.bind (taking_readTableHead ready)
  intro result phase' locked ends
  cases result with
  | error code => exact ends
  | ok read =>
    obtain ⟨rfl, standing⟩ := ends
    apply Keeps.bind (taking_useTable worker.counts standing)
    exact fun _ _ _ closed => closed

/-- An opening leaves the process at rest. -/
theorem taking_openFile {worker : Worker} (settled : shared.Settled process) :
    Keeps (sharedPosix machine process) (taking machine tableHead process) worker.openFile .outside
      shared (RestsBehind tableHead process) := by
  apply Keeps.bind (taking_outside (opens_blocksFileOpen worker.existing) settled)
  rintro ⟨rval, handle⟩ _ opened stays
  exact stays

/-- So does the first call of a worker. -/
theorem taking_first {worker : Worker} (settled : shared.Settled process) :
    Keeps (sharedPosix machine process) (taking machine tableHead process) (worker.first tableHead)
      .outside shared (RestsBehind tableHead process) := by
  rw [Worker.first]
  split
  · exact taking_openFile settled
  · exact taking_takeNext (ready_outside settled)

end Calls

end Recnodb
