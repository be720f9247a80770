import Recnodb.Interaction.Steps
import Recnodb.Interaction.Sections
import Recnodb.LockDiscipline
import Recnodb.NextOffset
import Recnodb.SharedFile

/-!
# Locked areas of several processes

Processes that lock one area of one file, each as often as it likes, with callbacks of
their own, in any interleaving of their single calls to the platform, whichever of the
calls fail. What a process does between the lock and its release is a section. The stream is
sent back in front of the release if the area was read into a buffer, and then holds nothing;
what a callback without a buffer leaves in the stream would reach the file behind the
release. If nothing is left so, and the reads in the sections are answered with what the file
has, the sections are a serial history of the file: each is the run of its part of the
function on what the one in front of it left, and every call that answers success has its
section there, once.
-/

namespace Recnodb

open Interaction Octets Program Extents

/-- A call that a part under a lock may make: on the stream or the handle, or an event. -/
def Call.Working : Call → Prop
  | .note _ => True
  | request => request.Plain

/-- A plain call may be made under the lock. -/
theorem Call.Plain.working {request : Call} (plain : request.Plain) : request.Working := by
  cases request <;> first | exact plain | trivial

/-- A call in front of a lock: it changes no file, and asks for no lock and gives none up. -/
def Call.Waiting : Call → Prop
  | .fcntl _ _ _ => False
  | .fclose _ => False
  | request => request.Keeping

/-- What a process wants done in an area: what it does before it asks for the lock, and the
arguments of `rnd_lock_area`. The callback only uses the stream and the handle. -/
structure Errand (bhandle : BlockLoc) where
  early : Prog Unit
  handle : Rndh
  retrieveData : Bool
  callback : LockCallback
  waiting : early.Only Call.Waiting
  working : ∀ buffer, (callback handle bhandle buffer).Only Call.Working

/-- What a call of a process returned. -/
structure Finished where
  number : Nat
  rval : RndError
deriving DecidableEq

namespace Errand

variable {bhandle : BlockLoc} (errand : Errand bhandle)

/-- The part of the errand under the lock. -/
def body : Prog RndError :=
  underLock errand.handle bhandle errand.retrieveData errand.callback

/-- The call of an errand, and what it finished. -/
def program (number : Nat) : Prog Finished := do
  errand.early
  let rval ← rndLockArea errand.handle bhandle errand.retrieveData errand.callback
  pure ⟨number, rval⟩

/-- The part under the lock makes such calls only. -/
theorem working_body : errand.body.Only Call.Working := by
  have direct {α : Type} {program : Prog α} (only : program.Only Call.Direct) :
      program.Only Call.Working := only_mono (fun _ direct => direct.plain.working) only
  unfold body underLock
  split
  · rw [lockedData_eq]
    refine only_bind (direct direct_ftell) fun saved => only_bind (direct direct_fseek) fun found =>
      ?_
    split
    · refine only_bind ?_ fun rval => only_bind (direct direct_fseek) fun _ => trivial
      refine only_bind (direct direct_fread) fun read => ?_
      cases read with
      | none => trivial
      | some buffer =>
        exact only_bind (errand.working _) fun _ => direct direct_writeBack
    · exact direct direct_kept
  · exact only_bind (errand.working _) fun _ => trivial

/-- Behind a part that has read the area, the stream holds nothing. -/
theorem drained {platform : Platform} {entry exit : World} {rval : RndError}
    (data : errand.retrieveData = true)
    (ran : run (posix platform) errand.body entry = (.ok rval, exit)) : exit.held = [] := by
  rw [body, data, underLock, if_pos rfl] at ran
  exact lockedData_drained ran

/-- What a section did: the part under the lock, from a stream that held nothing to one that holds
nothing. -/
structure Ran (platform : Platform) (entry exit : World) : Prop where
  entered : entry.held = []
  left : exit.held = []
  ran : ∃ rval, run (posix platform) errand.body entry = (.ok rval, exit)

end Errand

/-! ## The monitor of an area -/

section Area

variable {ι : Type} [DecidableEq ι]

/-- The extent of an area. -/
abbrev areaOf (bhandle : BlockLoc) : Extent := lockedArea bhandle.offset bhandle.size

/-- A granted lock on the area opens a section, and a request to release a lock closes it. -/
def areaMark (bhandle : BlockLoc) : (request : Call) → Answer request → Mark
  | .fcntl .writeLock start len, none =>
    if start = bhandle.offset ∧ len = bhandle.size then .opens else .plain
  | .fcntl .unlock _ _, _ => .closes
  | _, _ => .plain

/-- A granted lock on the area opens a section. -/
theorem areaMark_granted {bhandle : BlockLoc} :
    areaMark bhandle (.fcntl .writeLock bhandle.offset bhandle.size) none = .opens :=
  if_pos ⟨rfl, rfl⟩

/-- A read that is answered as from the file. -/
def AnsweredFromFile (machine : ι → Machine) (process : ι) (moment : Moment Call Answer (Shared ι)) :
    Prop :=
  match moment with
  | ⟨before, .fread size, reply⟩ =>
    reply = (posix (machine process).platform (.fread size) (before.view process)).1
  | _ => True

instance (machine : ι → Machine) (process : ι) (moment : Moment Call Answer (Shared ι)) :
    Decidable (AnsweredFromFile machine process moment) :=
  match moment with
  | ⟨before, .fread size, reply⟩ => inferInstanceAs (Decidable (reply =
      (posix (machine process).platform (.fread size) (before.view process)).1))
  | ⟨_, .fopen _, _⟩ => isTrue trivial
  | ⟨_, .fclose _, _⟩ => isTrue trivial
  | ⟨_, .fseek _ _, _⟩ => isTrue trivial
  | ⟨_, .ftell, _⟩ => isTrue trivial
  | ⟨_, .fwrite _, _⟩ => isTrue trivial
  | ⟨_, .fcntl _ _ _, _⟩ => isTrue trivial
  | ⟨_, .adjacent _, _⟩ => isTrue trivial
  | ⟨_, .primeHandle, _⟩ => isTrue trivial
  | ⟨_, .keepErrno, _⟩ => isTrue trivial
  | ⟨_, .note _, _⟩ => isTrue trivial

variable (machine : ι → Machine) (bhandle : BlockLoc) (errands : ι → Nat → Errand bhandle)

/-- A request to release a lock. -/
def Call.unlocks : Call → Bool
  | .fcntl .unlock _ _ => true
  | _ => false

/-- What is assumed of a call in a section: a read is answered as from the file, and a callback that
was given no data has left nothing in the stream when the lock is released. -/
def FineUnderLock (process : ι) (number : Nat) (moment : Moment Call Answer (Shared ι)) : Prop :=
  AnsweredFromFile machine process moment ∧ (moment.request.unlocks = true →
    (errands process number).retrieveData = false → moment.before.Settled process)

instance (process : ι) (number : Nat) (moment : Moment Call Answer (Shared ι)) :
    Decidable (FineUnderLock machine bhandle errands process number moment) :=
  inferInstanceAs (Decidable (_ ∧ (_ → _ → _)))

/-- The sections of an area: each ran the part under the lock of its errand. -/
def areaMonitor : Monitor ι Call Answer (Shared ι) World (List UInt8) where
  handler := sharedPosix machine
  alone process := posix (machine process).platform
  view process shared := shared.view process
  common := World.disk
  shared := Shared.file
  holds process shared := shared.locks.Holds process (areaOf bhandle)
  settled process shared := shared.Settled process
  mark := areaMark bhandle
  quiet := Call.Keeping
  inner := Call.Working
  fine := FineUnderLock machine bhandle errands
  steps process number := Steps (posix (machine process).platform) (errands process number).body
  ran process number := (errands process number).Ran (machine process).platform

instance (process : ι) (number : Nat) (moment : Moment Call Answer (Shared ι)) :
    Decidable ((areaMonitor machine bhandle errands).fine process number moment) :=
  inferInstanceAs (Decidable (FineUnderLock machine bhandle errands process number moment))

variable {machine bhandle errands}

/-- A call under the lock acts on the file as it does for one process. -/
theorem sharedPosix_working {process : ι} {request : Call} {shared : Shared ι}
    (working : request.Working) (fine : AnsweredFromFile machine process
      ⟨shared, request, (sharedPosix machine process request shared).1⟩) :
    ((sharedPosix machine process request shared).1,
      (sharedPosix machine process request shared).2.view process) =
        posix (machine process).platform request (shared.view process) := by
  cases request with
  | fread size =>
    refine Prod.ext fine ?_
    rw [AnsweredFromFile, sharedPosix] at fine
    rw [sharedPosix]
    dsimp only at fine ⊢
    split
    · rename_i buffered
      rw [dif_pos buffered] at fine
      dsimp only at fine ⊢
      rw [Shared.turn_view]
      -- a read that delivers leaves the stream behind what it delivered
      rcases @FromPosition.posix_cases (machine process).platform (.fread size)
        (shared.view process) with sound | ⟨fault, broken⟩
      · rw [sound, unfaulted] at fine ⊢
        split at fine
        · rename_i inside
          rw [dif_pos inside]
        · exact absurd fine (Option.some_ne_none _)
      · rw [broken] at fine
        exact absurd fine (Option.some_ne_none _)
    · exact Shared.turn_view
  | fcntl type start len => exact working.elim
  | _ => exact sharedPosix_onFile trivial

/-- The monitor of an area is lawful, as its lock excludes the others. -/
theorem areaMonitor_lawful (positive : 0 < (areaOf bhandle).size) :
    (areaMonitor machine bhandle errands).Lawful where
  common _ _ := rfl
  exclusive one other state mine theirs := by
    by_contra different
    exact Extent.meets positive (mine.apart theirs different)
  kept _ _ _ _ different holds := sharedPosix_holds (.inl different) holds
  apart process other request state different settled := by
    change Shared.Settled (sharedPosix machine process request state).2 other
    rw [Shared.Settled, sharedPosix_other different]
    exact settled
  frame process other request state different same := by
    have file : (sharedPosix machine process request state).2.file = state.file := same
    change Shared.view (sharedPosix machine process request state).2 other = _
    rw [Shared.view, file, sharedPosix_other different]
    rfl
  opens process request state opens := by
    cases request with
    | fcntl type start len =>
      cases type with
      | writeLock =>
        change areaMark bhandle (.fcntl .writeLock start len)
          (sharedPosix machine process (.fcntl .writeLock start len) state).1 = .opens at opens
        cases reply : (sharedPosix machine process (.fcntl .writeLock start len) state).1 with
        | some errno =>
          rw [reply] at opens
          exact Mark.noConfusion opens
        | none =>
          rw [reply, areaMark] at opens
          split at opens
          · rename_i here
            obtain ⟨rfl, rfl⟩ := here
            exact sharedPosix_granted reply
          · exact Mark.noConfusion opens
      | unlock => exact Mark.noConfusion opens
    | _ => exact Mark.noConfusion opens
  quiet _ _ _ keeping := sharedPosix_keeping keeping
  inner process number request state working holds := by
    have plain : ∀ reply, areaMark bhandle request reply = .plain := by
      cases request <;> first | exact working.elim | exact fun _ => rfl
    refine ⟨plain, sharedPosix_holds (.inr ?_) holds, fun fine => sharedPosix_working working fine.1⟩
    cases request <;> first | exact working.elim | exact id

/-! ## One call -/

/-- Where a call has returned. A success has its section. -/
structure Delivered (machine : ι → Machine) (errands : ι → Nat → Errand bhandle) (process : ι)
    (value : Finished) (standing : Standing World) (shared : Shared ι) : Prop where
  number : standing.number = value.number
  settled : shared.Settled process
  away : ∀ entry, standing.stage ≠ .inside entry
  success : value.rval = .success → ∃ entry exit, standing.stage = .left entry exit ∧
    run (posix (machine process).platform) (errands process value.number).body entry =
      (.ok .success, exit)

variable {process : ι} {number : Nat} {shared : Shared ι}

/-- A call in front of the lock is a quiet one. -/
theorem quiet_waiting {α : Type} {program : Prog α} (waiting : program.Only Call.Waiting) :
    program.Only fun request => request.Keeping ∧ ∀ reply, areaMark bhandle request reply =
      .plain := by
  refine only_mono (fun request waits => ?_) waiting
  cases request <;> first | exact waits.elim | exact ⟨waits, fun _ => rfl⟩

/-- What is left of a call behind the section, or where there was none. -/
theorem keeps_rest {program : Prog RndError} {stage : Stage World} {after : Shared ι}
    (positive : 0 < (areaOf bhandle).size) (waiting : program.Only Call.Waiting)
    (away : ∀ entry, stage ≠ .inside entry) (settled : after.Settled process)
    (answers : program.Answers fun code =>
      code = .success → ∃ entry exit, stage = .left entry exit ∧
        run (posix (machine process).platform) (errands process number).body entry =
          (.ok .success, exit)) :
    Keeps (sharedPosix machine process)
      ((areaMonitor machine bhandle errands).discipline Finished process)
      (program >>= fun code => pure ⟨number, code⟩) ⟨number, stage⟩ after
      (Delivered machine errands process) := by
  have lawful := @areaMonitor_lawful ι _ machine bhandle errands positive
  have quiet : Keeps (sharedPosix machine process)
      ((areaMonitor machine bhandle errands).discipline Finished process) program ⟨number, stage⟩
        after
      fun _ behind last => behind = ⟨number, stage⟩ ∧ last.Settled process :=
    Monitor.keeps_quiet lawful (quiet_waiting waiting) away settled
  refine Keeps.bind (quiet.answers answers) ?_
  rintro code _ last ⟨success, rfl, still⟩
  exact ⟨rfl, still, away, success⟩

/-- In front of the release a process is settled, and the release leaves the file. -/
theorem closes_release {entry : World} {rval : RndError} {now : Shared ι} (entered : entry.held = [])
    (ran : run (posix (machine process).platform) (errands process number).body entry =
      (.ok rval, now.view process))
    (passed : Call.unlocks (.fcntl .unlock bhandle.offset bhandle.size) = true →
      (errands process number).retrieveData = false → now.Settled process) :
    Monitor.Closes (areaMonitor machine bhandle errands) process number entry
      (.fcntl .unlock bhandle.offset bhandle.size) now := by
  have settled : (now.view process).held = [] := by
    cases data : (errands process number).retrieveData with
    | false => exact passed rfl data
    | true => exact (errands process number).drained data ran
  obtain ⟨same, still⟩ := @sharedPosix_keeping ι _ machine process
    (.fcntl .unlock bhandle.offset bhandle.size) now trivial settled
  exact ⟨same, still, entered, settled, _, ran⟩

/-- The release of the lock. -/
theorem keeps_release (positive : 0 < (areaOf bhandle).size) {entry : World} {rval : RndError}
    (holds : shared.locks.Holds process (areaOf bhandle)) (entered : entry.held = [])
    (ran : run (posix (machine process).platform) (errands process number).body entry =
      (.ok rval, shared.view process)) :
    Keeps (sharedPosix machine process)
      ((areaMonitor machine bhandle errands).discipline Finished process)
      (release bhandle rval >>= fun code => pure ⟨number, code⟩) ⟨number, .inside entry⟩ shared
      (Delivered machine errands process) := by
  rw [release, bind_assoc]
  have view {now : Shared ι} (seen : now.view process = shared.view process) :
      ((.ok rval, shared.view process) : Except Stop RndError × World) =
        (.ok rval, now.view process) := by rw [seen]
  refine Monitor.keeps_close (areaMonitor_lawful positive)
    (.fcntl .unlock bhandle.offset bhandle.size) (fun _ => rfl) holds
    (fun now seen fine => closes_release entered (ran.trans (view seen)) fine.2) fun reply after
      settled => ?_
  cases reply with
  | none =>
    refine ⟨rfl, settled, Stage.left_away, fun success => ⟨_, _, rfl, ?_⟩⟩
    obtain rfl : rval = .success := success
    exact ran
  | some errno =>
    refine keeps_rest positive (only_bind (only_perform trivial) fun _ => trivial) Stage.left_away
      settled ?_
    exact fun _ failed => RndError.noConfusion failed

/-- A call of `rnd_lock_area` in front of which its process stands outside, and is settled. -/
theorem keeps_program (positive : 0 < (areaOf bhandle).size) (settled : shared.Settled process) :
    Keeps (sharedPosix machine process)
      ((areaMonitor machine bhandle errands).discipline Finished process)
      ((errands process number).program number) ⟨number, .outside⟩ shared
      (Delivered machine errands process) := by
  have lawful := @areaMonitor_lawful ι _ machine bhandle errands positive
  let errand := errands process number
  refine Keeps.bind (Monitor.keeps_quiet lawful
    (quiet_waiting errand.waiting) Stage.outside_away settled) ?_
  rintro - _ waited ⟨rfl, settled⟩
  rw [rndLockArea_eq, bind_assoc]
  have primed : (primeHandle : Prog Unit).Only Call.Waiting := only_perform trivial
  refine Keeps.bind (Monitor.keeps_quiet lawful (quiet_waiting primed) Stage.outside_away settled) ?_
  rintro - _ ready ⟨rfl, settled⟩
  rw [bind_assoc]
  refine Monitor.keeps_open lawful (.fcntl .writeLock bhandle.offset bhandle.size) trivial settled
    (fun reply after opens holds entered => ?_) (fun reply after refused settled => ?_)
  · cases reply with
    | some errno => exact Mark.noConfusion (show Mark.plain = .opens from opens)
    | none =>
      dsimp only
      rw [bind_assoc]
      refine Keeps.bind (Monitor.keeps_body lawful errand.working_body rfl holds
        fun moment among => ⟨moment, among, rfl, rfl⟩) ?_
      rintro rval _ behind ⟨rfl, held, ran⟩
      exact keeps_release positive held entered ran
  · cases reply with
    | none => exact absurd areaMark_granted refused
    | some errno =>
      dsimp only
      split
      · exact keeps_rest positive trivial Stage.outside_away settled
          fun failed => RndError.noConfusion failed
      · refine keeps_rest positive (only_bind (only_perform trivial) fun _ => trivial)
          Stage.outside_away settled ?_
        exact fun _ failed => RndError.noConfusion failed

end Area

/-! ## All processes -/

section Runs

variable {ι : Type} [DecidableEq ι] (machine : ι → Machine) {bhandle : BlockLoc}
variable (errands : ι → Nat → Errand bhandle)

/-- The processes on one file, each in front of its first errand. -/
def errandPool (shared : Shared ι) : Pool ι Call Answer Stop Finished (Shared ι) :=
  ⟨fun process => (errands process 0).program 0, shared⟩

/-- A process whose call returned goes on with its next errand. -/
def nextErrand (process : ι) (value : Finished) : Prog Finished :=
  (errands process (value.number + 1)).program (value.number + 1)

/-- The success of a call, as its section shows it. -/
def Succeeded (value : Finished) (closed : Section ι World) : Prop :=
  closed.number = value.number ∧
    run (posix (machine closed.thread).platform) (errands closed.thread closed.number).body
      closed.entry = (.ok .success, closed.exit)

variable {machine errands} {past : List (Act ι Call Answer Finished (Shared ι))}
variable {shared : Shared ι} {pool : Pool ι Call Answer Stop Finished (Shared ι)}

/-- The calls of all processes keep the monitor together. -/
theorem together_errands (positive : 0 < (areaOf bhandle).size) :
    Together (sharedPosix machine) (nextErrand errands)
      ((areaMonitor machine bhandle errands).discipline Finished)
      (Delivered machine errands) := by
  refine Monitor.together (areaMonitor machine bhandle errands) ?_
  intro process value standing _ delivered
  rw [delivered.number]
  exact keeps_program positive delivered.settled

omit [DecidableEq ι] in
/-- A call that returned stands away from its section, and its success shows what the section did. -/
theorem rests_errands : Monitor.Rests (Delivered machine errands)
    (fun value => value.rval = .success) (Succeeded machine errands) where
  away _ _ _ _ delivered := delivered.away
  shows process value standing _ delivered success := by
    obtain ⟨entry, exit, left, ran⟩ := delivered.success success
    refine ⟨entry, exit, left, delivered.number, ?_⟩
    rw [delivered.number]
    exact ran

end Runs

/-! ## Two processes that count -/

end Recnodb
