import Recnodb.LockedSections
import Recnodb.TableLifetimes

/-!
# Records of several processes

Processes that insert records into one table of one file, each as often as it likes, in any
interleaving of their single calls to the platform, whichever of the calls fail without
losing what a stream holds. What a process does under the lock of the table header is an
insertion into the list that the processes in front of it left, and is in the file when the
lock is released, so the table has the acknowledged records of all processes, each once, in
the order in which the processes held the lock.
-/

namespace Recnodb

open Interaction Octets Program Extents

/-- The area that the insertions lock: the header of the table at the start of the file. -/
abbrev rootArea : BlockLoc := ⟨(0 : Nat), sizeofHeadTable⟩

/-- An insertion as a process makes it. The callback only uses the stream. -/
structure Inserter (recSize : UInt32) extends Storage recSize where
  handle : Rndh
  fuel : Nat
  direct : ∀ htable offset, (user handle htable offset).Only Call.Direct

namespace Inserter

variable {recSize : UInt32} (inserter : Inserter recSize)

/-- A search under a lock. -/
theorem working_search {fuel : Nat} {handle : Rndh} {bloc : BlockLoc} {htable : RndHeadTable}
    {recno : UInt32} :
    (flatrecsMakeOffsetToRecno fuel handle bloc htable recno).Only Call.Working := by
  apply only_flatrecsMakeOffsetToRecno
  · exact fun _ => Call.Plain.working
  · exact fun _ _ => trivial

/-- The insertion as an errand to the locked header. -/
def errand : Errand rootArea where
  early := do
    cAssert inserter.handle.file.isSome
    primeHandle
  handle := inserter.handle
  retrieveData := true
  callback := flatrecsGetNextOffsetLockCallback inserter.fuel inserter.user
  waiting := by
    refine only_bind ?_ fun _ => only_perform trivial
    cases inserter.handle.file.isSome <;> trivial
  working buffer := by
    refine only_bind (only_perform trivial) fun _ => only_bind working_search fun found => ?_
    obtain ⟨rval, offset⟩ := found
    dsimp only
    split
    · trivial
    · refine only_bind (only_perform trivial) fun _ => only_bind ?_ fun _ =>
        only_bind (only_perform trivial) fun _ => trivial
      exact only_mono (fun _ direct => direct.plain.working) (inserter.direct _ _)

/-- A call that inserts a record. -/
def program (number : Nat) : Prog Finished := do
  let rval ← flatrecsGetNextOffset inserter.fuel inserter.handle (0 : Nat) inserter.user
  pure ⟨number, rval⟩

/-- It is an errand to the locked header. -/
theorem errand_program (number : Nat) : inserter.errand.program number = inserter.program number := by
  rw [Errand.program, program, flatrecsGetNextOffset]
  simp only [errand, bind_assoc]

end Inserter

section Runs

variable {ι : Type} [DecidableEq ι] (machine : ι → Machine) {chunkSize recSize : UInt32}
variable (inserters : ι → Nat → Inserter recSize)

/-- The errands of the processes. -/
def insertErrands (process : ι) (number : Nat) : Errand rootArea := (inserters process number).errand

/-- The attempt that a section was. -/
def attemptOf (closed : Section ι World) : Attempt recSize where
  record := (inserters closed.thread closed.number).record
  acknowledged :=
    let body := (insertErrands inserters closed.thread closed.number).body
    let platform := (machine closed.thread).platform
    match (run (posix platform) body closed.entry).1 with
    | .ok .success => Event.answered true ∈ events (log (posix platform) body closed.entry)
    | _ => false

/-- The processes on one file, each in front of its first insertion. -/
def insertPool (shared : Shared ι) : Pool ι Call Answer Stop Finished (Shared ι) :=
  ⟨fun process => (inserters process 0).program 0, shared⟩

/-- A process whose call returned goes on with its next insertion. -/
def nextInsertion (process : ι) (value : Finished) : Prog Finished :=
  (inserters process (value.number + 1)).program (value.number + 1)

variable {machine inserters} {table : RecordTable chunkSize recSize} {shared : Shared ι}
variable {past : List (Act ι Call Answer Finished (Shared ι))}
variable {pool : Pool ι Call Answer Stop Finished (Shared ι)}

/-- The sections of a serial history insert their records. -/
theorem serial_survives (durable : ∀ process, (machine process).platform.Durable)
    (whole : ∀ process, (machine process).platform.WholeNumbers) {sections : List (Section ι World)}
    {start file : List UInt8}
    (represents : Represents table start)
    (serial : Serial (areaMonitor machine rootArea (insertErrands inserters)) start sections file)
    (room : table.records.length + sections.length ≤ rootRoom chunkSize recSize) :
    ∃ kept final, Survives table (sections.map (attemptOf machine inserters)) file kept final := by
  refine serial.invariant (fun sections file =>
    table.records.length + sections.length ≤ rootRoom chunkSize recSize →
      ∃ kept final, Survives table (sections.map (attemptOf machine inserters)) file kept final)
    ?_ ?_ room
  · exact fun _ => ⟨[], table, (List.append_nil _).symm, .slnil, .slnil, represents⟩
  · rintro earlier last ih ⟨entered, left, rval, ran⟩ room
    rw [List.length_append, List.length_singleton] at room
    obtain ⟨kept, final, survives⟩ := ih (by omega)
    have free : final.Free := survives.free (by rw [List.length_map]; exact room)
    rw [List.map_append, List.map_singleton]
    refine survives.next free _ ?_
    let inserter := inserters last.thread last.number
    have inserts := survives.represents.locked free (inserter.stores _) (whole last.thread) last.entry
      (World.file_of_empty entered) rval last.exit ran ((durable last.thread).lossless _)
    rw [World.file_of_empty left] at inserts
    refine inserts.imp_left fun still => ⟨still.1, ?_⟩
    unfold attemptOf
    dsimp only [areaMonitor] at ran ⊢
    rw [ran]
    cases rval with
    | success => exact decide_eq_false (still.2 rfl)
    | _ => rfl

/-- However the calls of the processes interleave, the file that the sections left holds the table
with the acknowledged records of all processes, each once, in the order of the sections; it is the
file that the process inside began with, or, where nobody is inside, the file as it is. Every call
that returned success has its section. -/
theorem insertions_serial (represents : Represents table shared.file)
    (settled : ∀ process, shared.Settled process)
    (durable : ∀ process, (machine process).platform.Durable)
    (whole : ∀ process, (machine process).platform.WholeNumbers)
    (interleaves : Interleaves (sharedPosix machine) (nextInsertion inserters)
      (insertPool inserters shared) past pool)
    (fine : AllFine ((areaMonitor machine rootArea (insertErrands inserters)).discipline Finished)
      ⟨0, .outside⟩ past)
    (room : table.records.length + ((areaMonitor machine rootArea (insertErrands inserters)).sections
      past).length ≤ rootRoom chunkSize recSize) :
    (∃ kept final file, Survives table
        (((areaMonitor machine rootArea (insertErrands inserters)).sections past).map
          (attemptOf machine inserters)) file kept final ∧
      (areaMonitor machine rootArea (insertErrands inserters)).Orderly shared.file
        ((areaMonitor machine rootArea (insertErrands inserters)).chronicle past) pool.state file) ∧
      (areaMonitor machine rootArea (insertErrands inserters)).Returned
        (fun value => value.rval = .success) (Succeeded machine (insertErrands inserters)) past := by
  have started : insertPool inserters shared = errandPool (insertErrands inserters) shared :=
    congrArg (Pool.mk · shared) (funext fun process => ((inserters process 0).errand_program 0).symm)
  have goes : nextInsertion inserters = nextErrand (insertErrands inserters) :=
    funext fun process => funext fun value =>
      ((inserters process (value.number + 1)).errand_program (value.number + 1)).symm
  rw [started, goes] at interleaves
  obtain ⟨⟨file, orderly⟩, returned⟩ := @Monitor.serial _ _ _ _ _ _ _
    (areaMonitor machine rootArea (insertErrands inserters)) _ _ _ _ _ (errandPool _ shared) _ _ _
    (areaMonitor_lawful (by decide)) (together_errands (by decide)) rests_errands
    (fun process => keeps_program (by decide) (settled process)) interleaves fine
  obtain ⟨kept, final, survives⟩ := serial_survives durable whole represents orderly.serial room
  exact ⟨⟨kept, final, file, survives, orderly⟩, returned⟩

end Runs

/-! ## Two processes that insert -/

/-- A process that inserts one record again and again. -/
def steadyInserter (record : Record 3) : Inserter 3 where
  toStorage := .plain record
  handle := freshHandle 0 80 3
  fuel := 1
  direct htable offset := @storeRecord_direct (freshHandle 0 80 3) htable offset record.val

/-- Each of the processes has its own record. -/
def twoInserters (process : Bool) (_ : Nat) : Inserter 3 :=
  steadyInserter (if process then secondRecord else firstRecord)

/-- The file of a new table that two processes have open. -/
def openedTable : Shared Bool where
  file := freshFile 80 3
  locks := .empty
  processes _ := { world := { disk := [] } }

/-- Nothing fails, and nothing is read ahead. -/
def soundMachine (_ : Bool) : Machine := .unbuffered (.sound fun _ _ => 0)

/-- The run that a schedule of the two processes gives. -/
def insertRun (turns : List Bool) :
    List (Act Bool Call Answer Finished (Shared Bool)) ×
      Pool Bool Call Answer Stop Finished (Shared Bool) :=
  schedule (sharedPosix soundMachine) (nextInsertion twoInserters)
    (insertPool twoInserters openedTable)
    turns

/-- The first process is inside while the second one asks for the lock, and the second one inserts
its record behind it. -/
def insertTurns : List Bool :=
  List.replicate 7 false ++ List.replicate 4 true ++ List.replicate 9 false ++ List.replicate 16 true

theorem insertions_serial_two :
    (((areaMonitor soundMachine rootArea (insertErrands twoInserters)).sections
      (insertRun insertTurns).1).map (attemptOf soundMachine twoInserters) =
        [⟨firstRecord, true⟩, ⟨secondRecord, true⟩]) ∧
    ∃ kept final file, Survives (.empty 80 3)
        (((areaMonitor soundMachine rootArea (insertErrands twoInserters)).sections
          (insertRun insertTurns).1).map (attemptOf soundMachine twoInserters)) file kept final ∧
      (areaMonitor soundMachine rootArea (insertErrands twoInserters)).Orderly (freshFile 80 3)
        ((areaMonitor soundMachine rootArea (insertErrands twoInserters)).chronicle
          (insertRun insertTurns).1) (insertRun insertTurns).2.state file := by
  refine ⟨by decide +kernel, ?_⟩
  have run : Interleaves (sharedPosix soundMachine) (nextInsertion twoInserters)
      (insertPool twoInserters openedTable) (insertRun insertTurns).1 (insertRun insertTurns).2 :=
    interleaves_schedule _ insertTurns
  have settled (process : Bool) : openedTable.Settled process := rfl
  have durable (process : Bool) : (soundMachine process).platform.Durable := Platform.durable_sound _
  have whole (process : Bool) : (soundMachine process).platform.WholeNumbers :=
    fun _ _ scheduled => absurd scheduled.symm (Option.some_ne_none _)
  exact (insertions_serial (represents_fresh (by decide) 3) settled durable whole run
    (by decide +kernel)
    (by decide +kernel)).1

end Recnodb
