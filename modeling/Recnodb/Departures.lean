import Recnodb.ConcurrentRecords
import Recnodb.Interaction.Lives

/-!
# Processes that are killed

Processes that use one area of one file in any interleaving of their single calls to the
platform, any of which may be killed in front of any of its calls, also while it holds the
lock. The system closes the file of a process that is killed or that fails an assertion: what
its stream holds is lost, its locks are given up, and another process may take its place.
What a process did under the lock is then a part of a run, of which the next process knows
nothing but the file. If the process inserts a record, the file holds the table in every such
state.
-/

namespace Recnodb

open Interaction Octets Program Extents

/-- What is known of a call when its process leaves it: what it returned, unless the process was
killed in it. -/
structure Parted where
  number : Nat
  rval : Option RndError
deriving DecidableEq

namespace Errand

variable {bhandle : BlockLoc} (errand : Errand bhandle)

/-- What the system does for a killed process. -/
def killed (number : Nat) : Prog Parted := do
  let _ ← fclose (errand.handle.file.getD 0)
  pure ⟨number, none⟩

/-- The call of a process that makes so many calls to the platform and is killed in front of the
next one. -/
def life (lifetime number : Nat) : Prog Parted :=
  mortal lifetime (do
    errand.early
    let rval ← rndLockArea errand.handle bhandle errand.retrieveData errand.callback
    pure ⟨number, some rval⟩) (errand.killed number)

end Errand

/-! ## The monitor of an area -/

section Area

variable {ι : Type} [DecidableEq ι]

/-- What the system leaves behind a killed process: the file without what the stream held. -/
def Shared.without (shared : Shared ι) (process : ι) (stream : Nat) : Shared ι :=
  let world := shared.view process
  { shared.turn process { world.tick with held := [], live := world.live.erase stream } ⟨0, []⟩ with
    locks := shared.locks.drop process }

/-- The calls of processes that may be killed. Their programs never close a stream, so that a
closing is what the system does behind a killed process. -/
def killablePosix (machine : ι → Machine) (process : ι) : Handler Call Answer (Shared ι)
  | .fclose stream, shared => (true, shared.without process stream)
  | request, shared => sharedPosix machine process request shared

/-- Closing the file closes a section too. -/
def killableMark (bhandle : BlockLoc) : (request : Call) → Answer request → Mark
  | .fclose _, _ => .closes
  | request, reply => areaMark bhandle request reply

variable (machine : ι → Machine) (bhandle : BlockLoc) (errands : ι → Nat → Errand bhandle)

/-- The sections of an area that processes may be killed in: each ran a part of what its errand does
under the lock, from a stream that held nothing. -/
def killableMonitor : Monitor ι Call Answer (Shared ι) World (List UInt8) :=
  { areaMonitor machine bhandle errands with
    handler := killablePosix machine
    mark := killableMark bhandle
    steps := fun process number entry before after => entry.held = [] ∧
      Steps (posix (machine process).platform) (errands process number).body entry before after
    ran := fun process number entry exit => entry.held = [] ∧
      Passes (posix (machine process).platform) (errands process number).body entry exit }

instance (process : ι) (number : Nat) (moment : Moment Call Answer (Shared ι)) :
    Decidable ((killableMonitor machine bhandle errands).fine process number moment) :=
  inferInstanceAs (Decidable (FineUnderLock machine bhandle errands process number moment))

variable {machine bhandle errands}

theorem settled_without {process : ι} {stream : Nat} {shared : Shared ι} :
    (shared.without process stream).Settled process := by
  unfold Shared.Settled Shared.without
  rw [Shared.turn_processes]

theorem without_other {process other : ι} {stream : Nat} {shared : Shared ι}
    (different : other ≠ process) :
    (shared.without process stream).processes other = shared.processes other :=
  Shared.turn_other different

/-- No call touches another process. -/
theorem killablePosix_other {process other : ι} {request : Call} {shared : Shared ι}
    (different : other ≠ process) :
    (killablePosix machine process request shared).2.processes other = shared.processes other := by
  cases request with
  | fclose stream => exact without_other different
  | _ => exact sharedPosix_other different

theorem killableMonitor_lawful (positive : 0 < (areaOf bhandle).size) :
    (killableMonitor machine bhandle errands).Lawful := by
  have lawful := @areaMonitor_lawful ι _ machine bhandle errands positive
  refine ⟨lawful.common, lawful.exclusive, ?_, ?_, ?_, ?_, ?_, ?_⟩
  · intro process other request state different holds
    cases request with
    | fclose stream => exact LockTable.Holds.drop holds different
    | _ => exact lawful.kept process other _ state different holds
  · intro process other request state different settled
    cases request with
    | fclose stream =>
      change Shared.Settled (state.without process stream) other
      rw [Shared.Settled, without_other different]
      exact settled
    | _ => exact lawful.apart process other _ state different settled
  · intro process other request state different same
    cases request with
    | fclose stream =>
      change Shared.view (state.without process stream) other = _
      rw [Shared.view, without_other different]
      rfl
    | _ => exact lawful.frame process other _ state different same
  · intro process request state opens
    cases request with
    | fclose stream => exact Mark.noConfusion opens
    | _ => exact lawful.opens process _ state opens
  · intro process request state quiet settled
    cases request with
    | fclose stream => exact ⟨rfl, settled_without⟩
    | _ => exact lawful.quiet process _ state quiet settled
  · intro process number request state working holds
    obtain ⟨plain, rest⟩ := lawful.inner process number request state working holds
    cases request with
    | fclose stream => exact working.elim
    | _ => exact ⟨plain, rest⟩

/-! ## One call -/

/-- Where a call has ended. A success has its section, which ran to its end. -/
structure Departed (machine : ι → Machine) (errands : ι → Nat → Errand bhandle) (process : ι)
    (value : Parted) (standing : Standing World) (shared : Shared ι) : Prop where
  number : standing.number = value.number
  settled : shared.Settled process
  away : ∀ entry, standing.stage ≠ .inside entry
  success : value.rval = some .success → ∃ entry exit, standing.stage = .left entry exit ∧
    run (posix (machine process).platform) (errands process value.number).body entry =
      (.ok .success, exit)

variable {α : Type} {process : ι} {number left : Nat} {shared : Shared ι} {stage : Stage World}
variable {entry : World}

/-- A call in front of the lock is a quiet one, and none that closes the file. -/
theorem unmarked_waiting {α : Type} {program : Prog α} (waiting : program.Only Call.Waiting) :
    program.Only fun request =>
      request.Keeping ∧ ∀ reply, killableMark bhandle request reply = .plain := by
  refine only_mono (fun request waits => ?_) waiting
  cases request <;> first | exact waits.elim | exact ⟨waits, fun _ => rfl⟩

/-- A process is killed outside. -/
theorem keeps_killed (positive : 0 < (areaOf bhandle).size)
    (away : ∀ entry, stage ≠ .inside entry) (settled : shared.Settled process) :
    Keeps (killablePosix machine process)
      ((killableMonitor machine bhandle errands).discipline α process)
      ((errands process number).killed number) ⟨number, stage⟩ shared
      (Departed machine errands process) := by
  refine Monitor.keeps_away (killableMonitor_lawful positive) (.fclose _) trivial
    (fun _ => Mark.noConfusion) away settled fun _ after still => ?_
  exact ⟨rfl, still, away, fun success => absurd success.symm (Option.some_ne_none _)⟩

/-- A process is killed inside: the system gives up its lock, and what its stream holds is lost. -/
theorem keeps_killed_inside (positive : 0 < (areaOf bhandle).size)
    (holds : shared.locks.Holds process (areaOf bhandle)) (entered : entry.held = [])
    (passes : Passes (posix (machine process).platform) (errands process number).body entry
      (shared.view process)) :
    Keeps (killablePosix machine process)
      ((killableMonitor machine bhandle errands).discipline α process)
      ((errands process number).killed number) ⟨number, .inside entry⟩ shared
      (Departed machine errands process) := by
  have view {now : Shared ι} (seen : now.view process = shared.view process) :
      Passes (posix (machine process).platform) (errands process number).body entry
        (now.view process) := by
    rw [seen]
    exact passes
  refine Monitor.keeps_close (killableMonitor_lawful positive) (.fclose _) (fun _ => rfl) holds
    (fun now seen _ => ⟨rfl, settled_without, entered, view seen⟩) fun _ after still => ?_
  exact ⟨rfl, still, Stage.left_away, fun success => absurd success.symm (Option.some_ne_none _)⟩

/-- What is left of a call behind the section, or where there was none. -/
theorem keeps_answer (positive : 0 < (areaOf bhandle).size) {program : Prog Unit} {rval : RndError}
    (waiting : program.Only Call.Waiting) (away : ∀ entry, stage ≠ .inside entry)
    (settled : shared.Settled process)
    (success : rval = .success → ∃ entry exit, stage = .left entry exit ∧
      run (posix (machine process).platform) (errands process number).body entry =
        (.ok .success, exit)) :
    Keeps (killablePosix machine process)
      ((killableMonitor machine bhandle errands).discipline α process)
      (mortal left (program >>= fun _ => pure ⟨number, some rval⟩)
        ((errands process number).killed number)) ⟨number, stage⟩ shared
      (Departed machine errands process) := by
  refine Monitor.keeps_mortal_quiet (killableMonitor_lawful positive) (unmarked_waiting waiting) away
    settled (fun _ still => keeps_killed positive away still) fun _ left now still => ?_
  have departed : Departed machine errands process ⟨number, some rval⟩ ⟨number, stage⟩ now :=
    ⟨rfl, still, away, fun same => success (Option.some.inj same)⟩
  cases left with
  | zero => exact departed
  | succ left => exact departed

/-- The release of the lock, in front of which the process may be killed. -/
theorem keeps_mortal_release (positive : 0 < (areaOf bhandle).size) {rval : RndError}
    (holds : shared.locks.Holds process (areaOf bhandle)) (entered : entry.held = [])
    (ran : run (posix (machine process).platform) (errands process number).body entry =
      (.ok rval, shared.view process)) :
    Keeps (killablePosix machine process)
      ((killableMonitor machine bhandle errands).discipline α process)
      (mortal left (release bhandle rval >>= fun code => pure ⟨number, some code⟩)
        ((errands process number).killed number)) ⟨number, .inside entry⟩ shared
      (Departed machine errands process) := by
  have passes : Passes (posix (machine process).platform) (errands process number).body entry
      (shared.view process) := .inr (congrArg Prod.snd ran)
  have view {now : Shared ι} (seen : now.view process = shared.view process) :
      ((.ok rval, shared.view process) : Except Stop RndError × World) =
        (.ok rval, now.view process) := by rw [seen]
  rw [release, bind_assoc]
  refine Monitor.keeps_mortal_close (killableMonitor_lawful positive)
    (.fcntl .unlock bhandle.offset bhandle.size) (fun _ => rfl) holds (fun now seen fine => ?_)
    (keeps_killed_inside positive holds entered passes) fun left reply after settled => ?_
  · obtain ⟨same, still, -⟩ :=
      @closes_release ι _ machine bhandle errands process number entry rval now
      entered (ran.trans (view seen)) fine.2
    exact ⟨same, still, entered, .inr (congrArg Prod.snd (ran.trans (view seen)))⟩
  · cases reply with
    | none =>
      refine @keeps_answer _ _ _ _ _ _ _ _ _ _ _ positive
        (pure ()) rval trivial Stage.left_away settled ?_
      rintro rfl
      exact ⟨_, _, rfl, ran⟩
    | some errno =>
      dsimp only
      rw [bind_assoc]
      exact keeps_answer positive (only_perform trivial) Stage.left_away settled RndError.noConfusion

/-- A call of `rnd_lock_area` whose process may be killed in it, and stands outside in front of it,
settled. -/
theorem keeps_life (positive : 0 < (areaOf bhandle).size) (settled : shared.Settled process)
    (lifetime : Nat) :
    Keeps (killablePosix machine process)
      ((killableMonitor machine bhandle errands).discipline α process)
      ((errands process number).life lifetime number) ⟨number, .outside⟩ shared
      (Departed machine errands process) := by
  have lawful := @killableMonitor_lawful ι _ machine bhandle errands positive
  have killed (now : Shared ι) (still : now.Settled process) :=
    @keeps_killed ι _ machine bhandle errands
    α process number now .outside positive Stage.outside_away still
  refine Monitor.keeps_mortal_quiet lawful (unmarked_waiting (errands process number).waiting)
    Stage.outside_away settled killed fun _ left ready settled => ?_
  rw [rndLockArea_eq, bind_assoc]
  refine Monitor.keeps_mortal_quiet lawful (unmarked_waiting (only_perform trivial))
    Stage.outside_away settled killed fun _ left asking settled => ?_
  rw [bind_assoc]
  refine Monitor.keeps_mortal_open lawful (.fcntl .writeLock bhandle.offset bhandle.size) trivial
    settled (killed _ settled) (fun left reply after opens holds entered => ?_)
    (fun left reply after refused settled => ?_)
  · cases reply with
    | some errno => exact Mark.noConfusion (show Mark.plain = .opens from opens)
    | none =>
      dsimp only
      rw [bind_assoc]
      refine Monitor.keeps_mortal_body lawful (errands process number).working_body rfl holds
        (fun moment among => ⟨entered, moment, among, rfl, rfl⟩)
        (fun _ held passes => keeps_killed_inside positive held entered passes)
        fun rval left _ held ran => ?_
      exact keeps_mortal_release positive held entered ran
  · cases reply with
    | none => exact absurd areaMark_granted refused
    | some errno =>
      dsimp only
      split
      · exact @keeps_answer _ _ _ _ _ _ _ _ _ _ _ positive
          (pure ()) .lockFailed trivial Stage.outside_away
          settled RndError.noConfusion
      · rw [bind_assoc]
        exact keeps_answer positive
          (only_perform trivial) Stage.outside_away settled RndError.noConfusion

end Area

/-! ## All processes -/

section Runs

variable {ι : Type} [DecidableEq ι] (machine : ι → Machine) {bhandle : BlockLoc}
variable (errands : ι → Nat → Errand bhandle) (lifetimes : ι → Nat → Nat)

variable {machine errands lifetimes} {past : List (Act ι Call Answer Parted (Shared ι))}
variable {shared : Shared ι} {pool : Pool ι Call Answer Stop Parted (Shared ι)}

end Runs

/-! ## What a killed process leaves -/

/-- What a program leaves on every platform of a kind, also where its calls end at some time, holds
of the disk in every state that its runs pass through, from a stream that holds nothing. -/
theorem passes_leaves {α : Type} {program : Prog α} {platform : Platform} {entry now : World}
    {safe : Platform → Prop} (known : safe platform) (durable : platform.Durable)
    (ends : ∀ time, safe platform → safe (platform.endedAt time)) (holds : List UInt8 → Prop)
    (allowed : ∀ platform, safe platform →
      UnderFaults platform entry.file program fun _ after _ => holds after)
    (completes : ∀ platform, Completes platform entry.file program) (entered : entry.held = [])
    (passes : Passes (posix platform) program entry now) : holds now.disk := by
  have each := at_every_moment holds durable (fun time => allowed _ (ends time known))
    (fun time => completes (platform.endedAt time)) (rfl : entry.file = _)
  have last : holds (run (posix platform) program entry).2.file := by
    obtain ⟨value, after, completed⟩ := completes platform _ entry rfl rfl (durable.lossless _)
    rw [completed]
    exact allowed platform known entry rfl value after completed (durable.lossless _)
  have first : holds entry.disk := World.file_of_empty entered ▸ holds_start each last
  obtain ⟨moments, final⟩ := on_disk first each last
  rcases passes with ⟨moment, among, rfl⟩ | rfl
  · exact moments moment among
  · exact final

/-! ## Records -/

/-- An insertion by a process that makes no more calls than its lifetime has. A search for a record
in the root takes one round, and the callback always answers. -/
structure FrailInserter (recSize : UInt32) extends Inserter recSize where
  lifetime : Nat
  searches : fuel ≠ 0
  answers : ∀ htable offset, (user handle htable offset).Answers fun _ => True

section Table

variable {chunkSize recSize : UInt32} {table : RecordTable chunkSize recSize} {platform : Platform}
variable {entry now : World}

/-- In every state that the part of an insertion under the lock passes through, the disk holds the
table with the record or without it. -/
theorem Represents.passed (represents : Represents table entry.disk) (free : table.Free)
    (inserter : FrailInserter recSize) (durable : platform.Durable) (whole : platform.WholeNumbers)
    (entered : entry.held = []) (passes : Passes (posix platform) inserter.errand.body entry now) :
    Represents table now.disk ∨ Represents (table.insert inserter.record free) now.disk := by
  rw [← World.file_of_empty entered] at represents
  obtain ⟨fuel, enough⟩ := Nat.exists_eq_succ_of_ne_zero inserter.searches
  have body : inserter.errand.body = lockedData inserter.handle rootArea
      (flatrecsGetNextOffsetLockCallback (fuel + 1) inserter.user) := by
    rw [← Nat.succ_eq_add_one, ← enough]
    rfl
  rw [body] at passes
  refine passes_leaves whole durable (fun time known => known.endedAt time)
    (fun file => Represents table file ∨ Represents (table.insert inserter.record free) file)
    (fun _ known => ?_) (fun _ => represents.completes_locked free inserter.answers) entered passes
  exact (represents.locked free (inserter.stores _) known).mono fun _ _ _ inserts =>
    inserts.imp_left And.left

end Table

section Runs

variable {ι : Type} [DecidableEq ι] (machine : ι → Machine) {chunkSize recSize : UInt32}
variable (inserters : ι → Nat → FrailInserter recSize)

variable {machine inserters} {table : RecordTable chunkSize recSize} {shared : Shared ι}
variable {past : List (Act ι Call Answer Parted (Shared ι))}
variable {pool : Pool ι Call Answer Stop Parted (Shared ι)}

end Runs

/-! ## A process that is killed under the lock -/

end Recnodb
