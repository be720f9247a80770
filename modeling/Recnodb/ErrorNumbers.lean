import Recnodb.Database
import Recnodb.Flatrecs
import Recnodb.Chains
import Recnodb.Interaction.Traces
import Recnodb.LockDiscipline

/-!
# Error numbers and their texts

The function `rnd_strerror` of `extra.c` and what its texts are about. A function that
answers with `RND_SYSTEM_ERROR` has copied the error number right behind the call that
failed, and nothing cleared or copied over it since; so the text of the handle is that of
the failed call.
-/

namespace Recnodb

open Interaction Program

/-- The value of an error code. -/
def RndError.code : RndError → UInt32
  | .success => 0
  | .fail => 1
  | .systemError => 2
  | .invalidRecnodbFile => 3
  | .badParameter => 4
  | .missingFhead => 5
  | .fileAlreadyOpen => 6
  | .fileNotOpen => 7
  | .extinctRecord => 8
  | .attemptToOrphanBlock => 9
  | .reachedEndOfBlockChain => 10
  | .lockFailed => 11
  | .unlockFailed => 12
  | .lockReadFailed => 13
  | .unlockWriteFailed => 14
  | .incompleteRead => 15
  | .incompleteWrite => 16
  | .invalidBlockSize => 17
  | .invalidBlockLocation => 18
  | .invalidHeadFile => 19

/-- `RND_ERROR_LIMIT`. -/
def rndErrorLimit : UInt32 := 20

/-- `rnd_error_strings`. -/
def rndErrorStrings : List String :=
  ["No error",
   "Generic Failure",
   "System Error",
   "Invalid RecNoDB file",
   "Bad Parameter",
   "Missing FHEAD Parameter",
   "Attempted to Open Already Opened Database",
   "File Not Open",
   "Extinct Record",
   "Attempt to Orphan Block",
   "Reached End of Block Chain",
   "Lock Failed",
   "Unlock Failed",
   "Lock Read Failed",
   "Unlock Write Failed",
   "Incomplete Read",
   "Incomplete Write",
   "Invalid Block Size",
   "Invalid Block Location",
   "Invalid File Head"]

/-- The text of a number that the table does not have. -/
def outOfRange : String := "Out-of-range Error Number"

/-- Of the handle only `sys_errno` is used; `none` is the null pointer. -/
def rndStrerror (strerror : Int → String) (errno : Int) (err : UInt32) (handle : Option Int) :
    String :=
  if err = RndError.systemError.code then
    match handle with
    | some sysErrno => strerror sysErrno
    | none => if errno ≠ 0 then strerror errno else outOfRange
  else if err < rndErrorLimit then rndErrorStrings.getD err.toNat outOfRange
  else outOfRange

/-- The text of every other code is its own, whatever the handle holds. -/
theorem rndStrerror_listed {strerror : Int → String} {errno : Int} {handle : Option Int}
    {rval : RndError} (other : rval ≠ .systemError) :
    rndErrorStrings[rval.code.toNat]? = some (rndStrerror strerror errno rval.code handle) := by
  cases rval <;> first | rfl | exact absurd rfl other

/-- No two codes share a text, and none has the text of a number out of range. -/
theorem rndErrorStrings_distinct : (outOfRange :: rndErrorStrings).Nodup := by decide

/-! ## What a run leaves in `sys_errno` -/

/-- The reply to a call reports a failure. -/
def Call.fails (request : Call) (reply : Answer request) : Bool :=
  failedCall (σ := Unit) ⟨(), request, reply⟩

/-- A moment is a failed call if its reply tells of a failure. -/
theorem failedCall_eq {σ : Type} (moment : Moment Call Answer σ) :
    failedCall moment = moment.request.fails moment.reply := by
  obtain ⟨before, request, reply⟩ := moment
  cases request <;> rfl

/-- Where the number in `sys_errno` is from: it is what the run found, it was cleared, it
was copied right behind a failed call, or it was copied elsewhere. -/
inductive Origin where
  | found
  | cleared
  | failure
  | elsewhere
deriving DecidableEq, Repr

/-- Whether the last call failed, and what `sys_errno` holds. -/
structure ErrorPhase where
  failed : Bool
  kept : Origin
deriving DecidableEq, Repr

/-- What a call makes of what is known of the error numbers. -/
def ErrorPhase.advance (phase : ErrorPhase) : (request : Call) → Answer request → ErrorPhase
  | .primeHandle, _ => ⟨false, .cleared⟩
  | .keepErrno, _ => ⟨false, if phase.failed then .failure else .elsewhere⟩
  | request, reply => ⟨request.fails reply, phase.kept⟩

/-- The tracer of the error numbers: every call is allowed. -/
def errnoTracer : Tracer Call Answer Stop ErrorPhase where
  allowed _ _ := True
  halts _ := True
  advance := ErrorPhase.advance

/-- A code against a phase: a system error is a number copied behind a failed call, and
with any other code `sys_errno` has the other origin. -/
def Accounts (otherwise : Origin) (rval : RndError) (phase : ErrorPhase) : Prop :=
  phase.kept = if rval = .systemError then .failure else otherwise

section Accounts

variable {α : Type} {phase : ErrorPhase} {offset : OffT} {size : Nat} {bytes block : List UInt8}
variable {infoLen : Nat} {handle : Rndh} {bdef : RndBlockDef}

/-- Calls that neither clear nor copy the number. -/
def Call.Silent : Call → Prop
  | .primeHandle => False
  | .keepErrno => False
  | _ => True

/-- A silent call leaves the number of the handle. -/
theorem ErrorPhase.advance_silent {request : Call} (silent : request.Silent)
    (reply : Answer request) :
    phase.advance request reply = ⟨request.fails reply, phase.kept⟩ := by
  cases request <;> first | rfl | exact silent.elim

/-- The rule for a call that neither clears nor copies. -/
theorem traced_silent {request : Call} {rest : Answer request → Prog α}
    {post : α → ErrorPhase → Prop} (silent : request.Silent)
    (each : ∀ reply, (rest reply).Traced errnoTracer ⟨request.fails reply, phase.kept⟩ post) :
    (issue request >>= rest).Traced errnoTracer phase post :=
  Traced.call trivial fun reply => by
    have rest := each reply
    rwa [← ErrorPhase.advance_silent silent] at rest

/-- The number of a call that failed is copied. -/
theorem traced_kept {rest : Unit → Prog α} {post : α → ErrorPhase → Prop}
    (failed : phase.failed = true)
    (each : (rest ()).Traced errnoTracer ⟨false, .failure⟩ post) :
    (keepErrno >>= rest).Traced errnoTracer phase post :=
  Traced.call trivial fun _ => by
    have same : errnoTracer.advance phase .keepErrno () = ⟨false, .failure⟩ := by
      simp [errnoTracer, ErrorPhase.advance, failed]
    rw [same]
    exact each

/-- Behind the clearing, the number of the handle is cleared. -/
theorem traced_primed {rest : Unit → Prog α} {post : α → ErrorPhase → Prop}
    (each : (rest ()).Traced errnoTracer ⟨false, .cleared⟩ post) :
    (primeHandle >>= rest).Traced errnoTracer phase post :=
  Traced.call trivial fun _ => each

/-- An assertion makes no call, and what follows it may use it. -/
theorem traced_cAssert {fact : Bool} {rest : Unit → Prog α} {post : α → ErrorPhase → Prop}
    (each : fact = true → (rest ()).Traced errnoTracer phase post) :
    (cAssert fact >>= rest).Traced errnoTracer phase post := by
  cases fact with
  | false => trivial
  | true => exact each rfl

/-- The common end of an error path. -/
theorem accounts_kept {otherwise : Origin} (failed : phase.failed = true) :
    (keepErrno >>= fun _ => pure .systemError : Prog RndError).Traced errnoTracer phase
      (Accounts otherwise) :=
  traced_kept failed rfl

/-- The common end of the writing functions. -/
theorem accounts_outcome {written : Bool} (failed : written = false → phase.failed = true) :
    (if written then pure .success
      else keepErrno >>= fun _ => pure .systemError : Prog RndError).Traced errnoTracer phase
      (Accounts phase.kept) := by
  cases written with
  | true => rfl
  | false => exact accounts_kept (failed rfl)

/-- A transfer leaves the number; when it delivers nothing, its last call failed. -/
theorem traced_seekRead : (seekRead offset size).Traced errnoTracer phase fun read after =>
    after.kept = phase.kept ∧ (read = none → after.failed = true) := by
  refine traced_silent trivial fun found => ?_
  cases found with
  | false => exact ⟨rfl, fun _ => rfl⟩
  | true => exact ⟨trivial, fun read => ⟨rfl, fun nothing => by subst nothing; rfl⟩⟩

/-- A write at an offset leaves the number of the handle, and fails by its last call. -/
theorem traced_seekWrite : (seekWrite offset bytes).Traced errnoTracer phase fun written after =>
    after.kept = phase.kept ∧ (written = false → after.failed = true) := by
  refine traced_silent trivial fun found => ?_
  cases found with
  | false => exact ⟨rfl, fun _ => rfl⟩
  | true => exact ⟨trivial, fun written => ⟨rfl, fun nothing => by subst nothing; rfl⟩⟩

/-- The memory next to a buffer is read between calls that may fail. -/
theorem traced_bufferBytes {count : Nat} : (bufferBytes block count).Traced errnoTracer phase
    fun _ after => after.kept = phase.kept := by
  rw [bufferBytes]
  split
  · rfl
  · exact traced_silent trivial fun _ => rfl

/-! ## The functions -/

/-- The read of a header accounts for its code. -/
theorem accounts_blocksReadBlockHead : (blocksReadBlockHead offset block infoLen).Traced errnoTracer
    phase fun result => Accounts phase.kept result.1 := by
  refine Traced.bind traced_seekRead fun read after ⟨same, failed⟩ => ?_
  cases read with
  | none => exact traced_kept (failed rfl) rfl
  | some bytes => exact same

/-- The write of a header accounts for its code. -/
theorem accounts_blocksWriteBlockHead : (blocksWriteBlockHead offset block infoLen).Traced
    errnoTracer phase (Accounts phase.kept) := by
  unfold blocksWriteBlockHead
  refine traced_silent trivial fun found => ?_
  cases found with
  | false => exact accounts_kept rfl
  | true =>
    rw [if_pos rfl]
    refine Traced.bind traced_bufferBytes fun taken after same => ?_
    refine traced_silent trivial fun written => ?_
    rw [same]
    exact accounts_outcome fun nothing => by subst nothing; rfl

/-- The code of a function that delivers a value on success only. -/
def codeOf : Except RndError α → RndError
  | .ok _ => .success
  | .error rval => rval

/-- The step to the next header accounts for its code. -/
theorem accounts_blocksGetNextBlockHead {ib : InfoBlock} : (blocksGetNextBlockHead ib).Traced
    errnoTracer phase fun next => Accounts phase.kept (codeOf next) := by
  rw [blocksGetNextBlockHead]
  split
  · refine Traced.bind traced_seekRead fun read after ⟨same, failed⟩ => ?_
    cases read with
    | none => exact traced_kept (failed rfl) rfl
    | some bytes => exact same
  · rfl

/-- Writing the end of a block accounts for its code. -/
theorem accounts_writeEndOfBlock {bytesToAdd : UInt64} : (writeEndOfBlock bytesToAdd offset).Traced
    errnoTracer phase (Accounts phase.kept) := by
  unfold writeEndOfBlock
  refine traced_silent trivial fun found => ?_
  cases found with
  | false => exact accounts_kept rfl
  | true =>
    rw [if_pos rfl]
    refine traced_silent trivial fun written => ?_
    cases written with
    | false => exact accounts_kept rfl
    | true => exact traced_silent trivial fun back => accounts_outcome fun lost => by subst lost; rfl

/-- An extension of the file accounts for its code, from a number that it clears. -/
theorem accounts_blocksExtendFile {bytesToAdd : UInt64} : (blocksExtendFile handle bytesToAdd).Traced
    errnoTracer phase (Accounts .cleared) := by
  refine traced_cAssert fun _ => traced_primed <| traced_silent trivial fun found => ?_
  cases found with
  | false => exact accounts_kept rfl
  | true =>
    refine traced_silent trivial fun location => ?_
    split
    · exact accounts_writeEndOfBlock
    · rfl

/-- The header buffer is prepared without a call. -/
theorem traced_blocksSetInfoBlockStruct {blockHeadSize : Nat} :
    (blocksSetInfoBlockStruct blockHeadSize bdef).Traced errnoTracer phase fun _ after =>
      after = phase := by
  refine traced_cAssert fun _ => ?_
  split
  · split
    · exact traced_cAssert fun _ => rfl
    · rfl
  · rfl

/-- The write of a new header accounts for its code. -/
theorem accounts_writeNewHead : (writeNewHead offset bdef).Traced errnoTracer phase
    (Accounts phase.kept) := by
  refine Traced.bind traced_blocksSetInfoBlockStruct fun blockbuff after same => ?_
  subst same
  exact accounts_blocksWriteBlockHead

/-- The measurements leave the number; without a position of the end, the last one failed. -/
theorem traced_measureEnd : measureEnd.Traced errnoTracer phase fun measured after =>
    after.kept = phase.kept ∧ (measured.2 = -1 → after.failed = true) := by
  refine traced_silent trivial fun original => ?_
  split
  · rename_i nowhere
    exact ⟨rfl, fun _ => decide_eq_true nowhere⟩
  · refine traced_silent trivial fun found => ?_
    cases found with
    | false => exact ⟨rfl, fun _ => rfl⟩
    | true => exact traced_silent trivial fun position => ⟨rfl, fun nowhere => decide_eq_true nowhere⟩

/-- The end of an append: a seek whose outcome is not looked at. -/
theorem accounts_restored {rval : RndError} {place : BlockLoc}
    (accounts : Accounts .cleared rval phase) :
    (fseek offset .seekSet >>= fun _ =>
      if rval = .success then pure (.success, { bdef with newBlock := place })
      else pure (rval, bdef) : Prog (RndError × RndBlockDef)).Traced errnoTracer phase
      fun result => Accounts .cleared result.1 := by
  refine traced_silent trivial fun _ => ?_
  split
  · rename_i succeeded
    subst succeeded
    exact accounts
  · exact accounts

/-- The body of an append accounts for its code, from a number that it clears. -/
theorem accounts_appendBlock : (appendBlock handle bdef).Traced errnoTracer phase
    fun result => Accounts .cleared result.1 := by
  refine traced_cAssert fun _ => traced_primed <| Traced.bind traced_measureEnd ?_
  rintro ⟨original, position⟩ after ⟨same, failed⟩
  dsimp only
  split
  · rename_i nowhere
    refine traced_kept (failed nowhere) ?_
    split
    · exact traced_silent trivial fun _ => rfl
    · rfl
  · refine Traced.bind accounts_blocksExtendFile fun rval after accounts => ?_
    split
    · have cleared : after.kept = .cleared := accounts
      exact Traced.bind (cleared ▸ accounts_writeNewHead) fun _ _ => accounts_restored
    · exact accounts_restored accounts

/-- An append accounts for its code, from a number that it clears. -/
theorem accounts_blocksAppendBlock : (blocksAppendBlock handle bdef).Traced errnoTracer phase
    fun result => Accounts .cleared result.1 := by
  refine traced_silent trivial fun _ =>
    Traced.bind accounts_appendBlock fun result after accounts => ?_
  exact traced_silent trivial fun _ => accounts

/-- The linking of a new block accounts for its code. -/
theorem accounts_linkNewBlock : (linkNewBlock offset bdef).Traced errnoTracer phase
    (Accounts phase.kept) := by
  refine Traced.bind traced_blocksSetInfoBlockStruct fun blockbuff after same => ?_
  subst same
  refine Traced.bind accounts_blocksReadBlockHead fun read between accounts => ?_
  obtain ⟨rval, ib⟩ := read
  dsimp only at accounts ⊢
  split
  · exact accounts
  · rename_i succeeded
    obtain rfl : rval = .success := not_not.mp succeeded
    have same : between.kept = after.kept := accounts
    split
    · exact same
    · exact same ▸ accounts_blocksWriteBlockHead

/-- An extension of a chain accounts for its code, from a number that it clears. -/
theorem accounts_blocksExtendChain : (blocksExtendChain handle offset bdef).Traced errnoTracer phase
    fun result => Accounts .cleared result.1 := by
  refine traced_primed <| Traced.bind accounts_blocksAppendBlock fun appended after accounts => ?_
  obtain ⟨rval, bdef⟩ := appended
  dsimp only at accounts ⊢
  split
  · exact accounts
  · rename_i succeeded
    obtain rfl : rval = .success := not_not.mp succeeded
    have cleared : after.kept = .cleared := accounts
    exact Traced.bind (cleared ▸ accounts_linkNewBlock) fun rval after accounts => accounts

/-- The preparation of a file header makes no call. -/
theorem traced_blocksPrepHeadFile {blockSize chunkSize recSize : UInt32} :
    (blocksPrepHeadFile blockSize chunkSize recSize).Traced errnoTracer phase fun _ after =>
      after = phase :=
  traced_cAssert fun _ => rfl

/-- The header that an opening fills; closing the stream later copies nothing. -/
theorem accounts_headOfOpenedFile {createMode : Bool} {chunkSize recSize : UInt32} :
    (headOfOpenedFile createMode chunkSize recSize handle).Traced errnoTracer phase
      fun result => Accounts phase.kept result.1 := by
  have failing {after : ErrorPhase} {otherwise : Origin} (failed : after.failed = true) :
      (keepErrno >>= fun _ => pure (.systemError, handle) : Prog (RndError × Rndh)).Traced errnoTracer
        after fun result => Accounts otherwise result.1 := traced_kept failed rfl
  unfold headOfOpenedFile
  cases createMode with
  | false =>
    refine traced_silent trivial fun read => ?_
    cases read with
    | none => exact failing rfl
    | some bytes => rfl
  | true =>
    refine traced_silent trivial fun found => ?_
    cases found with
    | false => exact failing rfl
    | true =>
      refine traced_silent trivial fun reserved => ?_
      cases reserved with
      | false => exact failing rfl
      | true =>
        refine traced_silent trivial fun back => ?_
        cases back with
        | false => exact failing rfl
        | true =>
          refine Traced.bind traced_blocksPrepHeadFile fun headFile after same => ?_
          refine traced_silent trivial fun written => ?_
          cases written with
          | false => exact failing rfl
          | true =>
            have kept : after.kept = phase.kept := by rw [same]
            exact kept

/-- An opening accounts for its code, from a number that it clears. -/
theorem accounts_blocksFileOpen {flags chunkSize recSize : UInt32} :
    (blocksFileOpen flags chunkSize recSize).Traced errnoTracer phase
      fun result => Accounts .cleared result.1 := by
  refine traced_primed <| traced_silent trivial fun stream => ?_
  cases stream with
  | none => exact traced_kept rfl rfl
  | some f =>
    refine Traced.bind accounts_headOfOpenedFile fun filled after accounts => ?_
    obtain ⟨rval, filled⟩ := filled
    dsimp only at accounts ⊢
    split
    · exact traced_silent trivial fun _ => accounts
    · rename_i succeeded
      obtain rfl : rval = .success := not_not.mp succeeded
      have cleared : after.kept = .cleared := accounts
      split
      · refine traced_silent trivial fun _ => ?_
        have refused : blocksValidateHandle (some { filled with file := some f }) ≠ .systemError := by
          rw [blocksValidateHandle, if_neg (Option.some_ne_none f), blocksValidateHeadFile]
          split <;> exact RndError.noConfusion
        exact cleared.trans (if_neg refused).symm
      · exact cleared

/-- A link accounts for its code. -/
theorem accounts_chainsAddLink {loc : BlockLoc} : (chainsAddLink offset loc).Traced errnoTracer phase
    (Accounts phase.kept) := by
  refine Traced.bind traced_seekRead fun read after ⟨same, failed⟩ => ?_
  cases read with
  | none => exact accounts_kept (failed rfl)
  | some bytes =>
    dsimp only
    split
    · exact same
    · refine Traced.bind traced_seekWrite fun written between ⟨kept, lost⟩ => ?_
      rw [← same, ← kept]
      exact accounts_outcome lost

/-- The closing of a handle accounts for its code. -/
theorem accounts_rndCloseRaw : (rndCloseRaw handle).Traced errnoTracer phase
    fun result => Accounts phase.kept result.1 := by
  unfold rndCloseRaw
  split
  · exact traced_silent trivial fun _ => rfl
  · rfl

/-! ## With callbacks, and the search -/

/-- A system error is a number copied behind a failed call. -/
def Blames (rval : RndError) (phase : ErrorPhase) : Prop :=
  rval = .systemError → phase.kept = .failure

/-- A code that is accounted for blames a call if it is a system error. -/
theorem Accounts.blames {otherwise : Origin} {rval : RndError}
    (accounts : Accounts otherwise rval phase) : Blames rval phase :=
  fun system => accounts.trans (if_pos system)

/-- A code that is no system error blames no call. -/
theorem blames_other {rval : RndError} (other : rval ≠ .systemError) : Blames rval phase :=
  fun system => absurd system other

/-- Whatever a program does, what follows may start in any phase. -/
theorem traced_any {β : Type} {program : Prog α} {rest : α → Prog β} {post : β → ErrorPhase → Prop}
    (each : ∀ value after, (rest value).Traced errnoTracer after post) :
    (program >>= rest).Traced errnoTracer phase post :=
  Traced.bind (Traced.free (fun _ _ => trivial) (fun _ => trivial) program phase) fun value after
    _ => each value after

/-- A walk that answers a system error has kept the number of its failed call. -/
theorem blames_chainsWalk {κ : Type} {fuel : Nat} {viewer : BlockWalkView κ} {closure : κ} :
    (chainsWalk fuel offset viewer closure).Traced errnoTracer phase fun result =>
      Blames result.1 := by
  refine Traced.bind traced_seekRead fun read after ⟨_, failed⟩ => ?_
  cases read with
  | none => exact traced_kept (failed rfl) fun _ => rfl
  | some bytes =>
    refine Traced.iterate (fun _ _ => True) trivial ?_ fuel trivial
    rintro ⟨curblock, offBlock, closure⟩ phase -
    refine traced_any ?_
    rintro ⟨more, curblock, closure⟩ after
    cases more with
    | false => exact blames_other RndError.noConfusion
    | true =>
      simp only [if_pos]
      split
      · exact blames_other RndError.noConfusion
      · refine Traced.bind traced_seekRead fun read after ⟨_, failed⟩ => ?_
        cases read with
        | none => exact traced_kept (failed rfl) fun _ => rfl
        | some bytes => trivial

/-- Only the first seek answers with a system error; its number is copied at once. -/
theorem blames_lockedData {bhandle : BlockLoc} {callback : LockCallback} :
    (lockedData handle bhandle callback).Traced errnoTracer phase Blames := by
  have restored {saved : OffT} {rval : RndError} (other : rval ≠ .systemError) (after : ErrorPhase) :
      (fseek saved .seekSet >>= fun _ => pure rval : Prog RndError).Traced errnoTracer after Blames :=
    traced_silent trivial fun _ => blames_other other
  refine traced_silent trivial fun saved => traced_silent trivial fun found => ?_
  cases found with
  | false => exact traced_kept rfl fun _ => rfl
  | true =>
    refine traced_silent trivial fun read => ?_
    cases read with
    | none => exact restored RndError.noConfusion _
    | some buffer =>
      refine traced_any ?_
      rintro ⟨changed, buffer⟩ after
      dsimp only
      split
      · refine traced_any fun written after => ?_
        split <;> exact restored RndError.noConfusion _
      · exact restored RndError.noConfusion _

/-- So has the release of a lock. -/
theorem blames_release {bhandle : BlockLoc} {rval : RndError} (blames : Blames rval phase) :
    (release bhandle rval).Traced errnoTracer phase Blames := by
  refine traced_silent trivial fun refused => ?_
  cases refused with
  | none => exact blames
  | some errno => exact traced_kept rfl fun _ => rfl

/-- So has a locked area, whatever its callback does. -/
theorem blames_rndLockArea {bhandle : BlockLoc} {retrieveData : Bool} {callback : LockCallback} :
    (rndLockArea handle bhandle retrieveData callback).Traced errnoTracer phase Blames := by
  rw [rndLockArea_eq]
  refine traced_primed <| traced_silent trivial fun refused => ?_
  cases refused with
  | some errno =>
    dsimp only
    split
    · exact blames_other RndError.noConfusion
    · exact traced_kept rfl fun _ => rfl
  | none =>
    refine Traced.bind ?_ fun _ _ => blames_release
    cases retrieveData with
    | false => exact traced_any fun _ _ => blames_other RndError.noConfusion
    | true => exact blames_lockedData

/-- So has the next-offset function. -/
theorem blames_flatrecsGetNextOffset {fuel : Nat} {user : FlatrecsUseNewRecord} :
    (flatrecsGetNextOffset fuel handle offset user).Traced errnoTracer phase Blames :=
  traced_cAssert fun _ => traced_primed blames_rndLockArea

/-- So has a record search. -/
theorem blames_flatrecsMakeOffsetToRecno {fuel : Nat} {bloc : BlockLoc} {htable : RndHeadTable}
    {recno : UInt32} : (flatrecsMakeOffsetToRecno fuel handle bloc htable recno).Traced errnoTracer
      phase fun result => Blames result.1 := by
  refine Traced.iterate (fun _ _ => True) trivial ?_ fuel trivial
  rintro search phase -
  unfold searchRound
  dsimp only
  split
  · exact blames_other RndError.noConfusion
  · refine Traced.bind accounts_blocksGetNextBlockHead fun next after accounts => ?_
    split
    · trivial
    · -- whatever the extension leaves, only the header of the new block may fail to be read
      unfold extendForRecord
      refine traced_any fun _ _ => traced_any fun extended _ => traced_any fun _ between => ?_
      dsimp only
      split
      · refine Traced.bind accounts_blocksReadBlockHead fun read last accounts => ?_
        split
        · exact accounts.blames
        · trivial
      · trivial
    · exact accounts.blames

/-- So has a session, whatever its user does. -/
theorem blames_blocksFileUse {flags chunkSize recSize : UInt32} {user : RndUser} :
    (blocksFileUse flags chunkSize recSize user).Traced errnoTracer phase Blames := by
  refine Traced.bind accounts_blocksFileOpen fun opened after accounts => ?_
  obtain ⟨rval, handle⟩ := opened
  dsimp only at accounts ⊢
  split
  · rename_i succeeded
    subst succeeded
    exact traced_any fun _ _ => traced_any fun _ _ => blames_other RndError.noConfusion
  · exact accounts.blames

end Accounts

/-! ## Every operation -/

/-- The functions that answer with a code, each with what `sys_errno` holds when the code is
not a system error: it is as it was found, or cleared; callbacks and the repeated attempts
of a search may leave other numbers. -/
inductive Operation : Origin → Prog RndError → Prop
  | blocksReadBlockHead (offset : OffT) (block : List UInt8) (infoLen : Nat) :
      Operation .found (Prod.fst <$> blocksReadBlockHead offset block infoLen)
  | blocksGetNextBlockHead (block : InfoBlock) :
      Operation .found (codeOf <$> blocksGetNextBlockHead block)
  | blocksWriteBlockHead (offset : OffT) (block : List UInt8) (infoLen : Nat) :
      Operation .found (blocksWriteBlockHead offset block infoLen)
  | blocksExtendFile (handle : Rndh) (bytesToAdd : UInt64) :
      Operation .cleared (blocksExtendFile handle bytesToAdd)
  | blocksAppendBlock (handle : Rndh) (bdef : RndBlockDef) :
      Operation .cleared (Prod.fst <$> blocksAppendBlock handle bdef)
  | blocksExtendChain (handle : Rndh) (chainEnd : OffT) (bdef : RndBlockDef) :
      Operation .cleared (Prod.fst <$> blocksExtendChain handle chainEnd bdef)
  | blocksFileOpen (flags chunkSize recSize : UInt32) :
      Operation .cleared (Prod.fst <$> blocksFileOpen flags chunkSize recSize)
  | blocksFileUse (flags chunkSize recSize : UInt32) (user : RndUser) :
      Operation .elsewhere (blocksFileUse flags chunkSize recSize user)
  | rndOpenRaw (reclen : Int32) (flags : UInt32) :
      Operation .cleared (Prod.fst <$> rndOpenRaw reclen flags)
  | rndOpen (stat : Option UInt64) (reclen : Int32) (flags : UInt32) (user : RndUser) :
      Operation .elsewhere (rndOpen stat reclen flags user)
  | rndCloseRaw (handle : Rndh) : Operation .found (Prod.fst <$> rndCloseRaw handle)
  | chainsAddLink (parent : OffT) (newLink : BlockLoc) :
      Operation .found (chainsAddLink parent newLink)
  | chainsWalk {κ : Type} (fuel : Nat) (block : OffT) (viewer : BlockWalkView κ) (closure : κ) :
      Operation .elsewhere (Prod.fst <$> chainsWalk fuel block viewer closure)
  | chainsLastLink (fuel : Nat) (link : OffT) :
      Operation .elsewhere (Prod.fst <$> chainsLastLink fuel link)
  | rndLockArea (handle : Rndh) (bhandle : BlockLoc) (retrieveData : Bool)
      (callback : LockCallback) :
      Operation .elsewhere (rndLockArea handle bhandle retrieveData callback)
  | flatrecsMakeOffsetToRecno (fuel : Nat) (handle : Rndh) (bloc : BlockLoc)
      (htable : RndHeadTable) (recno : UInt32) :
      Operation .elsewhere (Prod.fst <$> flatrecsMakeOffsetToRecno fuel handle bloc htable recno)
  | flatrecsGetNextOffset (fuel : Nat) (handle : Rndh) (tableHead : OffT)
      (user : FlatrecsUseNewRecord) :
      Operation .elsewhere (flatrecsGetNextOffset fuel handle tableHead user)

/-- The operations differ only in what they leave with another code. -/
def Tells (otherwise : Origin) (rval : RndError) (phase : ErrorPhase) : Prop :=
  Blames rval phase ∧ (rval ≠ .systemError → otherwise ≠ .elsewhere → phase.kept = otherwise)

/-- A code that is accounted for tells of its number. -/
theorem Accounts.tells {otherwise : Origin} {rval : RndError} {phase : ErrorPhase}
    (accounts : Accounts otherwise rval phase) : Tells otherwise rval phase :=
  ⟨accounts.blames, fun other _ => accounts.trans (if_neg other)⟩

/-- A code that blames a call tells of its number, and any other may leave it anywhere. -/
theorem Blames.tells {rval : RndError} {phase : ErrorPhase} (blames : Blames rval phase) :
    Tells .elsewhere rval phase :=
  ⟨blames, fun _ known => absurd rfl known⟩

/-- The code of a function that delivers more. -/
theorem traced_map {α : Type} {program : Prog α} {code : α → RndError} {phase : ErrorPhase}
    {post : RndError → ErrorPhase → Prop}
    (traced : program.Traced errnoTracer phase fun result => post (code result)) :
    (code <$> program).Traced errnoTracer phase post := by
  rw [map_eq_pure_bind]
  exact Traced.bind traced fun _ _ fits => fits

/-- Every operation tells of the number of its code. -/
theorem Operation.traced {otherwise : Origin} {program : Prog RndError}
    (operation : Operation otherwise program) :
    program.Traced errnoTracer ⟨false, .found⟩ (Tells otherwise) := by
  have accounting {otherwise : Origin} {program : Prog RndError}
      (accounts : program.Traced errnoTracer ⟨false, .found⟩ (Accounts otherwise)) :
      program.Traced errnoTracer ⟨false, .found⟩ (Tells otherwise) :=
    accounts.mono fun _ _ => Accounts.tells
  have blaming {program : Prog RndError}
      (blames : program.Traced errnoTracer ⟨false, .found⟩ Blames) :
      program.Traced errnoTracer ⟨false, .found⟩ (Tells .elsewhere) :=
    blames.mono fun _ _ => Blames.tells
  cases operation with
  | blocksReadBlockHead => exact accounting (traced_map accounts_blocksReadBlockHead)
  | blocksGetNextBlockHead => exact accounting (traced_map accounts_blocksGetNextBlockHead)
  | blocksWriteBlockHead => exact accounting accounts_blocksWriteBlockHead
  | blocksExtendFile => exact accounting accounts_blocksExtendFile
  | blocksAppendBlock => exact accounting (traced_map accounts_blocksAppendBlock)
  | blocksExtendChain => exact accounting (traced_map accounts_blocksExtendChain)
  | blocksFileOpen => exact accounting (traced_map accounts_blocksFileOpen)
  | blocksFileUse => exact blaming blames_blocksFileUse
  | rndOpenRaw => exact accounting (traced_map accounts_blocksFileOpen)
  | rndOpen => exact blaming blames_blocksFileUse
  | rndCloseRaw => exact accounting (traced_map accounts_rndCloseRaw)
  | chainsAddLink => exact accounting accounts_chainsAddLink
  | chainsWalk => exact blaming (traced_map blames_chainsWalk)
  | chainsLastLink => exact blaming (traced_map blames_chainsWalk)
  | rndLockArea => exact blaming blames_rndLockArea
  | flatrecsMakeOffsetToRecno => exact blaming (traced_map blames_flatrecsMakeOffsetToRecno)
  | flatrecsGetNextOffset => exact blaming blames_flatrecsGetNextOffset

/-! ## The number in the handle -/

/-- The error number a failed call leaves. Where no failure is injected, a read fails at the
end of file, which sets no number. -/
def leftErrno (platform : Platform) (world : World) (request : Call) : Int :=
  match platform.faults world.clock with
  | some fault => fault.errno
  | none =>
    match request with
    | .fread _ => world.errno
    | .fwrite _ => efbig
    | _ => einval

/-- The number was copied right behind a failed call, which had left it, and no later call
cleared or replaced it. -/
def Blamed (platform : Platform) (past : List (Moment Call Answer World)) (number : Int) : Prop :=
  ∃ front failed kept behind, past = front ++ failed :: kept :: behind ∧
    failedCall failed = true ∧ kept.request = .keepErrno ∧
    (∀ later ∈ behind, later.request.Silent) ∧
    number = leftErrno platform failed.before failed.request

section Runs

variable {platform : Platform} {world : World}

/-- A failed call leaves its number. -/
theorem posix_errno {request : Call}
    (failed : request.fails (posix platform request world).1 = true) :
    (posix platform request world).2.errno = leftErrno platform world request := by
  unfold posix leftErrno at *
  cases scheduled : platform.faults world.clock with
  | some fault =>
    rw [scheduled] at failed
    cases request <;> first | rfl | exact absurd failed Bool.false_ne_true
  | none =>
    rw [scheduled] at failed
    cases request with
    | fseek offset whence =>
      simp only [unfaulted] at failed ⊢
      split at failed
      · exact absurd failed Bool.false_ne_true
      · rename_i outside
        rw [if_neg outside]
        rfl
    | fread size =>
      simp only [unfaulted] at failed ⊢
      split at failed
      · exact absurd failed Bool.false_ne_true
      · rename_i outside
        rw [dif_neg outside]
        rfl
    | fwrite bytes =>
      simp only [unfaulted] at failed ⊢
      split at failed
      · exact absurd failed Bool.false_ne_true
      · rename_i outside
        rw [if_neg outside]
        rfl
    | fcntl type start len =>
      simp only [unfaulted] at failed ⊢
      split at failed
      · exact absurd failed Bool.false_ne_true
      · rename_i outside
        rw [if_neg outside]
        rfl
    | ftell =>
      have below : (world.position : Int) = -1 := of_decide_eq_true failed
      omega
    | _ => exact absurd failed Bool.false_ne_true

/-- Only clearing and copying change the number in the handle. -/
theorem posix_sysErrno {request : Call} (silent : request.Silent) :
    (posix platform request world).2.sysErrno = world.sysErrno := by
  unfold posix
  cases platform.faults world.clock with
  | some fault => cases request <;> first | rfl | exact silent.elim
  | none =>
    cases request with
    | primeHandle => exact silent.elim
    | keepErrno => exact silent.elim
    | _ => first | rfl | (simp only [unfaulted]; split <;> rfl)

/-- A phase tells of the calls so far what it says. -/
structure Followed (platform : Platform) (found : Int) (past : List (Moment Call Answer World))
    (phase : ErrorPhase) (world : World) : Prop where
  failed : phase.failed = true → ∃ front moment, past = front ++ [moment] ∧
    failedCall moment = true ∧ world.errno = leftErrno platform moment.before moment.request
  kept : match phase.kept with
    | .found => world.sysErrno = found
    | .cleared => world.sysErrno = 0
    | .failure => Blamed platform past world.sysErrno
    | .elsewhere => True

/-- A call that neither clears nor copies leaves what is known of the number. -/
theorem Followed.silent {found : Int} {past : List (Moment Call Answer World)} {phase : ErrorPhase}
    (followed : Followed platform found past phase world) {request : Call}
    (silent : request.Silent) :
    Followed platform found (past ++ [⟨world, request, (posix platform request world).1⟩])
      ⟨request.fails (posix platform request world).1, phase.kept⟩
      (posix platform request world).2 := by
  refine ⟨fun failed => ⟨past, _, rfl, (failedCall_eq _).trans failed, posix_errno failed⟩, ?_⟩
  have kept := followed.kept
  cases origin : phase.kept with
  | found =>
    rw [origin] at kept
    exact (posix_sysErrno silent).trans kept
  | cleared =>
    rw [origin] at kept
    exact (posix_sysErrno silent).trans kept
  | failure =>
    rw [origin] at kept
    obtain ⟨front, failed, copied, behind, rfl, fails, copies, quiet, number⟩ := kept
    refine ⟨front, failed, copied, behind ++ [⟨world, request, (posix platform request world).1⟩],
      by simp, fails, copies, ?_, (posix_sysErrno silent).trans number⟩
    intro later among
    rcases List.mem_append.mp among with before | last
    · exact quiet later before
    · obtain rfl := List.mem_singleton.mp last
      exact silent
  | elsewhere => trivial

/-- The next call is followed as well. -/
theorem Followed.call {found : Int} {past : List (Moment Call Answer World)} {phase : ErrorPhase}
    (followed : Followed platform found past phase world) (request : Call) :
    Followed platform found (past ++ [⟨world, request, (posix platform request world).1⟩])
      (errnoTracer.advance phase request (posix platform request world).1)
      (posix platform request world).2 := by
  cases request with
  | primeHandle =>
    exact ⟨fun failed => absurd failed Bool.false_ne_true, by rw [posix_primeHandle]; rfl⟩
  | keepErrno =>
    refine ⟨fun failed => absurd failed Bool.false_ne_true, ?_⟩
    cases last : phase.failed with
    | false =>
      simp only [errnoTracer, ErrorPhase.advance, last, Bool.false_eq_true, if_false]
    | true =>
      obtain ⟨front, moment, rfl, fails, number⟩ := followed.failed last
      simp only [errnoTracer, ErrorPhase.advance, last, if_true]
      exact ⟨front, moment, _, [], by rw [List.append_assoc]; rfl, fails, rfl,
        fun later among => absurd among List.not_mem_nil, by rw [posix_keepErrno]; exact number⟩
  | _ => exact followed.silent trivial

/-- What the code and the handle tell of a run. -/
structure ErrorTold (platform : Platform) (otherwise : Origin)
    (past : List (Moment Call Answer World)) (found : Int) (rval : RndError) (after : World) :
    Prop where
  /-- The text of a system error is that of a call of this run that failed. -/
  system : rval = .systemError → ∃ number, Blamed platform past number ∧
    ∀ strerror errno, rndStrerror strerror errno rval.code (some after.sysErrno) = strerror number
  /-- Every other code has a text of its own. -/
  listed : rval ≠ .systemError → ∀ strerror errno,
    rndErrorStrings[rval.code.toNat]? =
      some (rndStrerror strerror errno rval.code (some after.sysErrno))
  /-- With every other code, the number is the one found or zero. -/
  number : rval ≠ .systemError →
    (otherwise = .found → after.sysErrno = found) ∧ (otherwise = .cleared → after.sysErrno = 0)

/-- Whatever fails in a run of an operation, a system error is told with the number that the
failed call left, and no other code is taken for one. -/
theorem operation_told {otherwise : Origin} {program : Prog RndError}
    (operation : Operation otherwise program) {rval : RndError} {after : World}
    (completed : run (posix platform) program world = (.ok rval, after)) :
    ErrorTold platform otherwise (log (posix platform) program world) world.sysErrno rval after := by
  obtain ⟨blames, other⟩ := operation.traced.run (posix platform) completed
  have initially : Followed platform world.sysErrno [] ⟨false, .found⟩ world :=
    ⟨fun failed => absurd failed Bool.false_ne_true, rfl⟩
  have followed := errnoTracer.follows (posix platform) (Followed platform world.sysErrno)
    (fun _ _ _ request followed => followed.call request) program initially
  rw [List.nil_append, completed] at followed
  have kept := followed.kept
  refine ⟨fun system => ?_, fun different _ _ => rndStrerror_listed different, fun different => ?_⟩
  · rw [blames system] at kept
    exact ⟨_, kept, fun _ _ => by subst system; rfl⟩
  · constructor
    · rintro rfl
      rw [other different Origin.noConfusion] at kept
      exact kept
    · rintro rfl
      rw [other different Origin.noConfusion] at kept
      exact kept

/-- An opening of a file that is too short tells the number of an earlier failure. -/
theorem operation_told_short : ErrorTold (.sound fun _ _ => 0) .cleared
    (log (posix (.sound fun _ _ => 0)) (Prod.fst <$> blocksFileOpen 0 4096 8)
      { disk := [82, 78, 68], errno := 9, sysErrno := 4 }) 4 .systemError
    { disk := [82, 78, 68], position := 3, streams := 1, errno := 9, sysErrno := 9, clock := 3,
      failures := 1 } :=
  operation_told (.blocksFileOpen 0 4096 8) rfl

end Runs

end Recnodb
