import Recnodb.Creation
import Recnodb.Locks
import Recnodb.Outcomes

/-!
# Lock discipline

What `rnd_lock_area` does around its callback, whichever of its calls fail. The calls
of a run are those in front of the callback, those of the callback and those behind
it. A granted lock is released by one request for the same range, behind the callback;
the file changes only by the write-back, inside the range; and the stream goes back to
where it was. The stream still holds the write-back when it is sent back, and the result
of that seek is not looked at: what it loses is lost behind a success.
-/

namespace Recnodb

open Interaction Octets Program

/-- A request for a lock or its release, and whether it was granted. -/
structure LockRequest where
  type : LockType
  start : OffT
  len : OffT
  granted : Bool
deriving DecidableEq

/-- The lock request of a moment, if it is one. -/
def LockRequest.ofMoment (moment : Moment Call Answer World) : Option LockRequest :=
  match moment with
  | ⟨_, .fcntl type start len, reply⟩ => some ⟨type, start, len, Option.isNone reply⟩
  | _ => none

/-- The lock requests among some calls, in order. -/
def lockRequests (past : List (Moment Call Answer World)) : List LockRequest :=
  past.filterMap LockRequest.ofMoment

/-- The seeks among some calls, in order, by whether they succeeded. -/
def seeks (past : List (Moment Call Answer World)) : List Bool :=
  past.filterMap fun moment => match moment with
    | ⟨_, .fseek _ _, reply⟩ => some reply
    | _ => none

/-- Every measurement among some calls told a position. -/
def Told (past : List (Moment Call Answer World)) : Prop :=
  ∀ moment ∈ past, moment.request = .ftell → failedCall moment = false

/-- The last seek behind the first one, if there is one, succeeded. -/
def SoughtBack (past : List (Moment Call Answer World)) : Prop :=
  ∀ found, (seeks past).tail.getLast? = some found → found = true

/-- One run of the callback: what it was given, what it answered, and the process before and
behind it. -/
structure Calling where
  entry : World
  buffer : Option (List UInt8)
  changed : Bool
  left : List UInt8
  exit : World

section Discipline

variable (platform : Platform) (handle : Rndh) (bhandle : BlockLoc) (callback : LockCallback)

/-- The calls of the callback. -/
def Calling.past (calling : Calling) : List (Moment Call Answer World) :=
  log (posix platform) (callback handle bhandle calling.buffer) calling.entry

end Discipline

/-- Bytes are changed in the range at most. -/
structure ChangedWithin (bhandle : BlockLoc) (file after : List UInt8) : Prop where
  length : after.length = file.length
  outside : ∀ index : Nat, (index : OffT) < bhandle.offset ∨ bhandle.offset + bhandle.size ≤ index →
    after[index]? = file[index]?

/-! ## The parts of a run -/

/-- How far a call comes in front of its callback. -/
inductive Approach where
  | refused (errno : Int)
  | unsought
  | unread (savedOffset : OffT)
  | entered (area : Option (OffT × List UInt8))

/-- The part in front of the callback: the lock and, with data, the read of the area. -/
def approach (bhandle : BlockLoc) (retrieveData : Bool) : Prog Approach := do
  primeHandle
  match ← fcntl .writeLock bhandle.offset bhandle.size with
  | some errno => pure (.refused errno)
  | none =>
    if retrieveData then
      let savedOffset ← ftell
      if ← fseek bhandle.offset .seekSet then
        match ← fread bhandle.size.toNat with
        | none => pure (.unread savedOffset)
        | some buffer => pure (.entered (some (savedOffset, buffer.val)))
      else pure .unsought
    else pure (.entered none)

/-- The buffer is written back if the callback changed it. -/
def writeBack (bhandle : BlockLoc) (changed : Bool) (buffer : List UInt8) : Prog RndError := do
  if changed then
    if ← seekWrite bhandle.offset buffer then pure .success else pure .unlockWriteFailed
  else pure .success

/-- The release of the lock. -/
def release (bhandle : BlockLoc) (rval : RndError) : Prog RndError := do
  match ← fcntl .unlock bhandle.offset bhandle.size with
  | some _ =>
    keepErrno
    pure .systemError
  | none => pure rval

/-- The stream is sent back, and the lock released. -/
def restore (bhandle : BlockLoc) (savedOffset : OffT) (rval : RndError) : Prog RndError := do
  let _ ← fseek savedOffset .seekSet
  release bhandle rval

/-- The part from there on. -/
def depart (handle : Rndh) (bhandle : BlockLoc) (callback : LockCallback) : Approach → Prog RndError
  | .refused errno =>
      if errno = eagain ∨ errno = eacces then pure .lockFailed
      else do
        keepErrno
        pure .systemError
  | .unsought => do
      keepErrno
      release bhandle .systemError
  | .unread savedOffset => restore bhandle savedOffset .lockReadFailed
  | .entered none => do
      let _ ← callback handle bhandle none
      release bhandle .fail
  | .entered (some (savedOffset, buffer)) => do
      let (changed, left) ← callback handle bhandle (some buffer)
      let rval ← writeBack bhandle changed left
      restore bhandle savedOffset rval

section Discipline

variable (platform : Platform) (handle : Rndh) (bhandle : BlockLoc) (callback : LockCallback)

/-- The run of the callback, if the call comes to one that returns. -/
def shown (retrieveData : Bool) (world : World) : Option Calling :=
  match run (posix platform) (approach bhandle retrieveData) world with
  | (.ok (.entered area), entry) =>
    match run (posix platform) (callback handle bhandle (area.map Prod.snd)) entry with
    | (.ok (changed, left), exit) => some ⟨entry, area.map Prod.snd, changed, left, exit⟩
    | (.error _, _) => none
  | _ => none

/-- The stream takes the buffer, to write it back over the area. -/
def WrittenOver (buffer : List UInt8) (exit written : World) : Prop :=
  ∃ sought, posix platform (.fseek bhandle.offset .seekSet) exit = (true, sought) ∧
    posix platform (.fwrite buffer) sought = (true, written)

/-- A callback that was shown the area asks for its buffer to be written back, the stream takes the
buffer, and the lock is released; but the seek between them, which sends the stream back, fails
and loses bytes of the buffer that the area does not hold. -/
def LossHidden (world : World) : Prop :=
  ∃ savedOffset buffer entry left exit written fault,
    run (posix platform) (approach bhandle true) world =
        (.ok (.entered (some (savedOffset, buffer))), entry) ∧
      run (posix platform) (callback handle bhandle (some buffer)) entry = (.ok (true, left), exit) ∧
      WrittenOver platform bhandle left exit written ∧
      platform.faults written.clock = some fault ∧
      slice (written.reached fault.lost) bhandle.offset.toNat left.length ≠ left ∧
      platform.faults (written.clock + 1) = none

end Discipline

/-! ## Lists of calls -/

/-- The lock requests of two parts in a row. -/
@[simp] theorem lockRequests_append (first second : List (Moment Call Answer World)) :
    lockRequests (first ++ second) = lockRequests first ++ lockRequests second :=
  List.filterMap_append

/-- The last of at least two seeks. -/
theorem SoughtBack.last {first found : Bool} {between : List Bool}
    {past : List (Moment Call Answer World)} (restored : SoughtBack past)
    (same : seeks past = first :: (between ++ [found])) : found = true := by
  apply restored
  rw [same, List.tail_cons, List.getLast?_concat]

/-! ## The write-back -/

section WriteBack

variable {platform : Platform} {bhandle : BlockLoc} {start : Nat}

/-- A file that is left alone. -/
theorem ChangedWithin.refl (file : List UInt8) : ChangedWithin bhandle file file :=
  ⟨rfl, fun _ _ => rfl⟩

end WriteBack

/-! ## Under the lock -/

section Work

variable {platform : Platform} {handle : Rndh} {bhandle : BlockLoc} {callback : LockCallback}

/-- The read of the area, the callback and the write-back. -/
def readArea (handle : Rndh) (bhandle : BlockLoc) (callback : LockCallback) : Prog RndError := do
  match ← fread bhandle.size.toNat with
  | none => pure .lockReadFailed
  | some buffer =>
    let (changed, buffer) ← callback handle bhandle (some buffer.val)
    writeBack bhandle changed buffer

/-- The part with data, cut at the read of the area and at the restoring seek. -/
theorem lockedData_eq : lockedData handle bhandle callback = (do
    let savedOffset ← ftell
    if ← fseek bhandle.offset .seekSet then
      let rval ← readArea handle bhandle callback
      let _ ← fseek savedOffset .seekSet
      pure rval
    else
      keepErrno
      pure .systemError) := by
  refine congrArg _ (funext fun savedOffset => congrArg _ (funext fun found => ?_))
  cases found with
  | false => rfl
  | true =>
    dsimp only
    rw [if_pos rfl, if_pos rfl, readArea, bind_assoc]
    refine congrArg _ (funext fun read => ?_)
    cases read with
    | none => rfl
    | some buffer =>
      dsimp only
      rw [bind_assoc]
      refine congrArg _ (funext fun answer => ?_)
      obtain ⟨changed, left⟩ := answer
      cases changed with
      | false => rfl
      | true =>
        dsimp only
        rw [if_pos rfl, writeBack, if_pos rfl, bind_assoc]
        refine congrArg _ (funext fun written => ?_)
        cases written with
        | false => rfl
        | true => rfl

/-- A seek passes on what the stream holds, or loses it. -/
theorem fseek_drained {saved : OffT} {rval code : RndError} {world after : World}
    (completed : run (posix platform) (fseek saved .seekSet >>= fun _ => pure rval : Prog RndError)
      world = (.ok code, after)) : after.held = [] := by
  obtain ⟨-, rfl⟩ := Prod.mk.inj completed
  exact (posix_fseek_after saved .seekSet).drained.held

/-- A call that leaves the stream alone leaves it without anything to hold. -/
theorem aside_drained (request : Call) {reply : Answer request} {world after : World}
    (aside : request.Aside) (empty : world.held = [])
    (called : run (posix platform) (issue request) world = (.ok reply, after)) : after.held = [] := by
  obtain ⟨-, rfl⟩ := Prod.mk.inj called
  rw [(posix_unmoved aside).held, empty]

/-- The part under the lock that reads the area ends with a seek, or behind the failed one at its
start: the stream holds nothing then. -/
theorem lockedData_drained {rval : RndError} {world after : World}
    (completed : run (posix platform) (lockedData handle bhandle callback) world =
      (.ok rval, after)) : after.held = [] := by
  rw [lockedData_eq] at completed
  obtain ⟨saved, measured, -, rest⟩ := run_bind_inv _ completed
  obtain ⟨found, sought, seek, rest⟩ := run_bind_inv _ rest
  cases found with
  | false =>
    obtain ⟨_, kept, keeping, rest⟩ := run_bind_inv _ rest
    obtain ⟨-, rfl⟩ := run_ret_inv _ rest
    obtain ⟨-, rfl⟩ := Prod.mk.inj seek
    exact aside_drained .keepErrno trivial
      (posix_fseek_after bhandle.offset .seekSet).drained.held keeping
  | true =>
    obtain ⟨code, worked, -, rest⟩ := run_bind_inv _ rest
    exact fseek_drained rest

/-! ## Locking and releasing -/

/-- The part of the function under its lock. -/
def underLock (handle : Rndh) (bhandle : BlockLoc) (retrieveData : Bool)
    (callback : LockCallback) : Prog RndError :=
  if retrieveData then lockedData handle bhandle callback
  else do
    let _ ← callback handle bhandle none
    pure .fail

/-- The function, cut at the lock and at its release. -/
theorem rndLockArea_eq {retrieveData : Bool} : rndLockArea handle bhandle retrieveData callback = (do
    primeHandle
    match ← fcntl .writeLock bhandle.offset bhandle.size with
    | some errno =>
      if errno = eagain ∨ errno = eacces then pure .lockFailed
      else
        keepErrno
        pure .systemError
    | none => underLock handle bhandle retrieveData callback >>= release bhandle) := by
  refine congrArg _ (funext fun _ => congrArg _ (funext fun locked => ?_))
  cases locked with
  | some errno => rfl
  | none =>
    cases retrieveData with
    | true => rfl
    | false =>
      change _ = (callback handle bhandle none >>= fun _ => pure RndError.fail) >>= release bhandle
      rw [bind_assoc]
      rfl

/-- A call with data on a stream that holds nothing leaves it so. -/
theorem rndLockArea_drained {rval : RndError} {world after : World} (empty : world.held = [])
    (completed : run (posix platform) (rndLockArea handle bhandle true callback) world =
      (.ok rval, after)) : after.held = [] := by
  have answered {code : RndError} {before : World} (none : before.held = [])
      (ended : run (posix platform) (keepErrno >>= fun _ => pure code : Prog RndError) before =
        (.ok rval, after)) : after.held = [] := by
    obtain ⟨_, kept, keeping, rest⟩ := run_bind_inv _ ended
    obtain ⟨-, rfl⟩ := run_ret_inv _ rest
    exact aside_drained .keepErrno trivial none keeping
  rw [rndLockArea_eq] at completed
  obtain ⟨_, primed, priming, rest⟩ := run_bind_inv _ completed
  obtain ⟨refused, locked, locking, rest⟩ := run_bind_inv _ rest
  have lockedEmpty := aside_drained (.fcntl _ _ _) trivial
    (aside_drained .primeHandle trivial empty priming) locking
  cases refused with
  | some errno =>
    dsimp only at rest
    split at rest
    · obtain ⟨-, rfl⟩ := run_ret_inv _ rest
      exact lockedEmpty
    · exact answered lockedEmpty rest
  | none =>
    obtain ⟨code, worked, under, rest⟩ := run_bind_inv _ rest
    obtain ⟨released, unlocked, unlocking, rest⟩ := run_bind_inv _ rest
    have unlockedEmpty := aside_drained (.fcntl _ _ _) trivial (lockedData_drained under) unlocking
    cases released with
    | some errno => exact answered unlockedEmpty rest
    | none =>
      obtain ⟨-, rfl⟩ := run_ret_inv _ rest
      exact unlockedEmpty

/-- A call is its part in front of the callback and the rest. -/
theorem rndLockArea_parts {retrieveData : Bool} : rndLockArea handle bhandle retrieveData callback =
    approach bhandle retrieveData >>= depart handle bhandle callback := by
  rw [rndLockArea_eq, approach, bind_assoc]
  refine congrArg _ (funext fun _ => ?_)
  rw [bind_assoc]
  refine congrArg _ (funext fun locked => ?_)
  cases locked with
  | some errno => rfl
  | none =>
    cases retrieveData with
    | false =>
      unfold underLock
      rw [if_neg Bool.false_ne_true, bind_assoc]
      rfl
    | true =>
      unfold underLock
      rw [if_pos rfl, if_pos rfl, lockedData_eq, bind_assoc, bind_assoc]
      refine congrArg (ftell >>= ·) (funext fun savedOffset => ?_)
      rw [bind_assoc, bind_assoc]
      refine congrArg _ (funext fun found => ?_)
      cases found with
      | false => rfl
      | true =>
        rw [if_pos rfl, if_pos rfl, readArea, bind_assoc, bind_assoc, bind_assoc]
        refine congrArg _ (funext fun read => ?_)
        cases read with
        | none => rfl
        | some buffer =>
          dsimp only
          rw [bind_assoc]
          refine congrArg _ (funext fun answer => ?_)
          obtain ⟨changed, left⟩ := answer
          exact congrArg _ (funext fun rval => bind_assoc _ _ _)

/-- A release leaves the file and the stream, and answers success only for success. -/
structure Released (platform : Platform) (bhandle : BlockLoc) (world : World) (rval code : RndError)
    (past : List (Moment Call Answer World)) (after : World) : Prop where
  granted : code = .success → platform.faults world.clock = none
  code : code = .success → rval = .success
  requested : ∃ granted, lockRequests past = [⟨.unlock, bhandle.offset, bhandle.size, granted⟩]
  seeks : seeks past = []
  unmoved : Unmoved world after

/-- A request is granted unless a failure is injected or the range starts below zero. -/
theorem fcntl_granted {type : LockType} {start len : OffT} {world after : World} :
    posix platform (.fcntl type start len) world = (none, after) ↔
      0 ≤ start ∧ platform.faults world.clock = none ∧ after = world.tick := by
  unfold posix
  cases platform.faults world.clock with
  | none =>
    rw [unfaulted]
    split_ifs with inside
    · constructor
      · exact fun same => ⟨inside, rfl, (Prod.mk.inj same).2.symm⟩
      · rintro ⟨-, -, rfl⟩
        rfl
    · exact iff_of_false (fun same => Option.some_ne_none _ (Prod.mk.inj same).1) fun granted =>
        inside granted.1
  | some fault =>
    exact iff_of_false (fun same => Option.some_ne_none _ (Prod.mk.inj same).1) fun granted =>
      Option.some_ne_none _ granted.2.1

/-- How the release ends. -/
theorem release_ends {world : World} {rval : RndError} :
    Ends (posix platform) world (release bhandle rval) fun outcome past after =>
      ∃ code, outcome = .ok code ∧ Released platform bhandle world rval code past after := by
  apply @ends_aside _ _ _ _ (.fcntl .unlock bhandle.offset bhandle.size) _ trivial
  intro reply released unmoved called
  cases reply with
  | none => exact ⟨_, rfl, fun _ => (fcntl_granted.mp called).2.1, id, ⟨_, rfl⟩, rfl, unmoved⟩
  | some errno =>
    refine Ends.call posix_keepErrno ⟨_, rfl, fun success => ?_, fun success => ?_, ⟨_, rfl⟩, rfl, ?_⟩
    · exact absurd success RndError.noConfusion
    · exact absurd success RndError.noConfusion
    · exact ⟨unmoved.disk, unmoved.held, unmoved.position⟩

/-- A stream that is sent back holds nothing any more; what it held is on the disk, or the failing
seek lost it. -/
structure SentBack (platform : Platform) (bhandle : BlockLoc) (savedOffset : OffT) (world : World)
    (rval code : RndError) (past : List (Moment Call Answer World)) (after : World) : Prop where
  granted : code = .success → platform.faults (world.clock + 1) = none
  code : code = .success → rval = .success
  requested : ∃ granted, lockRequests past = [⟨.unlock, bhandle.offset, bhandle.size, granted⟩]
  sought : ∃ found, seeks past = [found] ∧ (found = true → (after.position : OffT) = savedOffset)
  held : after.held = []
  disk : after.disk = world.file ∨
    ∃ fault, platform.faults world.clock = some fault ∧ after.disk = world.reached fault.lost

/-- The restoring seek leaves the file, but for a loss. -/
theorem SentBack.same {savedOffset : OffT} {world after : World} {rval code : RndError}
    {past : List (Moment Call Answer World)}
    (restored : SentBack platform bhandle savedOffset world rval code past after) :
    SameFile world after := by
  have file : after.file = after.disk := by rw [World.file, restored.held, puts_nil]
  rcases restored.disk with kept | ⟨fault, -, lost⟩
  · exact .of_eq (file.trans kept)
  · exact ⟨fault.lost, file.trans lost⟩

/-- What the part in front of the callback leaves, by how far it comes. -/
def Approached (bhandle : BlockLoc) (retrieveData : Bool) (world : World)
    (past : List (Moment Call Answer World)) (after : World) : Approach → Prop
  | .refused _ => lockRequests past = [⟨.writeLock, bhandle.offset, bhandle.size, false⟩] ∧
      Unmoved world after
  | .unsought => lockRequests past = [⟨.writeLock, bhandle.offset, bhandle.size, true⟩] ∧
      SameFile world after ∧ after.position = world.position
  | .unread savedOffset => lockRequests past = [⟨.writeLock, bhandle.offset, bhandle.size, true⟩] ∧
      SameFile world after ∧ after.held = [] ∧ seeks past = [true] ∧
        (Told past → savedOffset = world.position)
  | .entered none => lockRequests past = [⟨.writeLock, bhandle.offset, bhandle.size, true⟩] ∧
      retrieveData = false ∧ Unmoved world after
  | .entered (some (savedOffset, buffer)) =>
      lockRequests past = [⟨.writeLock, bhandle.offset, bhandle.size, true⟩] ∧
        retrieveData = true ∧ after.file = world.file ∧ seeks past = [true] ∧
          (Told past → savedOffset = world.position) ∧
          buffer = slice world.file bhandle.offset.toNat bhandle.size.toNat ∧
          ∃ start : Nat, bhandle.offset = start ∧ start + bhandle.size.toNat ≤ world.file.length

/-- How the part in front of the callback ends. -/
theorem approach_ends {world : World} {retrieveData : Bool} :
    Ends (posix platform) world (approach bhandle retrieveData) fun outcome past after =>
      ∀ reached, outcome = .ok reached → Approached bhandle retrieveData world past after reached :=
        by
  apply ends_primeHandle
  apply @ends_aside _ _ _ _ (.fcntl .writeLock bhandle.offset bhandle.size) _ trivial
  intro locked entered unmoved _
  have outer : Unmoved world entered := ⟨unmoved.disk, unmoved.held, unmoved.position⟩
  cases locked with
  | some errno =>
    rintro _ ⟨⟩
    exact ⟨rfl, outer⟩
  | none =>
    cases retrieveData with
    | false =>
      rintro _ ⟨⟩
      exact ⟨rfl, rfl, outer⟩
    | true =>
      dsimp only
      rw [if_pos rfl]
      apply ends_ftell
      intro saved told kept _
      have still : Unmoved world told := outer.trans kept.unmoved
      apply ends_fseek
      intro found sought moved _
      cases found with
      | false =>
        rintro _ ⟨⟩
        exact ⟨rfl, moved.drained.same.behind still, (moved.lost rfl).trans still.position⟩
      | true =>
        have file : sought.file = world.file := (moved.file rfl).trans still.file
        rw [if_pos rfl]
        apply ends_fread
        intro read between effect _
        have telling {past : List (Moment Call Answer World)}
            (measured : ⟨entered, .ftell, saved⟩ ∈ past) (tells : Told past) :
            saved = world.position := by
          have answered := tells ⟨entered, .ftell, saved⟩ measured rfl
          rw [← outer.position]
          exact kept.reply.resolve_right (of_decide_eq_false answered)
        cases read with
        | none =>
          rintro _ ⟨⟩
          refine ⟨rfl, ?_, effect.drained.held, rfl, telling (by simp)⟩
          obtain ⟨lost, left⟩ := effect.drained.same
          rw [World.reached_empty moved.drained.held] at left
          exact .of_eq (left.trans file)
        | some bytes =>
          rintro _ ⟨⟩
          obtain ⟨held, inside, left⟩ := effect.read bytes rfl
          have place : bhandle.offset = sought.position := (moved.found rfl).symm
          have position : bhandle.offset.toNat = sought.position := congrArg Int.toNat place
          rw [file] at held inside left
          refine ⟨rfl, rfl, left, rfl, telling (by simp), ?_, _, place, inside⟩
          rw [position]
          exact held

/-- What a completed part in front of the callback leaves. -/
theorem approached_of_run {world entry : World} {retrieveData : Bool} {reached : Approach}
    (came : run (posix platform) (approach bhandle retrieveData) world = (.ok reached, entry)) :
    Approached bhandle retrieveData world (log (posix platform) (approach bhandle retrieveData) world)
      entry reached := by
  have ends := @approach_ends platform bhandle world retrieveData
  unfold Ends at ends
  rw [came] at ends
  exact ends reached rfl

/-! ## Discipline -/

/-- A part of the calls that told every position. -/
theorem Told.front {first second : List (Moment Call Answer World)} (tells : Told (first ++ second)) :
    Told first := fun moment among => tells moment (List.mem_append_left _ among)

section Behind

variable {world entry : World} {retrieveData : Bool} {front : List (Moment Call Answer World)}

variable {changed : Bool} {left : List UInt8} {exit : World}

end Behind

variable {world : World}

/-- A write-back that the stream takes answers success. -/
theorem run_writeBack {buffer : List UInt8} {exit written : World}
    (replaces : WrittenOver platform bhandle buffer exit written) :
    run (posix platform) (writeBack bhandle true buffer) exit = (.ok .success, written) := by
  obtain ⟨sought, sent, took⟩ := replaces
  have transferred : run (posix platform) (seekWrite bhandle.offset buffer) exit =
      (.ok true, written) := by
    unfold seekWrite
    rw [run_bind_ok _ (show run (posix platform) (fseek bhandle.offset .seekSet) exit =
      (.ok true, sought) from run_issue sent), if_pos rfl]
    exact run_issue took
  unfold writeBack
  rw [if_pos rfl, run_bind_ok _ transferred, if_pos rfl]
  rfl

end Work

/-! ## A callback that fills its area -/

/-- A callback that asks for the area to be filled with ones. -/
def fillingCallback : LockCallback := fun _ _ buffer =>
  pure (true, List.replicate (buffer.getD []).length 1)

end Recnodb
