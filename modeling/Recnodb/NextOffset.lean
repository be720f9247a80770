import Recnodb.LockDiscipline
import Recnodb.SearchRounds
import Recnodb.Addressing
import Recnodb.LockedArea

/-!
# The code of a request for a record

The status of `flatrecs_get_next_offset` passes through two callbacks whose only
answer is whether the header is to be written back. The function is restated as the
calls up to the read of the header, the search, the user callback, and the calls that
release the lock. Success then means that the user callback ran, except for a failed
search: it answers like a callback that changed nothing, and its code is lost unless
the release of the lock fails as well.
-/

namespace Recnodb

open Interaction Octets Program

/-- The area of a table header. -/
abbrev tableArea (tableHead : OffT) : BlockLoc := ⟨tableHead, sizeofHeadTable⟩

/-- The calls in front of the callback. They end with the position saved and the header
read, or with the code answered without the callback. -/
def readTableHead (handle : Rndh) (bloc : BlockLoc) : Prog (Except RndError (OffT × List UInt8)) := do
  cAssert handle.file.isSome
  primeHandle
  primeHandle
  match ← fcntl .writeLock bloc.offset bloc.size with
  | some errno =>
    if errno = eagain ∨ errno = eacces then pure (.error .lockFailed)
    else
      keepErrno
      pure (.error .systemError)
  | none =>
    let savedOffset ← ftell
    if ← fseek bloc.offset .seekSet then
      match ← fread bloc.size.toNat with
      | some buffer => pure (.ok (savedOffset, buffer.val))
      | none =>
        let _ ← fseek savedOffset .seekSet
        let rval ← release bloc .lockReadFailed
        pure (.error rval)
    else
      keepErrno
      let rval ← release bloc .systemError
      pure (.error rval)

/-- The record number behind the last one of a header. -/
def recnoBehind (buffer : List UInt8) : UInt32 := (RndHeadTable.ofBytes buffer).thead.lastRecno + 1

/-- The search of the callback. -/
def searchNext (fuel : Nat) (handle : Rndh) (bloc : BlockLoc) (buffer : List UInt8) :
    Prog (RndError × OffT) :=
  flatrecsMakeOffsetToRecno fuel handle bloc (RndHeadTable.ofBytes buffer) (recnoBehind buffer)

/-- The calls behind the callback: the write-back, the position, the release. -/
def leaveTable (bloc : BlockLoc) (savedOffset : OffT) (changed : Bool) (buffer : List UInt8) :
    Prog RndError := do
  let rval ← writeBack bloc changed buffer
  let _ ← fseek savedOffset .seekSet
  release bloc rval

/-- From the header read to the code returned. -/
def useTable (fuel : Nat) (handle : Rndh) (bloc : BlockLoc) (user : FlatrecsUseNewRecord)
    (savedOffset : OffT) (buffer : List UInt8) : Prog RndError := do
  note (.numbered (recnoBehind buffer))
  let (rval, offset) ← searchNext fuel handle bloc buffer
  if rval ≠ .success then leaveTable bloc savedOffset false buffer
  else
    note (.handed (recnoBehind buffer) offset)
    let (changed, htable) ← user handle (RndHeadTable.ofBytes buffer) offset
    note (.answered changed)
    leaveTable bloc savedOffset changed htable.toBytes

/-- The function, by its parts. -/
theorem flatrecsGetNextOffset_eq {fuel : Nat} {handle : Rndh} {tableHead : OffT}
    {user : FlatrecsUseNewRecord} : flatrecsGetNextOffset fuel handle tableHead user =
      readTableHead handle (tableArea tableHead) >>= fun
        | .error rval => pure rval
        | .ok (savedOffset, buffer) =>
          useTable fuel handle (tableArea tableHead) user savedOffset buffer := by
  rw [flatrecsGetNextOffset, rndLockArea_eq, readTableHead, bind_assoc, underLock, if_pos rfl,
    lockedData_eq]
  refine congrArg _ (funext fun _ => congrArg _ (funext fun _ => congrArg _ (funext fun _ =>
    congrArg _ (funext fun locked => ?_))))
  change _ = (match locked with
    | some errno => _
    | none => _ : Prog (Except RndError (OffT × List UInt8))) >>= _
  cases locked with
  | some errno =>
    dsimp only
    by_cases busy : errno = eagain ∨ errno = eacces
    · rw [if_pos busy, if_pos busy]
      rfl
    · rw [if_neg busy, if_neg busy]
      rfl
  | none =>
    dsimp only
    rw [bind_assoc, bind_assoc]
    refine congrArg _ (funext fun savedOffset => ?_)
    rw [bind_assoc, bind_assoc]
    refine congrArg _ (funext fun found => ?_)
    cases found with
    | false =>
      rw [if_neg Bool.false_ne_true, if_neg Bool.false_ne_true]
      simp only [bind_assoc, pure_bind, bind_pure]
    | true =>
      rw [if_pos rfl, if_pos rfl, readArea]
      simp only [bind_assoc]
      refine congrArg _ (funext fun read => ?_)
      cases read with
      | none => simp only [pure_bind, bind_assoc, bind_pure]
      | some buffer =>
        simp only [pure_bind, bind_assoc, flatrecsGetNextOffsetLockCallback, useTable,
          Option.getD_some]
        refine congrArg _ (funext fun _ => congrArg _ (funext fun searched => ?_))
        obtain ⟨rval, offset⟩ := searched
        dsimp only
        by_cases success : rval = .success
        · rw [if_neg (not_not_intro success), if_neg (not_not_intro success)]
          simp only [bind_assoc, pure_bind]
          rfl
        · rw [if_pos success, if_pos success]
          rfl

/-! ## What the code tells -/

/-- One run of the user callback: the position saved and the header it was handed, the offset, what
it answered, and the process behind the read of the header, behind the search and behind itself. -/
structure UserCall where
  savedOffset : OffT
  buffer : List UInt8
  offset : OffT
  changed : Bool
  left : RndHeadTable
  locked : World
  found : World
  exit : World

section Codes

variable (platform : Platform) (fuel : Nat) (handle : Rndh) (tableHead : OffT)
variable (user : FlatrecsUseNewRecord) (world : World)

/-- The calls that lock and read the header. -/
abbrev headerCalls : List (Moment Call Answer World) :=
  log (posix platform) (readTableHead handle (tableArea tableHead)) world

/-- The calls of the search, behind the note of its number. -/
abbrev searchCalls (buffer : List UInt8) (locked : World) : List (Moment Call Answer World) :=
  ⟨locked, .note (.numbered (recnoBehind buffer)), ()⟩ ::
    log (posix platform) (searchNext fuel handle (tableArea tableHead) buffer) locked

/-- The calls of the user callback, between the notes of what it is handed and answers. -/
def UserCall.calls (call : UserCall) : List (Moment Call Answer World) :=
  ⟨call.found, .note (.handed (recnoBehind call.buffer) call.offset), ()⟩ ::
    (log (posix platform) (user handle (RndHeadTable.ofBytes call.buffer) call.offset) call.found ++
      [⟨call.exit, .note (.answered call.changed), ()⟩])

/-- The calls that write the header back and release the lock. -/
abbrev leavingCalls (savedOffset : OffT) (changed : Bool) (buffer : List UInt8) (exit : World) :
    List (Moment Call Answer World) :=
  log (posix platform) (leaveTable (tableArea tableHead) savedOffset changed buffer) exit

/-- The user callback ran once, with the header read and the offset found for the number behind the
last one, and under the lock: it is granted in front of the search and released behind the
callback, and by no other call of the library. -/
structure UserCall.Ran (call : UserCall) : Prop where
  header : run (posix platform) (readTableHead handle (tableArea tableHead)) world =
    (.ok (.ok (call.savedOffset, call.buffer)), call.locked)
  bytes : call.buffer = slice world.file tableHead.toNat sizeofHeadTable
  search : run (posix platform) (searchNext fuel handle (tableArea tableHead) call.buffer)
    call.locked = (.ok (.success, call.offset), call.found)
  ran : run (posix platform) (user handle (RndHeadTable.ofBytes call.buffer) call.offset)
    call.found = (.ok (call.changed, call.left), call.exit)
  calls : log (posix platform) (flatrecsGetNextOffset fuel handle tableHead user) world =
    headerCalls platform handle tableHead world ++
      searchCalls platform fuel handle tableHead call.buffer call.locked ++
      call.calls platform handle user ++
      leavingCalls platform tableHead call.savedOffset call.changed call.left.toBytes call.exit
  acquired : lockRequests (headerCalls platform handle tableHead world) =
    [⟨.writeLock, tableHead, sizeofHeadTable, true⟩]
  kept : lockRequests (searchCalls platform fuel handle tableHead call.buffer call.locked) = []
  released : lockRequests
    (leavingCalls platform tableHead call.savedOffset call.changed call.left.toBytes call.exit) =
      [⟨.unlock, tableHead, sizeofHeadTable, true⟩]

/-- The header is read, and the search for the number behind its last one fails. -/
structure SearchFails (savedOffset : OffT) (buffer : List UInt8) (locked found : World) : Prop where
  header : run (posix platform) (readTableHead handle (tableArea tableHead)) world =
    (.ok (.ok (savedOffset, buffer)), locked)
  search : ∃ rval offset, rval ≠ .success ∧
    run (posix platform) (searchNext fuel handle (tableArea tableHead) buffer) locked =
      (.ok (rval, offset), found)

/-- What the code of a completed run tells: success, that the user callback ran; and behind a failed
search the callback does not run and the code is an error. -/
structure CodeTells (rval : RndError) : Prop where
  success : rval = .success →
    ∃ call : UserCall, call.Ran platform fuel handle tableHead user world
  failure : ∀ savedOffset buffer locked found,
    SearchFails platform fuel handle tableHead world savedOffset buffer locked found →
      rval ≠ .success ∧
      log (posix platform) (flatrecsGetNextOffset fuel handle tableHead user) world =
        headerCalls platform handle tableHead world ++
          searchCalls platform fuel handle tableHead buffer locked ++
          leavingCalls platform tableHead savedOffset false buffer found

/-- The code of every completed run tells whether the user callback ran. -/
def SuccessMeansRan : Prop :=
  ∀ rval after, run (posix platform) (flatrecsGetNextOffset fuel handle tableHead user) world =
    (.ok rval, after) → CodeTells platform fuel handle tableHead user world rval

/-- Behind a failed search the release of the lock, the second call, fails as well. -/
def FailureShows : Prop :=
  ∀ savedOffset buffer locked found,
    SearchFails platform fuel handle tableHead world savedOffset buffer locked found →
      platform.faults (found.clock + 1) ≠ none

end Codes

/-! ## The parts -/

/-- A call that asks for no lock. -/
def Call.LockFree : Call → Prop
  | .fcntl _ _ _ => False
  | _ => True

/-- A plain call is no lock request. -/
theorem Call.Plain.lockFree {request : Call} (plain : request.Plain) : request.LockFree := by
  cases request with
  | fcntl type start len => exact plain.elim
  | _ => trivial

/-- A program without lock requests has none in its run. -/
theorem lockRequests_free {α : Type} {program : Prog α} (free : program.Only Call.LockFree)
    {handler : Handler Call Answer World} {world : World} :
    lockRequests (log handler program world) = [] := by
  refine List.filterMap_eq_nil_iff.mpr fun moment among => ?_
  have allowed := log_only handler free world moment among
  obtain ⟨before, request, reply⟩ := moment
  cases request with
  | fcntl type start len => exact allowed.elim
  | _ => rfl

section Parts

variable {platform : Platform} {fuel : Nat} {handle : Rndh} {tableHead : OffT} {bloc : BlockLoc}
variable {user : FlatrecsUseNewRecord} {world : World}

/-- The search for the next record asks for no lock. -/
theorem lockFree_searchNext {buffer : List UInt8} :
    (searchNext fuel handle bloc buffer).Only Call.LockFree :=
  only_flatrecsMakeOffsetToRecno (fun _ => Call.Plain.lockFree) fun _ _ => trivial

/-- The write-back is direct. -/
theorem direct_writeBack {changed : Bool} {buffer : List UInt8} :
    (writeBack bloc changed buffer).Only Call.Direct := by
  cases changed with
  | false => trivial
  | true =>
    apply only_bind direct_seekWrite
    intro written
    cases written with
    | false => trivial
    | true => trivial

/-- Where a lock is refused or released, the code of an error stays one. -/
theorem release_error {rval : RndError} (error : rval ≠ .success) :
    Ends (posix platform) world (release bloc rval >>= fun rval => pure (.error rval))
      fun outcome _ _ => ∃ code : RndError, outcome =
        .ok (.error code : Except RndError (OffT × List UInt8)) ∧ code ≠ .success := by
  apply Ends.bind release_ends
  · rintro code past after ⟨_, ⟨⟩, released⟩
    exact ⟨code, rfl, fun success => error (released.code success)⟩
  · rintro reason past after ⟨_, stopped, -⟩
    exact nomatch stopped

/-- What the calls in front of the callback end with. -/
def HeaderRead (bloc : BlockLoc) (world : World) (past : List (Moment Call Answer World)) :
    Except RndError (OffT × List UInt8) → Prop
  | .error rval => rval ≠ .success
  | .ok (_, buffer) => buffer = slice world.file bloc.offset.toNat bloc.size.toNat ∧
      0 ≤ bloc.offset ∧ lockRequests past = [⟨.writeLock, bloc.offset, bloc.size, true⟩]

/-- How the read of the table header ends. -/
theorem readTableHead_ends :
    Ends (posix platform) world (readTableHead handle bloc) fun outcome past _ =>
      ∀ result, outcome = .ok result → HeaderRead bloc world past result := by
  unfold readTableHead
  cases handle.file.isSome with
  | false =>
    rintro result ⟨⟩
  | true =>
    apply ends_assert rfl
    apply ends_primeHandle
    apply ends_primeHandle
    apply ends_aside (show (Call.fcntl .writeLock bloc.offset bloc.size).Aside from trivial)
    intro locked entered unmoved _
    cases locked with
    | some errno =>
      dsimp only
      split
      · rintro _ ⟨⟩
        exact RndError.noConfusion
      · refine Ends.call posix_keepErrno ?_
        rintro _ ⟨⟩
        exact RndError.noConfusion
    | none =>
      dsimp only
      apply ends_ftell
      intro saved told kept _
      apply ends_fseek
      intro found sought moved _
      cases found with
      | false =>
        refine Ends.call posix_keepErrno (Ends.mono (release_error RndError.noConfusion) ?_)
        rintro _ past after ⟨code, rfl, error⟩ _ ⟨⟩
        exact error
      | true =>
        rw [if_pos rfl]
        have there : (sought.position : OffT) = bloc.offset := moved.found rfl
        apply ends_fread
        intro read between effect _
        cases read with
        | none =>
          dsimp only
          apply ends_fseek
          intro found' back moved' _
          refine Ends.mono (release_error RndError.noConfusion) ?_
          rintro _ past after ⟨code, rfl, error⟩ _ ⟨⟩
          exact error
        | some buffer =>
          rintro _ ⟨⟩
          obtain ⟨held, inside⟩ := effect.read buffer rfl
          refine ⟨?_, ?_, rfl⟩
          · rw [held, ← there, moved.file rfl, kept.unmoved.file, unmoved.file]
            rfl
          · rw [← there]
            exact Int.natCast_nonneg _

/-- The release of a granted lock fails only where a failure is injected. -/
theorem release_code {rval : RndError} (granted : 0 ≤ bloc.offset) :
    (run (posix platform) (release bloc rval) world).1 =
      .ok (if platform.faults world.clock = none then rval else .systemError) := by
  have answered : (posix platform (.fcntl .unlock bloc.offset bloc.size) world).1 = none ↔
      platform.faults world.clock = none := by
    unfold posix
    cases platform.faults world.clock with
    | none =>
      refine iff_of_true ?_ rfl
      change (if 0 ≤ bloc.offset then ((none : Option Int), world.tick)
        else (some einval, world.failed einval)).1 = none
      rw [if_pos granted]
    | some fault => exact iff_of_false (Option.some_ne_none _) (Option.some_ne_none _)
  have ends : Ends (posix platform) world (release bloc rval) fun outcome _ _ =>
      outcome = .ok (if platform.faults world.clock = none then rval else .systemError) := by
    apply ends_issue
    cases locked : (posix platform (.fcntl .unlock bloc.offset bloc.size) world).1 with
    | none =>
      rw [if_pos (answered.mp locked)]
      rfl
    | some errno =>
      rw [if_neg fun none => Option.some_ne_none errno (locked.symm.trans (answered.mpr none))]
      exact Ends.call posix_keepErrno rfl
  exact ends

/-- Behind a callback that changes nothing, the code is that of the release. -/
theorem leaveTable_unchanged {savedOffset : OffT} {buffer : List UInt8} (granted : 0 ≤ bloc.offset) :
    (run (posix platform) (leaveTable bloc savedOffset false buffer) world).1 =
      .ok (if platform.faults (world.clock + 1) = none then .success else .systemError) := by
  have ends : Ends (posix platform) world (leaveTable bloc savedOffset false buffer)
      fun outcome _ _ => outcome =
        .ok (if platform.faults (world.clock + 1) = none then .success else .systemError) := by
    change Ends _ world (fseek savedOffset .seekSet >>= fun _ => release bloc .success) _
    apply ends_fseek
    intro found back moved _
    rw [← moved.clock]
    exact release_code granted
  exact ends

/-- Success behind the callback is a lock that was released. -/
theorem leaveTable_success {savedOffset : OffT} {changed : Bool} {buffer : List UInt8} :
    Ends (posix platform) world (leaveTable bloc savedOffset changed buffer) fun outcome past _ =>
      outcome = .ok .success → lockRequests past = [⟨.unlock, bloc.offset, bloc.size, true⟩] := by
  have written : Ends (posix platform) world (writeBack bloc changed buffer) fun _ past _ =>
      lockRequests past = [] :=
    lockRequests_free (only_mono (fun _ direct => direct.plain.lockFree) direct_writeBack)
  apply Ends.bind written
  · intro rval past between quiet
    apply ends_fseek
    intro found back moved _
    apply ends_issue
    cases (posix platform (.fcntl .unlock bloc.offset bloc.size) back).1 with
    | none =>
      intro _
      rw [lockRequests_append, quiet]
      rfl
    | some errno =>
      refine Ends.call posix_keepErrno fun success => ?_
      exact RndError.noConfusion (Except.ok.inj success)
  · rintro reason past after _ ⟨⟩

/-- A note has no effect on a run. -/
theorem run_note {β : Type} {event : Event} {rest : Unit → Prog β} :
    run (posix platform) (note event >>= rest) world = run (posix platform) (rest ()) world := by
  rw [run_bind_ok _ (show run (posix platform) (note event) world = (.ok (), world) from
    congrArg (fun answered => (Except.ok (), answered.2)) (posix_note event))]

/-- A note is the first call of the run. -/
theorem log_note {β : Type} {event : Event} {rest : Unit → Prog β} :
    log (posix platform) (note event >>= rest) world =
      ⟨world, .note event, ()⟩ :: log (posix platform) (rest ()) world := by
  rw [log_bind_ok _ (show run (posix platform) (note event) world = (.ok (), world) from
    congrArg (fun answered => (Except.ok (), answered.2)) (posix_note event))]
  rfl

/-- From the header read, a failed search leads to the calls behind a callback that changes
nothing. -/
theorem useTable_failed {savedOffset offset : OffT} {buffer : List UInt8} {locked found : World}
    {rval : RndError} (error : rval ≠ .success)
    (search : run (posix platform) (searchNext fuel handle (tableArea tableHead) buffer) locked =
      (.ok (rval, offset), found)) :
    run (posix platform) (useTable fuel handle (tableArea tableHead) user savedOffset buffer) locked =
        run (posix platform) (leaveTable (tableArea tableHead) savedOffset false buffer) found ∧
      log (posix platform) (useTable fuel handle (tableArea tableHead) user savedOffset buffer)
          locked =
        searchCalls platform fuel handle tableHead buffer locked ++
          leavingCalls platform tableHead savedOffset false buffer found := by
  constructor
  · rw [useTable, run_note, run_bind_ok _ search]
    exact congrFun (congrArg _ (if_pos error)) found
  · rw [useTable, log_note, log_bind_ok _ search]
    exact congrArg (fun program => searchCalls platform fuel handle tableHead buffer locked ++
      log (posix platform) program found) (if_pos error)

/-- From the header read, a search that finds the record leads to one run of the user callback. -/
theorem useTable_found {savedOffset offset : OffT} {buffer : List UInt8} {locked found after : World}
    {rval : RndError}
    (search : run (posix platform) (searchNext fuel handle (tableArea tableHead) buffer) locked =
      (.ok (.success, offset), found))
    (completed : run (posix platform)
      (useTable fuel handle (tableArea tableHead) user savedOffset buffer) locked =
        (.ok rval, after)) :
    ∃ changed left exit,
      run (posix platform) (user handle (RndHeadTable.ofBytes buffer) offset) found =
        (.ok (changed, left), exit) ∧
      run (posix platform)
        (leaveTable (tableArea tableHead) savedOffset changed left.toBytes) exit =
          (.ok rval, after) ∧
      log (posix platform) (useTable fuel handle (tableArea tableHead) user savedOffset buffer)
          locked =
        searchCalls platform fuel handle tableHead buffer locked ++
          UserCall.calls platform handle user
            ⟨savedOffset, buffer, offset, changed, left, locked, found, exit⟩ ++
          leavingCalls platform tableHead savedOffset changed left.toBytes exit := by
  rw [useTable, run_note, run_bind_ok _ search] at completed
  dsimp only at completed
  rw [if_neg (not_not_intro rfl), run_note] at completed
  obtain ⟨⟨changed, left⟩, exit, ran, left'⟩ := run_bind_inv _ completed
  rw [run_note] at left'
  refine ⟨changed, left, exit, ran, left', ?_⟩
  rw [useTable, log_note, log_bind_ok _ search]
  dsimp only
  rw [if_neg (not_not_intro rfl), log_note, log_bind_ok _ ran]
  dsimp only
  rw [log_note]
  simp [UserCall.calls]

/-- A completed run read the header, unless its code is an error. -/
theorem header_of_success {after : World} {rval : RndError}
    (completed : run (posix platform) (flatrecsGetNextOffset fuel handle tableHead user) world =
      (.ok rval, after)) :
    rval ≠ .success ∨ ∃ savedOffset buffer locked,
      run (posix platform) (readTableHead handle (tableArea tableHead)) world =
          (.ok (.ok (savedOffset, buffer)), locked) ∧
        run (posix platform) (useTable fuel handle (tableArea tableHead) user savedOffset buffer)
          locked = (.ok rval, after) := by
  rw [flatrecsGetNextOffset_eq] at completed
  obtain ⟨result, locked, header, rest⟩ := run_bind_inv _ completed
  cases result with
  | error code =>
    have read := @readTableHead_ends platform handle (tableArea tableHead) world
    unfold Ends at read
    rw [header] at read
    obtain ⟨rfl, -⟩ := run_ret_inv _ rest
    exact .inl (read _ rfl)
  | ok read =>
    obtain ⟨savedOffset, buffer⟩ := read
    exact .inr ⟨savedOffset, buffer, locked, header, rest⟩

/-- What is known of a header that was read. -/
theorem headerRead {savedOffset : OffT} {buffer : List UInt8} {locked : World}
    (header : run (posix platform) (readTableHead handle (tableArea tableHead)) world =
      (.ok (.ok (savedOffset, buffer)), locked)) :
    HeaderRead (tableArea tableHead) world (headerCalls platform handle tableHead world)
      (.ok (savedOffset, buffer)) := by
  have read := @readTableHead_ends platform handle (tableArea tableHead) world
  unfold Ends at read
  rw [header] at read
  exact read _ rfl

/-- The run behind a header that was read. -/
theorem flatrecsGetNextOffset_header {savedOffset : OffT} {buffer : List UInt8} {locked : World}
    (header : run (posix platform) (readTableHead handle (tableArea tableHead)) world =
      (.ok (.ok (savedOffset, buffer)), locked)) :
    run (posix platform) (flatrecsGetNextOffset fuel handle tableHead user) world =
        run (posix platform) (useTable fuel handle (tableArea tableHead) user savedOffset buffer)
          locked ∧
      log (posix platform) (flatrecsGetNextOffset fuel handle tableHead user) world =
        headerCalls platform handle tableHead world ++
          log (posix platform) (useTable fuel handle (tableArea tableHead) user savedOffset buffer)
            locked := by
  rw [flatrecsGetNextOffset_eq, run_bind_ok _ header, log_bind_ok _ header]
  exact ⟨rfl, rfl⟩

/-- Behind a failed search the run completes, and its code is that of the release. -/
theorem failed_search_completes {savedOffset : OffT} {buffer : List UInt8} {locked found : World}
    (fails : SearchFails platform fuel handle tableHead world savedOffset buffer locked found) :
    (run (posix platform) (flatrecsGetNextOffset fuel handle tableHead user) world).1 =
        .ok (if platform.faults (found.clock + 1) = none then .success else .systemError) ∧
      log (posix platform) (flatrecsGetNextOffset fuel handle tableHead user) world =
        headerCalls platform handle tableHead world ++
          searchCalls platform fuel handle tableHead buffer locked ++
          leavingCalls platform tableHead savedOffset false buffer found := by
  obtain ⟨rval, offset, error, search⟩ := fails.search
  obtain ⟨runs, calls⟩ := @flatrecsGetNextOffset_header platform fuel handle tableHead user world
    _ _ _ fails.header
  obtain ⟨leaves, leaving⟩ := @useTable_failed platform fuel handle tableHead user savedOffset _ _ _
    _ _ error search
  constructor
  · rw [runs, leaves]
    exact leaveTable_unchanged (headerRead fails.header).2.1
  · rw [calls, leaving, List.append_assoc]

/-- The code of `flatrecs_get_next_offset` tells whether its callback ran exactly if a failed search
shows in it. -/
theorem successMeansRan_iff_failureShows :
    SuccessMeansRan platform fuel handle tableHead user world ↔
      FailureShows platform fuel handle tableHead world := by
  constructor
  · intro tells savedOffset buffer locked found fails sound
    obtain ⟨completes, -⟩ := @failed_search_completes platform fuel handle tableHead user world _ _ _
      _ fails
    rw [if_pos sound] at completes
    exact ((tells _ _ (run_eq_of_value _ completes)).failure _ _ _ _ fails).1 rfl
  · intro shows rval after completed
    constructor
    · rintro rfl
      obtain error | ⟨savedOffset, buffer, locked, header, rest⟩ := header_of_success completed
      · exact absurd rfl error
      · obtain ⟨bytes, -, acquired⟩ := headerRead header
        obtain ⟨⟨code, offset⟩, found, search, -⟩ := run_bind_inv (posix platform) (by
          rw [useTable, run_note] at rest
          exact rest)
        by_cases success : code = .success
        · subst success
          obtain ⟨changed, left, exit, ran, leaves, calls⟩ := useTable_found search rest
          refine ⟨⟨savedOffset, buffer, offset, changed, left, locked, found, exit⟩, header, bytes,
            search, ran, ?_, acquired, ?_, ?_⟩
          · rw [(flatrecsGetNextOffset_header header).2, calls, List.append_assoc, List.append_assoc,
              List.append_assoc]
          · exact lockRequests_free lockFree_searchNext
          · have released := @leaveTable_success platform (tableArea tableHead) exit savedOffset
              changed left.toBytes
            unfold Ends at released
            rw [leaves] at released
            exact released rfl
        · have fails : SearchFails platform fuel handle tableHead world savedOffset buffer locked
              found := ⟨header, code, offset, success, search⟩
          obtain ⟨completes, -⟩ := @failed_search_completes platform fuel handle tableHead user world
            _ _ _ _ fails
          rw [completed, if_neg (shows _ _ _ _ fails)] at completes
          exact absurd (Except.ok.inj completes) RndError.noConfusion
    · intro savedOffset buffer locked found fails
      obtain ⟨completes, calls⟩ := @failed_search_completes platform fuel handle tableHead user world
        _ _ _ _ fails
      refine ⟨?_, calls⟩
      rw [completed, if_neg (shows _ _ _ _ fails)] at completes
      rw [Except.ok.inj completes]
      exact RndError.noConfusion

end Parts

/-! ## A second block that cannot be read -/

/-- The table of two blocks, its root full. -/
def twoBlocksFull : World :=
  { disk := patch twoBlocks 60 (encode 4 2), streams := 1, live := [0] }

/-- The read of the second block fails, and nothing else. -/
def secondUnread : Platform :=
    ⟨fun clock => if clock = 5 then some { errno := 5 } else none, fun _ _ => 0⟩

theorem unread_block_not_reported :
    ¬ ∀ platform fuel handle tableHead user world,
      SuccessMeansRan platform fuel handle tableHead user world := by
  intro always
  have answered : (run (posix secondUnread)
      (flatrecsGetNextOffset 3 twoBlocksHandle 0 takeNumber) twoBlocksFull).1 = .ok .success := by
    decide +kernel
  have tells := always secondUnread 3 twoBlocksHandle 0 takeNumber twoBlocksFull _ _
    (run_eq_of_value _ answered)
  have header : (run (posix secondUnread) (readTableHead twoBlocksHandle (tableArea 0))
      twoBlocksFull).1 = .ok (.ok (0, slice twoBlocksFull.file 0 sizeofHeadTable)) := by
    decide +kernel
  have search : (run (posix secondUnread) (searchNext 3 twoBlocksHandle (tableArea 0)
      (slice twoBlocksFull.file 0 sizeofHeadTable)) (run (posix secondUnread)
        (readTableHead twoBlocksHandle (tableArea 0)) twoBlocksFull).2).1 =
      .ok (.systemError, -1) := by
    decide +kernel
  have fails : SearchFails secondUnread 3 twoBlocksHandle 0 twoBlocksFull _ _ _ _ :=
    ⟨run_eq_of_value _ header, .systemError, -1, RndError.noConfusion, run_eq_of_value _ search⟩
  exact (tells.failure _ _ _ _ fails).1 rfl

end Recnodb
