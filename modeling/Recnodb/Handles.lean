import Mathlib.Data.List.Induction
import Mathlib.Data.List.Nodup
import Recnodb.Database
import Recnodb.Creation
import Recnodb.Outcomes

/-!
# The stream of a handle

Calls that open and close one handle, in any order. An opening that finds a header
which does not validate stores the stream in the handle before it looks, and closes
it afterwards: the handle then holds a closed stream. Every other failing opening
leaves a handle without one. What a call does to the open streams is said once, and
the runs follow by induction.
-/

namespace Recnodb

open Interaction Program

/-- A call on the handle. An opening names the contents of the file at its path. -/
inductive HandleCall where
  | openRaw (flags : UInt32) (reclen : Int32) (contents : List UInt8)
  | closeRaw
  | fileClose

/-- The handle, the process, and the streams that were passed to `fclose` so far. -/
structure Session where
  handle : Rndh
  world : World
  closed : List Nat

/-- A process with nothing open and a handle that was just prepared. -/
def Session.init : Session := ⟨rndInit.2, { disk := [] }, []⟩

/-- `blocks_file_close` returns nothing. -/
def HandleCall.program (handle : Rndh) : HandleCall → Prog (RndError × Rndh)
  | .openRaw flags reclen _ => rndOpenRaw reclen flags
  | .closeRaw => rndCloseRaw handle
  | .fileClose => do
    let handle ← blocksFileClose handle
    pure (.success, handle)

/-- The process, with the file that the call is about. -/
def HandleCall.prepare (world : World) : HandleCall → World
  | .openRaw _ _ contents => { world with disk := contents, held := [] }
  | _ => world

/-- The streams that a run passes to `fclose`, in order. -/
def closings (past : List (Moment Call Answer World)) : List Nat :=
  past.filterMap fun moment => match moment.request with
    | .fclose stream => some stream
    | _ => none

/-- One call: its code, none where an assertion fails, and the session behind it. -/
def Session.perform (platform : Platform) (session : Session) (call : HandleCall) :
    Option RndError × Session :=
  let program := call.program session.handle
  let world := call.prepare session.world
  let closed := session.closed ++ closings (log (posix platform) program world)
  match run (posix platform) program world with
  | (.ok (rval, handle), after) => (some rval, ⟨handle, after, closed⟩)
  | (.error _, after) => (none, ⟨session.handle, after, closed⟩)

/-- The session behind a sequence of calls. -/
def sessionAfter (platform : Platform) (calls : List HandleCall) : Session :=
  calls.foldl (fun session call => (session.perform platform call).2) Session.init

/-- The handle holds no closed stream. -/
def Session.Sound (session : Session) : Prop :=
  ∀ stream, session.handle.file = some stream → stream ∈ session.world.live

/-- What is expected of a sequence of calls: the handle is sound behind each of them; a
failing opening leaves no stream in it, so that closing it is refused; and no stream is
closed twice. -/
structure HandleKept (platform : Platform) (calls : List HandleCall) : Prop where
  sound : ∀ past, past <+: calls → (sessionAfter platform past).Sound
  cleared : ∀ past flags reclen contents, past ++ [.openRaw flags reclen contents] <+: calls →
    ((sessionAfter platform past).perform platform (.openRaw flags reclen contents)).1 ≠
      some .success →
    let failed := sessionAfter platform (past ++ [.openRaw flags reclen contents])
    failed.handle.file = none ∧ (failed.perform platform .closeRaw).1 = some .fileNotOpen
  once : (sessionAfter platform calls).closed.Nodup

/-- The opening reads a header that does not validate: the file is there to be read, it
is long enough, and neither `fopen` nor `fread` fails. -/
structure HeaderRefused (platform : Platform) (flags : UInt32) (contents : List UInt8)
    (clock : Nat) : Prop where
  read : rndCreate flags = false
  opened : platform.faults clock = none
  delivered : platform.faults (clock + 1) = none
  long : sizeofHeadFile ≤ contents.length
  invalid : blocksValidateHeadFile
    (some (RndHeadFile.ofBytes (Octets.slice contents 0 sizeofHeadFile))) ≠ .success

/-! ## Calls that open and close nothing -/

/-- The streams of the process are as they were. -/
structure StreamsKept (world after : World) : Prop where
  live : after.live = world.live
  streams : after.streams = world.streams

/-- A direct call opens and closes no stream. -/
theorem posix_streams {platform : Platform} {request : Call} {world : World}
    (direct : request.Direct) : StreamsKept world (posix platform request world).2 := by
  rcases @FromPosition.posix_cases platform request world with sound | ⟨fault, broken⟩
  · rw [sound]
    cases request <;> simp only [unfaulted] <;> (try split_ifs) <;>
      first | exact ⟨rfl, rfl⟩ | exact direct.elim
  · rw [broken]
    cases request <;> first | exact ⟨rfl, rfl⟩ | exact direct.elim

/-- A program of direct calls opens and closes no stream. -/
theorem run_streams {α : Type} {platform : Platform} {program : Prog α} {world : World}
    (direct : program.Only Call.Direct) :
    StreamsKept world (run (posix platform) program world).2 := by
  refine run_only _ (StreamsKept world) (fun request between allowed soFar => ?_) direct world
    ⟨rfl, rfl⟩
  have here := @posix_streams platform _ between allowed
  exact ⟨here.live.trans soFar.live, here.streams.trans soFar.streams⟩

/-- A program of direct calls closes nothing. -/
theorem closings_direct {α : Type} {platform : Platform} {program : Prog α} {world : World}
    (direct : program.Only Call.Direct) : closings (log (posix platform) program world) = [] := by
  refine List.filterMap_eq_nil_iff.mpr fun moment among => ?_
  have allowed := log_only (posix platform) direct world moment among
  obtain ⟨before, request, reply⟩ := moment
  cases request with
  | fclose stream => exact allowed.elim
  | _ => rfl

/-- The closings of two parts in a row. -/
@[simp] theorem closings_append (first second : List (Moment Call Answer World)) :
    closings (first ++ second) = closings first ++ closings second := List.filterMap_append

/-- The header of an opened file is written or read by direct calls. -/
theorem direct_headOfOpenedFile {create : Bool} {chunkSize recSize : UInt32} {handle : Rndh} :
    (headOfOpenedFile create chunkSize recSize handle).Only Call.Direct := by
  have kept {handle : Rndh} : (keepErrno >>= fun _ => pure (.systemError, handle)
      : Prog (RndError × Rndh)).Only Call.Direct := direct_kept
  have rest {handle : Rndh} {reserved : Bool} :
      (if reserved then blocksPrepHeadFile chunkSize chunkSize recSize >>= fun headFile =>
          fwrite headFile.toBytes >>= fun written =>
            if written then pure (.success, { handle with headFile := headFile })
            else keepErrno >>= fun _ => pure (.systemError, { handle with headFile := headFile })
        else keepErrno >>= fun _ => pure (.systemError, handle)
        : Prog (RndError × Rndh)).Only Call.Direct := by
    cases reserved with
    | false => exact kept
    | true =>
      refine only_bind (only_bind direct_cAssert fun _ => trivial) fun headFile => ?_
      refine only_bind direct_fwrite fun written => ?_
      cases written with
      | false => exact kept
      | true => trivial
  cases create with
  | true =>
    refine only_bind direct_fseek fun found => ?_
    cases found with
    | false => exact kept
    | true =>
      refine only_bind direct_fwrite fun wrote => ?_
      cases wrote with
      | false => exact kept
      | true => exact only_bind direct_fseek fun _ => rest
  | false =>
    refine only_bind direct_fread fun read => ?_
    cases read with
    | none => exact kept
    | some bytes => trivial

/-! ## An opening -/

/-- The two ways in which an opened file delivers no header or one of its own. -/
theorem headOfOpenedFile_answers {create : Bool} {chunkSize recSize : UInt32} {handle : Rndh}
    (positive : chunkSize > 0) :
    (headOfOpenedFile create chunkSize recSize handle).Answers fun result =>
      result.2.file = handle.file ∧
        (create = true → result.1 = .success → result.2.headFile = freshHead chunkSize recSize) := by
  have failed {handle' : Rndh} (same : handle'.file = handle.file) :
      (keepErrno >>= fun _ => pure (.systemError, handle') : Prog (RndError × Rndh)).Answers
        fun result => result.2.file = handle.file ∧
          (create = true → result.1 = .success →
            result.2.headFile = freshHead chunkSize recSize) :=
    fun _ => ⟨same, fun _ success => absurd success RndError.noConfusion⟩
  cases create with
  | true =>
    rw [headOfOpenedFile, if_pos rfl, blocksPrepHeadFile_eq positive]
    intro found
    cases found with
    | false => exact failed rfl
    | true =>
      intro wrote
      cases wrote with
      | false => exact failed rfl
      | true =>
        intro rewound
        cases rewound with
        | false => exact failed rfl
        | true =>
          intro stored
          cases stored with
          | false => exact failed rfl
          | true => exact ⟨rfl, fun _ _ => rfl⟩
  | false =>
    intro read
    cases read with
    | none => exact failed rfl
    | some bytes => exact ⟨rfl, Bool.noConfusion⟩

/-- Whether a header is delivered from the file, and which. -/
theorem headOfOpenedFile_delivers {platform : Platform} {chunkSize recSize : UInt32}
    {handle : Rndh} {world : World} :
    Ends (posix platform) world (headOfOpenedFile false chunkSize recSize handle)
      fun outcome _ _ => ∀ result, outcome = .ok result →
        (result.1 = .success ↔ platform.faults world.clock = none ∧
          world.position + sizeofHeadFile ≤ world.file.length) ∧
        (result.1 = .success → result.2.headFile =
          RndHeadFile.ofBytes (Octets.slice world.file world.position sizeofHeadFile)) := by
  have failed {after : World} (broken : ¬ (platform.faults world.clock = none ∧
      world.position + sizeofHeadFile ≤ world.file.length)) :
      Ends (posix platform) after
        (keepErrno >>= fun _ => pure (.systemError, handle) : Prog (RndError × Rndh))
        fun outcome _ _ => ∀ result, outcome = .ok result →
        (result.1 = .success ↔ platform.faults world.clock = none ∧
          world.position + sizeofHeadFile ≤ world.file.length) ∧
        (result.1 = .success → result.2.headFile =
          RndHeadFile.ofBytes (Octets.slice world.file world.position sizeofHeadFile)) := by
    rintro result ⟨⟩
    exact ⟨iff_of_false RndError.noConfusion broken, fun success =>
      absurd success RndError.noConfusion⟩
  rw [headOfOpenedFile, if_neg Bool.false_ne_true]
  cases scheduled : platform.faults world.clock with
  | some fault =>
    have lost : posix platform (.fread sizeofHeadFile) world =
        (none, { (world.drain fault.lost).failed fault.errno with
          position := min fault.position offMax }) := by
      rw [posix, scheduled]
      rfl
    refine Ends.call lost (Ends.mono (failed ?_) fun _ _ _ holds => ?_)
    · rw [scheduled]
      exact fun sound => Option.some_ne_none _ sound.1
    · rwa [scheduled] at holds
  | none =>
    by_cases long : world.position + sizeofHeadFile ≤ world.file.length
    · have read : posix platform (.fread sizeofHeadFile) world =
          (some ⟨Octets.slice world.file world.position sizeofHeadFile,
            Octets.slice_length_inside long⟩,
            { world.flush.tick with position := world.position + sizeofHeadFile }) := by
        rw [posix, scheduled]
        exact dif_pos ⟨by decide, long⟩
      refine Ends.call read ?_
      rintro result ⟨⟩
      exact ⟨iff_of_true rfl ⟨rfl, long⟩, fun _ => rfl⟩
    · have short : posix platform (.fread sizeofHeadFile) world =
          (none, { world.flush.failed world.errno with
            position := max world.position world.file.length }) := by
        rw [posix, scheduled]
        exact dif_neg fun inside => long inside.2
      refine Ends.call short (Ends.mono (failed fun sound => long sound.2) fun _ _ _ holds => ?_)
      rwa [scheduled] at holds

/-- How an opening ends: with the handle and the code it delivers, the streams it closed
and the process behind it. -/
inductive Opening (refused : Prop) (world : World) : RndError × Rndh → List Nat → World → Prop where
  | opened {handle : Rndh} {after : World} (accepted : ¬ refused)
      (file : handle.file = some world.streams) (live : after.live = world.streams :: world.live)
      (streams : after.streams = world.streams + 1) :
      Opening refused world (.success, handle) [] after
  | unopened {rval : RndError} {handle : Rndh} {after : World} (failed : rval ≠ .success)
      (accepted : ¬ refused) (file : handle.file = none) (kept : StreamsKept world after) :
      Opening refused world (rval, handle) [] after
  | abandoned {rval : RndError} {handle : Rndh} {after : World} (failed : rval ≠ .success)
      (accepted : ¬ refused) (file : handle.file = none) (live : after.live = world.live)
      (streams : after.streams = world.streams + 1) :
      Opening refused world (rval, handle) [world.streams] after
  | dangling {rval : RndError} {handle : Rndh} {after : World} (failed : rval ≠ .success)
      (invalid : refused) (file : handle.file = some world.streams)
      (live : after.live = world.live) (streams : after.streams = world.streams + 1) :
      Opening refused world (rval, handle) [world.streams] after

/-- Only the streams before an opening matter to it. -/
theorem Opening.of_streams {refused : Prop} {world world' after : World}
    {result : RndError × Rndh} {closed : List Nat}
    (opening : Opening refused world result closed after)
    (same : StreamsKept world world') : Opening refused world' result closed after := by
  obtain ⟨live, streams⟩ := same
  cases opening with
  | opened accepted file left number =>
    rw [← streams] at file number
    rw [← streams, ← live] at left
    exact .opened accepted file left number
  | unopened failed accepted file kept =>
    exact .unopened failed accepted file ⟨kept.live.trans live.symm, kept.streams.trans streams.symm⟩
  | abandoned failed accepted file left number =>
    rw [← streams]
    rw [← streams] at number
    exact .abandoned failed accepted file (left.trans live.symm) number
  | dangling failed invalid file left number =>
    rw [← streams]
    rw [← streams] at file number
    exact .dangling failed invalid file (left.trans live.symm) number

/-- What a closing leaves of the streams, whether it fails or not. -/
theorem posix_fclose {platform : Platform} {stream : Nat} {world : World} :
    (posix platform (.fclose stream) world).2.live = world.live.erase stream ∧
      (posix platform (.fclose stream) world).2.streams = world.streams := by
  rcases @FromPosition.posix_cases platform (.fclose stream) world with
    sound | ⟨fault, broken⟩
  · rw [sound]
    exact ⟨rfl, rfl⟩
  · rw [broken]
    exact ⟨rfl, rfl⟩

/-- The last line of an opening that gives its stream up. -/
theorem fclose_ends {platform : Platform} {stream : Nat} {world : World}
    {result : RndError × Rndh} :
    Ends (posix platform) world (fclose stream >>= fun _ => pure result)
      fun outcome past after => outcome = .ok result ∧ closings past = [stream] ∧
        after.live = world.live.erase stream ∧ after.streams = world.streams :=
  ends_issue ⟨rfl, rfl, posix_fclose⟩

/-- The rest of an opening, behind the header. -/
def acceptHead (stream : Nat) (result : RndError × Rndh) : Prog (RndError × Rndh) :=
  if result.1 ≠ .success then do
    let _ ← fclose stream
    pure result
  else
    let handle := { result.2 with file := some stream }
    let rval := blocksValidateHandle (some handle)
    if rval ≠ .success then do
      let _ ← fclose stream
      pure (rval, handle)
    else pure (.success, handle)

/-- An opening, cut behind the header. -/
theorem blocksFileOpen_eq {flags chunkSize recSize : UInt32} :
    blocksFileOpen flags chunkSize recSize = (do
      primeHandle
      match ← fopen (rndCreate flags) with
      | none =>
        keepErrno
        pure (.systemError, Rndh.cleared)
      | some f =>
        let result ← headOfOpenedFile (rndCreate flags) chunkSize recSize Rndh.cleared
        acceptHead f result) := rfl

/-- A delivered header decides what becomes of the stream. -/
theorem acceptHead_ends {platform : Platform} {refused : Prop} {world opened : World}
    {result : RndError × Rndh} (live : opened.live = world.streams :: world.live)
    (streams : opened.streams = world.streams + 1) (unset : result.2.file = none)
    (validated : refused ↔ result.1 = .success ∧
      blocksValidateHeadFile (some result.2.headFile) ≠ .success) :
    Ends (posix platform) opened (acceptHead world.streams result)
      fun outcome past after => ∃ delivered, outcome = .ok delivered ∧
        Opening refused world delivered (closings past) after := by
  have erased : opened.live.erase world.streams = world.live := by
    rw [live, List.erase_cons_head]
  unfold acceptHead
  by_cases read : result.1 = .success
  · rw [if_neg (not_not_intro read)]
    dsimp only
    have same : blocksValidateHandle (some { result.2 with file := some world.streams }) =
        blocksValidateHeadFile (some result.2.headFile) := by
      rw [blocksValidateHandle, if_neg (Option.some_ne_none _)]
    rw [same]
    by_cases valid : blocksValidateHeadFile (some result.2.headFile) = .success
    · rw [if_neg (not_not_intro valid)]
      exact ⟨_, rfl, .opened (fun bad => (validated.mp bad).2 valid) rfl live streams⟩
    · rw [if_pos valid]
      refine Ends.mono fclose_ends ?_
      rintro _ past after ⟨rfl, closed, left, number⟩
      rw [closed]
      exact ⟨_, rfl, .dangling valid (validated.mpr ⟨read, valid⟩) rfl (left.trans erased)
        (number.trans streams)⟩
  · rw [if_pos read]
    refine Ends.mono fclose_ends ?_
    rintro _ past after ⟨rfl, closed, left, number⟩
    rw [closed]
    exact ⟨_, rfl, .abandoned read (fun bad => read (validated.mp bad).1) unset
      (left.trans erased) (number.trans streams)⟩

/-- The header that an opening reads or makes, and whether it is one that is refused. -/
theorem headOfOpenedFile_ends {platform : Platform} {flags recSize : UInt32} {world opened : World}
    (sound : platform.faults world.clock = none) (clock : opened.clock = world.clock + 1)
    (start : opened.position = 0) (file : rndCreate flags = false → opened.file = world.file) :
    Ends (posix platform) opened (headOfOpenedFile (rndCreate flags) 4096 recSize Rndh.cleared)
      fun outcome past after => ∃ result, outcome = .ok result ∧ closings past = [] ∧
        StreamsKept opened after ∧ result.2.file = none ∧
        (HeaderRefused platform flags world.file world.clock ↔ result.1 = .success ∧
          blocksValidateHeadFile (some result.2.headFile) ≠ .success) := by
  have positive : (4096 : UInt32) > 0 := by decide
  obtain ⟨result, after, completed, unset, made⟩ := run_answers (posix platform)
    (@headOfOpenedFile_answers (rndCreate flags) 4096 recSize Rndh.cleared positive) opened
  have kept : StreamsKept opened after := by
    have streams := @run_streams _ platform _ opened
      (@direct_headOfOpenedFile (rndCreate flags) 4096 recSize Rndh.cleared)
    rwa [completed] at streams
  unfold Ends
  rw [completed]
  refine ⟨result, rfl, closings_direct direct_headOfOpenedFile, kept, unset, ?_⟩
  cases create : rndCreate flags with
  | true =>
    have valid (success : result.1 = .success) :
        blocksValidateHeadFile (some result.2.headFile) = .success := by
      rw [made create success]
      exact @freshHandle_valid 0 4096 (by decide) recSize
    refine iff_of_false (fun bad => ?_) fun bad => bad.2 (valid bad.1)
    exact Bool.noConfusion (bad.read.symm.trans create)
  | false =>
    have delivers := @headOfOpenedFile_delivers platform 4096 recSize Rndh.cleared opened
    rw [create] at completed
    unfold Ends at delivers
    rw [completed, clock, start, file create, Nat.zero_add] at delivers
    obtain ⟨success, head⟩ := delivers result rfl
    constructor
    · intro bad
      have read := success.mpr ⟨bad.delivered, bad.long⟩
      rw [head read]
      exact ⟨read, bad.invalid⟩
    · rintro ⟨read, invalid⟩
      rw [head read] at invalid
      exact ⟨create, sound, (success.mp read).1, (success.mp read).2, invalid⟩

/-- What an opening does. -/
theorem rndOpenRaw_ends {platform : Platform} {reclen : Int32} {flags : UInt32} {world : World} :
    Ends (posix platform) world (rndOpenRaw reclen flags)
      fun outcome past after => ∃ delivered, outcome = .ok delivered ∧
        Opening (HeaderRefused platform flags world.file world.clock) world delivered (closings past)
          after := by
  rw [rndOpenRaw, blocksFileOpen_eq]
  refine ends_primeHandle ?_
  cases scheduled : platform.faults world.clock with
  | some fault =>
    have broken : posix platform (.fopen (rndCreate flags)) { world with sysErrno := 0 } =
        (none, World.failed { world with sysErrno := 0 } fault.errno) := by
      rw [posix, scheduled]
      rfl
    refine Ends.call broken ?_
    refine Ends.call posix_keepErrno ⟨_, rfl, .unopened RndError.noConfusion (fun bad => ?_) rfl
      ⟨rfl, rfl⟩⟩
    exact Option.some_ne_none _ (scheduled.symm.trans bad.opened)
  | none =>
    have opened : posix platform (.fopen (rndCreate flags)) { world with sysErrno := 0 } =
        (some world.streams, { World.tick { world with sysErrno := 0 } with
          disk := if rndCreate flags then [] else world.file, held := [], position := 0,
          streams := world.streams + 1, live := world.streams :: world.live }) := by
      rw [posix, scheduled]
      rfl
    refine Ends.call opened ?_
    change Ends _ _ (headOfOpenedFile (rndCreate flags) 4096 reclen.toUInt32 Rndh.cleared >>=
      acceptHead world.streams) _
    refine Ends.bind (headOfOpenedFile_ends scheduled rfl rfl fun read => ?_) ?_ ?_
    · rw [read]
      rfl
    · rintro result past between ⟨_, ⟨⟩, none, kept, unset, validated⟩
      refine Ends.mono (acceptHead_ends (kept.live.trans rfl) (kept.streams.trans rfl) unset
        validated) ?_
      rintro _ later after ⟨delivered, rfl, ends⟩
      refine ⟨delivered, rfl, ?_⟩
      change Opening _ world delivered (closings (past ++ later)) after
      rw [closings_append, none]
      exact ends
    · rintro reason past after ⟨_, ⟨⟩, -⟩

/-! ## One call of a session -/

section Calls

variable {platform : Platform} {session : Session}

/-- What an opening makes of the session. -/
theorem perform_openRaw {flags : UInt32} {reclen : Int32} {contents : List UInt8} :
    ∃ rval handle closed after,
      session.perform platform (.openRaw flags reclen contents) =
        (some rval, ⟨handle, after, session.closed ++ closed⟩) ∧
      Opening (HeaderRefused platform flags contents session.world.clock) session.world
        (rval, handle) closed after := by
  have ends := @rndOpenRaw_ends platform reclen flags
    ((HandleCall.openRaw flags reclen contents).prepare session.world)
  unfold Ends at ends
  have performed : session.perform platform (.openRaw flags reclen contents) =
      match run (posix platform) (rndOpenRaw reclen flags)
        ((HandleCall.openRaw flags reclen contents).prepare session.world) with
      | (.ok (rval, handle), after) => (some rval, ⟨handle, after, session.closed ++
          closings (log (posix platform) (rndOpenRaw reclen flags)
            ((HandleCall.openRaw flags reclen contents).prepare session.world))⟩)
      | (.error _, after) => (none, ⟨session.handle, after, session.closed ++
          closings (log (posix platform) (rndOpenRaw reclen flags)
            ((HandleCall.openRaw flags reclen contents).prepare session.world))⟩) := rfl
  obtain ⟨⟨rval, handle⟩, completed, opening⟩ := ends
  rw [run_eq_of_value _ completed] at performed
  exact ⟨rval, handle, _, _, performed, opening.of_streams ⟨rfl, rfl⟩⟩

/-- A call that closes. -/
def HandleCall.Closes : HandleCall → Prop
  | .openRaw _ _ _ => False
  | _ => True

/-- Closing a handle without a stream does nothing. -/
theorem perform_unopened {call : HandleCall} (closes : call.Closes)
    (unset : session.handle.file = none) : (session.perform platform call).2 = session := by
  obtain ⟨⟨file, headFile⟩, world, closed⟩ := session
  obtain rfl : file = none := unset
  cases call with
  | openRaw flags reclen contents => exact closes.elim
  | closeRaw =>
    change Session.mk _ world (closed ++ []) = _
    rw [List.append_nil]
  | fileClose =>
    change Session.mk _ world (closed ++ []) = _
    rw [List.append_nil]

/-- Closing a handle with a stream takes it out and closes it. -/
theorem perform_opened {call : HandleCall} {stream : Nat} (closes : call.Closes)
    (set : session.handle.file = some stream) :
    ∃ after : World, (session.perform platform call).2 =
        ⟨{ session.handle with file := none }, after, session.closed ++ [stream]⟩ ∧
      after.live = session.world.live.erase stream ∧ after.streams = session.world.streams := by
  obtain ⟨⟨file, headFile⟩, world, closed⟩ := session
  obtain rfl : file = some stream := set
  cases call with
  | openRaw flags reclen contents => exact closes.elim
  | closeRaw => exact ⟨(posix platform (.fclose stream) world).2, rfl, posix_fclose⟩
  | fileClose => exact ⟨(posix platform (.fclose stream) world).2, rfl, posix_fclose⟩

/-- A handle without a stream is refused. -/
theorem perform_refused (unset : session.handle.file = none) :
    (session.perform platform .closeRaw).1 = some .fileNotOpen := by
  obtain ⟨⟨file, headFile⟩, world, closed⟩ := session
  obtain rfl : file = none := unset
  rfl

/-! ## What every call keeps -/

/-- The handle is sound, the open streams are numbered below the next one and told apart,
and what was closed is closed once and open no more. -/
structure Session.Kept (session : Session) : Prop where
  sound : session.Sound
  numbered : ∀ stream ∈ session.world.live, stream < session.world.streams
  distinct : session.world.live.Nodup
  gone : ∀ stream ∈ session.closed, stream < session.world.streams ∧ stream ∉ session.world.live
  once : session.closed.Nodup

/-- This holds at the start. -/
theorem init_kept : Session.init.Kept where
  sound := by rintro stream ⟨⟩
  numbered := by rintro stream ⟨⟩
  distinct := List.nodup_nil
  gone := by rintro stream ⟨⟩
  once := List.nodup_nil

/-- A stream that was not closed before, behind those that were. -/
theorem once_more {closed : List Nat} {stream : Nat} (once : closed.Nodup)
    (new : stream ∉ closed) : (closed ++ [stream]).Nodup := by
  refine List.nodup_append.mpr ⟨once, List.nodup_singleton stream, ?_⟩
  rintro other among _ now rfl
  exact new (List.mem_singleton.mp now ▸ among)

/-- A closing keeps it. -/
theorem kept_close {call : HandleCall} (kept : session.Kept) (closes : call.Closes) :
    (session.perform platform call).2.Kept := by
  cases held : session.handle.file with
  | none =>
    rw [perform_unopened closes held]
    exact kept
  | some stream =>
    obtain ⟨after, same, live, streams⟩ := @perform_opened platform _ _ _ closes held
    rw [same]
    have among := kept.sound stream held
    constructor
    · rintro other ⟨⟩
    · change ∀ other ∈ after.live, other < after.streams
      rw [live, streams]
      exact fun other left => kept.numbered other (List.mem_of_mem_erase left)
    · change after.live.Nodup
      rw [live]
      exact kept.distinct.erase stream
    · change ∀ other ∈ session.closed ++ [stream], other < after.streams ∧ other ∉ after.live
      rw [live, streams]
      intro other among'
      rcases List.mem_append.mp among' with before | now
      · exact ⟨(kept.gone other before).1, fun left =>
          (kept.gone other before).2 (List.mem_of_mem_erase left)⟩
      · obtain rfl := List.mem_singleton.mp now
        exact ⟨kept.numbered other among, kept.distinct.not_mem_erase⟩
    · exact once_more kept.once fun before => (kept.gone stream before).2 among

/-- An opening keeps it, unless it refuses a header that it read. -/
theorem kept_open {flags : UInt32} {reclen : Int32} {contents : List UInt8} (kept : session.Kept)
    (accepted : ¬ HeaderRefused platform flags contents session.world.clock) :
    (session.perform platform (.openRaw flags reclen contents)).2.Kept := by
  obtain ⟨rval, handle, closed, after, same, opening⟩ :=
    @perform_openRaw platform session flags reclen contents
  rw [same]
  have fresh : session.world.streams ∉ session.world.live := fun among =>
    Nat.lt_irrefl _ (kept.numbered _ among)
  have uncounted : session.world.streams ∉ session.closed := fun among =>
    Nat.lt_irrefl _ (kept.gone _ among).1
  cases opening with
  | opened _ file live streams =>
    rw [List.append_nil]
    constructor
    · intro stream held
      obtain rfl := Option.some.inj (file.symm.trans held)
      change _ ∈ after.live
      rw [live]
      exact List.mem_cons_self
    · change ∀ stream ∈ after.live, stream < after.streams
      rw [live, streams]
      intro stream among
      rcases List.mem_cons.mp among with rfl | before
      · exact Nat.lt_succ_self _
      · exact Nat.lt_succ_of_lt (kept.numbered stream before)
    · change after.live.Nodup
      rw [live]
      exact List.nodup_cons.mpr ⟨fresh, kept.distinct⟩
    · change ∀ stream ∈ session.closed, stream < after.streams ∧ stream ∉ after.live
      rw [live, streams]
      intro stream before
      obtain ⟨below, left⟩ := kept.gone stream before
      refine ⟨Nat.lt_succ_of_lt below, fun among => ?_⟩
      rcases List.mem_cons.mp among with rfl | there
      · exact uncounted before
      · exact left there
    · exact kept.once
  | unopened _ _ file unchanged =>
    rw [List.append_nil]
    constructor
    · intro stream held
      exact absurd (held.symm.trans file) (Option.some_ne_none _)
    · change ∀ stream ∈ after.live, stream < after.streams
      rw [unchanged.live, unchanged.streams]
      exact kept.numbered
    · change after.live.Nodup
      rw [unchanged.live]
      exact kept.distinct
    · change ∀ stream ∈ session.closed, stream < after.streams ∧ stream ∉ after.live
      rw [unchanged.live, unchanged.streams]
      exact kept.gone
    · exact kept.once
  | abandoned _ _ file live streams =>
    constructor
    · intro stream held
      exact absurd (held.symm.trans file) (Option.some_ne_none _)
    · change ∀ stream ∈ after.live, stream < after.streams
      rw [live, streams]
      exact fun stream among => Nat.lt_succ_of_lt (kept.numbered stream among)
    · change after.live.Nodup
      rw [live]
      exact kept.distinct
    · change ∀ stream ∈ session.closed ++ _, stream < after.streams ∧ stream ∉ after.live
      rw [live, streams]
      intro stream among
      rcases List.mem_append.mp among with before | now
      · exact ⟨Nat.lt_succ_of_lt (kept.gone stream before).1, (kept.gone stream before).2⟩
      · obtain rfl := List.mem_singleton.mp now
        exact ⟨Nat.lt_succ_self _, fresh⟩
    · exact once_more kept.once uncounted
  | dangling _ invalid _ _ _ => exact absurd invalid accepted

end Calls

/-! ## Runs -/

section Runs

variable {platform : Platform} {calls : List HandleCall}

/-- The session behind one call more. -/
theorem sessionAfter_append (past : List HandleCall) (call : HandleCall) :
    sessionAfter platform (past ++ [call]) =
      ((sessionAfter platform past).perform platform call).2 := by
  rw [sessionAfter, List.foldl_append]
  rfl

/-- No opening of the run refuses a header that it read. -/
def HeadersAccepted (platform : Platform) (calls : List HandleCall) : Prop :=
  ∀ past flags reclen contents, past ++ [.openRaw flags reclen contents] <+: calls →
    ¬ HeaderRefused platform flags contents (sessionAfter platform past).world.clock

/-- What one call keeps, every run keeps. -/
theorem run_kept (accepted : HeadersAccepted platform calls) :
    (sessionAfter platform calls).Kept := by
  induction calls using List.reverseRecOn with
  | nil => exact init_kept
  | append_singleton past call ih =>
    have before := ih fun earlier flags reclen contents within =>
      accepted earlier flags reclen contents (within.trans (List.prefix_append past [call]))
    rw [sessionAfter_append]
    cases call with
    | openRaw flags reclen contents =>
      exact kept_open before (accepted past flags reclen contents List.prefix_rfl)
    | closeRaw => exact kept_close before trivial
    | fileClose => exact kept_close before trivial

/-- An opening that fails, and refuses no header that it read, leaves no stream. -/
theorem open_cleared {session : Session} {flags : UInt32} {reclen : Int32} {contents : List UInt8}
    (accepted : ¬ HeaderRefused platform flags contents session.world.clock)
    (failed : (session.perform platform (.openRaw flags reclen contents)).1 ≠ some .success) :
    (session.perform platform (.openRaw flags reclen contents)).2.handle.file = none := by
  obtain ⟨rval, handle, closed, after, same, opening⟩ :=
    @perform_openRaw platform session flags reclen contents
  rw [same] at failed ⊢
  cases opening with
  | opened => exact absurd rfl failed
  | unopened _ _ file _ => exact file
  | abandoned _ _ file _ _ => exact file
  | dangling _ invalid _ _ _ => exact absurd invalid accepted

/-- An opening that refuses a header it read leaves a closed stream in the handle. -/
theorem open_dangles {session : Session} {flags : UInt32} {reclen : Int32} {contents : List UInt8}
    (kept : session.Kept) (refused : HeaderRefused platform flags contents session.world.clock) :
    ¬ (session.perform platform (.openRaw flags reclen contents)).2.Sound := by
  obtain ⟨rval, handle, closed, after, same, opening⟩ :=
    @perform_openRaw platform session flags reclen contents
  rw [same]
  intro sound
  cases opening with
  | opened accepted _ _ _ => exact accepted refused
  | unopened _ accepted _ _ => exact accepted refused
  | abandoned _ accepted _ _ _ => exact accepted refused
  | dangling _ _ file live _ =>
    have among : session.world.streams ∈ after.live := sound _ file
    rw [live] at among
    exact Nat.lt_irrefl _ (kept.numbered _ among)

/-- A run whose handle stays sound met no such header, by induction on its prefixes: up to
the first one, the open streams are as they should be. -/
theorem accepted_of_sound
    (sound : ∀ past, past <+: calls → (sessionAfter platform past).Sound)
    (past : List HandleCall) (first : past <+: calls) : HeadersAccepted platform past := by
  induction past using List.reverseRecOn with
  | nil =>
    intro earlier flags reclen contents within
    exact absurd (List.prefix_nil.mp within) (by simp)
  | append_singleton before call ih =>
    have accepted := ih ((List.prefix_append before [call]).trans first)
    intro earlier flags reclen contents within refused
    rcases List.prefix_concat_iff.mp within with same | inside
    · obtain ⟨rfl, last⟩ := List.append_inj' same rfl
      obtain rfl := List.singleton_inj.mp last
      have dangling := @open_dangles _ _ _ reclen _ (run_kept accepted) refused
      rw [← sessionAfter_append] at dangling
      exact dangling (sound _ first)
    · exact accepted earlier flags reclen contents inside refused

/-- A run keeps its handle if and only if none of its openings reads a header that it
refuses. -/
theorem handleKept_iff_headersAccepted (platform : Platform) (calls : List HandleCall) :
    HandleKept platform calls ↔ HeadersAccepted platform calls := by
  constructor
  · intro holds
    exact accepted_of_sound holds.sound calls List.prefix_rfl
  · intro accepted
    have within {past : List HandleCall} (first : past <+: calls) : HeadersAccepted platform past :=
      fun earlier flags reclen contents inside =>
        accepted earlier flags reclen contents (inside.trans first)
    constructor
    · intro past first
      exact (run_kept (within first)).sound
    · intro past flags reclen contents first failed
      have cleared := open_cleared (accepted past flags reclen contents first) failed
      dsimp only
      rw [sessionAfter_append]
      exact ⟨cleared, perform_refused cleared⟩
    · exact (run_kept accepted).once

end Runs

/-- A file of seventy-two zero bytes is opened: its header does not validate. -/
theorem refused_header_leaves_closed_stream :
    ¬ ∀ platform calls, HandleKept platform calls := by
  intro always
  have kept := always (Platform.sound fun _ _ => 0) [.openRaw 0 3 (List.replicate 72 0)]
  have sound := kept.sound _ List.prefix_rfl
  exact absurd (sound 0 (by decide +kernel)) (by decide +kernel)

end Recnodb
