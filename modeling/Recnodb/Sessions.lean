import Recnodb.Handles
import Recnodb.Interaction.Traces
import Recnodb.LockDiscipline
import Recnodb.SearchEnds

/-!
# Sessions

The functions that open a file, hand it to a user callback and close it again. A callback
made of calls of the library, of its own calls on the stream and of further sessions can do
no harm: whatever the platform answers, every stream that is closed was open, none is left
open, and no assertion of the library fails.
-/

namespace Recnodb

open Interaction Program

/-! ## Open streams -/

/-- The streams open behind a call. -/
def streamsBehind (live : List Nat) : (request : Call) → Answer request → List Nat
  | .fopen _, some stream => stream :: live
  | .fclose stream, _ => live.erase stream
  | _, _ => live

/-- Only an open stream is closed, and no assertion fails. -/
def streamTracer : Tracer Call Answer Stop (List Nat) where
  allowed live request := ∀ stream, request = .fclose stream → stream ∈ live
  halts reason := reason ≠ .assertion
  advance := streamsBehind

/-- A part of a program that leaves the streams open that it found open. -/
def Harmless {α : Type} (program : Prog α) : Prop :=
  ∀ live, program.Traced streamTracer live fun _ after => after = live

/-- A call that opens and closes nothing. -/
def Call.Settled : Call → Prop
  | .fopen _ => False
  | .fclose _ => False
  | _ => True

/-- A plain call opens and closes no stream. -/
theorem Call.Plain.settled {request : Call} (plain : request.Plain) : request.Settled := by
  cases request <;> trivial

section Rules

variable {α β : Type} {handle : Rndh}

/-- A value does no harm. -/
theorem harmless_pure {value : α} : Harmless (pure value : Prog α) := fun _ => rfl

/-- Two harmless parts in a row are harmless. -/
theorem Harmless.bind {first : Prog α} {rest : α → Prog β} (harmless : Harmless first)
    (behind : ∀ value, Harmless (rest value)) : Harmless (first >>= rest) := fun live =>
  Traced.bind (harmless live) fun value _ same => same ▸ behind value live

/-- A call that opens and closes no stream is harmless. -/
theorem harmless_issue {request : Call} (settled : request.Settled) : Harmless (issue request) := by
  intro live
  refine ⟨fun stream is => ?_, fun reply => ?_⟩
  · subst is
    exact settled.elim
  · cases request <;> first | rfl | exact settled.elim

/-- Such a call, and then what follows its reply. -/
theorem harmless_call {request : Call} {rest : Answer request → Prog β} (settled : request.Settled)
    (each : ∀ reply, Harmless (rest reply)) : Harmless (issue request >>= rest) :=
  (harmless_issue settled).bind each

/-- Programs that always answer and open and close nothing. -/
theorem harmless_answers {good : α → Prop} {program : Prog α} (settled : program.Only Call.Settled)
    (answers : program.Answers good) : Harmless program := fun live =>
  (Traced.answered settled answers fun request allowed => by
    have step := harmless_issue allowed live
    exact ⟨step.1, step.2⟩).mono fun _ _ ends => ends.2

/-- A program of plain calls that always delivers a value is harmless. -/
theorem harmless_plain {good : α → Prop} {program : Prog α} (plain : program.Only Call.Plain)
    (answers : program.Answers good) : Harmless program :=
  harmless_answers (only_mono (fun _ => Call.Plain.settled) plain) answers

/-- A program of direct calls that always delivers a value is harmless. -/
theorem harmless_direct {good : α → Prop} {program : Prog α} (direct : program.Only Call.Direct)
    (answers : program.Answers good) : Harmless program :=
  harmless_plain (plain_of_direct direct) answers

/-- A loop of harmless rounds is harmless. -/
theorem harmless_iterate {body : β → Prog (β ⊕ α)} (round : ∀ current, Harmless (body current))
    (fuel : Nat) (current : β) : Harmless (Program.iterate .fuel body fuel current) := fun live =>
  Traced.iterate (fun _ after => after = live) Stop.noConfusion
    (fun current _ same => by
      subst same
      exact (round current _).mono fun outcome _ kept => by cases outcome <;> exact kept)
    fuel rfl

end Rules

/-! ## The functions -/

section Functions

variable {handle : Rndh} {offset : OffT} {bdef : RndBlockDef}

/-- The handle was accepted by an opening. -/
abbrev Rndh.Accepted (handle : Rndh) : Prop := blocksValidateHandle (some handle) = .success

/-- A write at an offset is harmless. -/
theorem harmless_seekWrite {bytes : List UInt8} : Harmless (seekWrite offset bytes) := by
  refine harmless_call trivial fun found => ?_
  cases found with
  | false => exact harmless_pure
  | true => exact harmless_issue trivial

/-- The step to the next header is harmless. -/
theorem harmless_blocksGetNextBlockHead {ib : InfoBlock} :
    Harmless (blocksGetNextBlockHead ib) := by
  rw [blocksGetNextBlockHead]
  split
  · refine (harmless_direct direct_seekRead delivers_seekRead).bind fun read => ?_
    cases read with
    | none => exact harmless_call trivial fun _ => harmless_pure
    | some bytes => exact harmless_pure
  · exact harmless_pure

/-- An append with an accepted handle is harmless if the header can be set. -/
theorem harmless_blocksAppendBlock (accepted : handle.Accepted) (settable : bdef.Settable) :
    Harmless (blocksAppendBlock handle bdef) :=
  harmless_call trivial fun _ =>
    (harmless_plain plain_appendBlock (appendBlock_places accepted settable)).bind fun _ =>
      harmless_call trivial fun _ => harmless_pure

/-- An extension with an accepted handle is harmless if the header can be set. -/
theorem harmless_blocksExtendChain (accepted : handle.Accepted) (settable : bdef.Settable) :
    Harmless (blocksExtendChain handle offset bdef) :=
  harmless_answers (only_blocksExtendChain (fun _ => Call.Plain.settled) fun _ _ => trivial)
    (delivers_blocksExtendChain accepted settable)

/-- A link is harmless. -/
theorem harmless_chainsAddLink {newLink : BlockLoc} : Harmless (chainsAddLink offset newLink) := by
  refine (harmless_direct direct_seekRead delivers_seekRead).bind fun read => ?_
  cases read with
  | none => exact harmless_call trivial fun _ => harmless_pure
  | some bytes =>
    dsimp only
    split
    · exact harmless_pure
    · exact harmless_seekWrite.bind fun written =>
        harmless_direct direct_outcome delivers_outcome

/-- A walk with a harmless viewer is harmless. -/
theorem harmless_chainsWalk {κ : Type} {fuel : Nat} {viewer : BlockWalkView κ} {closure : κ}
    (views : ∀ ib offset closure, Harmless (viewer ib offset closure)) :
    Harmless (chainsWalk fuel offset viewer closure) := by
  refine (harmless_direct direct_seekRead delivers_seekRead).bind fun read => ?_
  cases read with
  | none => exact harmless_call trivial fun _ => harmless_pure
  | some bytes =>
    refine harmless_iterate (fun current => ?_) fuel _
    obtain ⟨curblock, offBlock, closure⟩ := current
    refine (views curblock offBlock closure).bind fun viewed => ?_
    obtain ⟨more, curblock, closure⟩ := viewed
    dsimp only
    split
    · split
      · exact harmless_pure
      · refine (harmless_direct direct_seekRead delivers_seekRead).bind fun read => ?_
        cases read with
        | none => exact harmless_call trivial fun _ => harmless_pure
        | some bytes => exact harmless_pure
    · exact harmless_pure

/-- The search for the last link is harmless. -/
theorem harmless_chainsLastLink {fuel : Nat} : Harmless (chainsLastLink fuel offset) := by
  refine harmless_chainsWalk fun ib offset closure => ?_
  unfold chainsLastLinkViewer
  dsimp only
  split
  · exact (harmless_plain plain_bufferBytes delivers_bufferBytes).bind fun _ => harmless_pure
  · exact harmless_pure

/-- The part under the lock is harmless with a harmless callback. -/
theorem harmless_lockedData {bhandle : BlockLoc} {callback : LockCallback}
    (calls : ∀ buffer, Harmless (callback handle bhandle buffer)) :
    Harmless (lockedData handle bhandle callback) := by
  have restored {saved : OffT} {rval : RndError} :
      Harmless (fseek saved .seekSet >>= fun _ => pure rval : Prog RndError) :=
    harmless_call trivial fun _ => harmless_pure
  refine harmless_call trivial fun saved => harmless_call trivial fun found => ?_
  cases found with
  | false => exact harmless_call trivial fun _ => harmless_pure
  | true =>
    refine harmless_call trivial fun read => ?_
    cases read with
    | none => exact restored
    | some buffer =>
      refine (calls (some buffer.val)).bind fun answer => ?_
      dsimp only
      split
      · refine harmless_seekWrite.bind fun written => ?_
        split <;> exact restored
      · exact restored

/-- The release of a lock is harmless. -/
theorem harmless_release {bhandle : BlockLoc} {rval : RndError} : Harmless (release bhandle rval) :=
    by
  refine harmless_call trivial fun refused => ?_
  cases refused with
  | none => exact harmless_pure
  | some errno => exact harmless_call trivial fun _ => harmless_pure

/-- A locked area with a harmless callback is harmless. -/
theorem harmless_rndLockArea {bhandle : BlockLoc} {retrieveData : Bool} {callback : LockCallback}
    (calls : ∀ buffer, Harmless (callback handle bhandle buffer)) :
    Harmless (rndLockArea handle bhandle retrieveData callback) := by
  rw [rndLockArea_eq]
  refine harmless_call trivial fun _ => harmless_call trivial fun refused => ?_
  cases refused with
  | some errno =>
    dsimp only
    split
    · exact harmless_pure
    · exact harmless_call trivial fun _ => harmless_pure
  | none =>
    have under : Harmless (underLock handle bhandle retrieveData callback) := by
      cases retrieveData with
      | false => exact (calls none).bind fun _ => harmless_pure
      | true => exact harmless_lockedData calls
    exact under.bind fun _ => harmless_release

/-- Only the round that extends the chain passes events. -/
theorem harmless_searchRound {bloc : BlockLoc} {htable : RndHeadTable} {recno : UInt32}
    {search : Search} (accepted : handle.Accepted) :
    Harmless (searchRound handle bloc htable recno search) := by
  have answers : Delivers (searchRound handle bloc htable recno search) :=
    delivers_searchRound accepted
  by_cases within : search.Covers htable recno ∨ search.iblock.nextBlock.offset ≠ 0
  · exact harmless_plain (plain_searchRound within) answers
  · obtain ⟨beyond, last⟩ : ¬ search.Covers htable recno ∧
        search.iblock.nextBlock.offset = 0 := by simpa using within
    rw [searchRound_end beyond last] at answers ⊢
    exact harmless_answers
      (only_extendForRecord (fun _ => Call.Plain.settled) fun _ _ => trivial) answers

/-- A record search with an accepted handle is harmless. -/
theorem harmless_flatrecsMakeOffsetToRecno {fuel : Nat} {bloc : BlockLoc} {htable : RndHeadTable}
    {recno : UInt32} (accepted : handle.Accepted) :
    Harmless (flatrecsMakeOffsetToRecno fuel handle bloc htable recno) :=
  harmless_iterate (fun _ => harmless_searchRound accepted) fuel _

/-- The next-offset function is harmless with a harmless user callback. -/
theorem harmless_flatrecsGetNextOffset {fuel : Nat} {user : FlatrecsUseNewRecord}
    (accepted : handle.Accepted)
    (uses : ∀ htable offset, Harmless (user handle htable offset)) :
    Harmless (flatrecsGetNextOffset fuel handle offset user) := by
  have opened : handle.file.isSome = true := by
    cases file : handle.file with
    | none =>
      rw [Rndh.Accepted, blocksValidateHandle, if_pos file] at accepted
      exact absurd accepted RndError.noConfusion
    | some stream => rfl
  refine (harmless_plain (plain_of_direct direct_cAssert) (delivers_assert opened)).bind fun _ =>
    harmless_call trivial fun _ => harmless_rndLockArea fun buffer => ?_
  refine harmless_call trivial fun _ =>
    (harmless_flatrecsMakeOffsetToRecno accepted).bind fun found => ?_
  dsimp only
  split
  · exact harmless_pure
  · exact harmless_call trivial fun _ => (uses _ _).bind fun _ =>
      harmless_call trivial fun _ => harmless_pure

end Functions

/-! ## A session -/

section Sessions

variable {α : Type} {flags chunkSize recSize : UInt32}

/-- What an opening leaves open: the stream of an accepted handle, or nothing new. -/
inductive Opened (live : List Nat) : RndError × Rndh → List Nat → Prop
  | accepted {handle : Rndh} {stream : Nat} (accepted : handle.Accepted)
      (file : handle.file = some stream) : Opened live (.success, handle) (stream :: live)
  | refused {rval : RndError} {handle : Rndh} (failed : rval ≠ .success) :
      Opened live (rval, handle) live

/-- A stream that was just opened can be closed. -/
theorem traced_fclose {live : List Nat} {stream : Nat} {rest : Bool → Prog α}
    {post : α → List Nat → Prop} (behind : ∀ closed, (rest closed).Traced streamTracer live post) :
    (fclose stream >>= rest).Traced streamTracer (stream :: live) post := by
  refine Traced.call (fun closed is => ?_) fun reply => ?_
  · obtain rfl := Call.fclose.inj is
    exact List.mem_cons_self
  · have erased : streamTracer.advance (stream :: live) (.fclose stream) reply = live :=
      List.erase_cons_head _ _
    rw [erased]
    exact behind reply

/-- A call that opens and closes no stream leaves the streams that are open. -/
theorem traced_settled {live : List Nat} {request : Call} {rest : Answer request → Prog α}
    {post : α → List Nat → Prop} (settled : request.Settled)
    (each : ∀ reply, (rest reply).Traced streamTracer live post) :
    (issue request >>= rest).Traced streamTracer live post :=
  Traced.bind (harmless_issue settled live) fun reply _ same => same ▸ each reply

/-- An opened file whose header is not accepted is closed again. -/
theorem traced_acceptHead {live : List Nat} {stream : Nat} {result : RndError × Rndh} :
    (acceptHead stream result).Traced streamTracer (stream :: live) (Opened live) := by
  unfold acceptHead
  dsimp only
  split
  · rename_i failed
    exact traced_fclose fun _ => .refused failed
  · split
    · rename_i failed
      exact traced_fclose fun _ => .refused failed
    · rename_i valid
      exact .accepted (not_not.mp valid) rfl

/-- The size of the chunks matters only to a new file. -/
theorem harmless_headOfOpenedFile {handle : Rndh}
    (created : rndCreate flags = true → chunkSize ≠ 0) :
    Harmless (headOfOpenedFile (rndCreate flags) chunkSize recSize handle) := by
  cases create : rndCreate flags with
  | true =>
    have positive : chunkSize > 0 := UInt32.pos_iff_ne_zero.mpr (created create)
    exact harmless_direct direct_headOfOpenedFile (headOfOpenedFile_answers positive)
  | false =>
    refine harmless_call trivial fun read => ?_
    cases read with
    | none => exact harmless_call trivial fun _ => harmless_pure
    | some bytes => exact harmless_pure

/-- An opening leaves one more stream open if it succeeds, and none else. -/
theorem traced_blocksFileOpen {live : List Nat} (created : rndCreate flags = true → chunkSize ≠ 0) :
    (blocksFileOpen flags chunkSize recSize).Traced streamTracer live (Opened live) := by
  rw [blocksFileOpen_eq]
  refine traced_settled trivial fun _ => Traced.call (fun stream is => nomatch is) fun opened => ?_
  cases opened with
  | none => exact traced_settled trivial fun _ => .refused nofun
  | some stream =>
    exact Traced.bind (harmless_headOfOpenedFile created _) fun result after same =>
      same ▸ traced_acceptHead

/-- A callback that works on its handle, and may close it. -/
def visitor (work : Rndh → Prog α) (closes : α → Bool) : RndUser := fun handle => do
  let value ← work handle
  if closes value then blocksFileClose handle else pure handle

/-- The closing closes the stream of the handle. -/
theorem traced_blocksFileClose {live : List Nat} {handle : Rndh} {stream : Nat}
    (file : handle.file = some stream) :
    (blocksFileClose handle).Traced streamTracer (stream :: live) fun closed after =>
      closed.file = none ∧ after = live := by
  unfold blocksFileClose
  rw [file]
  exact traced_fclose fun _ => ⟨rfl, rfl⟩

/-- A handle that was closed by its callback is not closed again. -/
theorem harmless_blocksFileUse {work : Rndh → Prog α} {closes : α → Bool}
    (created : rndCreate flags = true → chunkSize ≠ 0)
    (works : ∀ inner, inner.Accepted → Harmless (work inner)) :
    Harmless (blocksFileUse flags chunkSize recSize (visitor work closes)) := by
  intro live
  refine Traced.bind (traced_blocksFileOpen created) fun result after opened => ?_
  cases opened with
  | @refused rval handle failed =>
    dsimp only
    rw [if_neg failed]
    rfl
  | @accepted handle stream accepted file =>
    dsimp only
    rw [if_pos rfl]
    refine Traced.bind (Traced.bind (works handle accepted _) fun value after same => ?_)
      fun left after (kept : left.file = some stream ∧ after = stream :: live ∨
        left.file = none ∧ after = live) => ?_
    · subst same
      split
      · exact (traced_blocksFileClose file).mono fun _ _ => Or.inr
      · exact Or.inl ⟨file, rfl⟩
    · rcases kept with ⟨open', rfl⟩ | ⟨gone, rfl⟩
      · exact Traced.bind (traced_blocksFileClose open') fun _ _ closed => closed.2
      · rw [blocksFileClose, gone]
        rfl

end Sessions

/-! ## What callbacks are made of -/

/-- Programs on a handle, by what they do first: a call of their own on the stream, a
function of the library, or a session of their own, each with callbacks of the same kind,
and further programs chosen by what was delivered. Definitions of new blocks are those that
a header can be set for. -/
inductive Service : Rndh → (α : Type) → Prog α → Prop
  | value {handle : Rndh} {α : Type} (value : α) : Service handle α (pure value)
  | next {handle : Rndh} {α β : Type} {first : Prog α} {rest : α → Prog β}
      (before : Service handle α first) (behind : ∀ value, Service handle β (rest value)) :
      Service handle β (first >>= rest)
  | call {handle : Rndh} {request : Call} (direct : request.Direct) :
      Service handle (Answer request) (issue request)
  | blocksReadBlockHead {handle : Rndh} (offset : OffT) (block : List UInt8) (infoLen : Nat) :
      Service handle _ (blocksReadBlockHead offset block infoLen)
  | blocksWriteBlockHead {handle : Rndh} (offset : OffT) (block : List UInt8) (infoLen : Nat) :
      Service handle _ (blocksWriteBlockHead offset block infoLen)
  | blocksGetNextBlockHead {handle : Rndh} (block : InfoBlock) :
      Service handle _ (blocksGetNextBlockHead block)
  | blocksExtendFile {handle : Rndh} (bytesToAdd : UInt64) :
      Service handle _ (blocksExtendFile handle bytesToAdd)
  | blocksAppendBlock {handle : Rndh} {bdef : RndBlockDef} (settable : bdef.Settable) :
      Service handle _ (blocksAppendBlock handle bdef)
  | blocksExtendChain {handle : Rndh} {bdef : RndBlockDef} (chainEnd : OffT)
      (settable : bdef.Settable) : Service handle _ (blocksExtendChain handle chainEnd bdef)
  | chainsAddLink {handle : Rndh} (parent : OffT) (newLink : BlockLoc) :
      Service handle _ (chainsAddLink parent newLink)
  | chainsWalk {handle : Rndh} {κ : Type} (fuel : Nat) (block : OffT) {viewer : BlockWalkView κ}
      (closure : κ) (views : ∀ ib offset closure, Service handle _ (viewer ib offset closure)) :
      Service handle _ (chainsWalk fuel block viewer closure)
  | chainsLastLink {handle : Rndh} (fuel : Nat) (link : OffT) :
      Service handle _ (chainsLastLink fuel link)
  | rndLockArea {handle : Rndh} (bhandle : BlockLoc) (retrieveData : Bool)
      {callback : LockCallback}
      (calls : ∀ buffer, Service handle _ (callback handle bhandle buffer)) :
      Service handle _ (rndLockArea handle bhandle retrieveData callback)
  | flatrecsMakeOffsetToRecno {handle : Rndh} (fuel : Nat) (bloc : BlockLoc)
      (htable : RndHeadTable) (recno : UInt32) :
      Service handle _ (flatrecsMakeOffsetToRecno fuel handle bloc htable recno)
  | flatrecsGetNextOffset {handle : Rndh} (fuel : Nat) (tableHead : OffT)
      {user : FlatrecsUseNewRecord}
      (uses : ∀ htable offset, Service handle _ (user handle htable offset)) :
      Service handle _ (flatrecsGetNextOffset fuel handle tableHead user)
  | blocksFileUse {handle : Rndh} {α : Type} {flags chunkSize recSize : UInt32}
      {work : Rndh → Prog α} (closes : α → Bool)
      (created : rndCreate flags = true → chunkSize ≠ 0)
      (works : ∀ inner, inner.Accepted → Service inner α (work inner)) :
      Service handle _ (blocksFileUse flags chunkSize recSize (visitor work closes))

/-- No service does harm on a handle that an opening accepted. -/
theorem Service.harmless {handle : Rndh} {α : Type} {program : Prog α}
    (service : Service handle α program) (accepted : handle.Accepted) : Harmless program := by
  induction service with
  | value value => exact harmless_pure
  | next before behind first rest => exact (first accepted).bind fun value => rest value accepted
  | call direct => exact harmless_issue direct.plain.settled
  | blocksReadBlockHead =>
    exact harmless_direct direct_blocksReadBlockHead delivers_blocksReadBlockHead
  | blocksWriteBlockHead =>
    exact harmless_plain plain_blocksWriteBlockHead delivers_blocksWriteBlockHead
  | blocksGetNextBlockHead => exact harmless_blocksGetNextBlockHead
  | blocksExtendFile =>
    exact harmless_direct direct_blocksExtendFile (delivers_blocksExtendFile accepted)
  | blocksAppendBlock settable => exact harmless_blocksAppendBlock accepted settable
  | blocksExtendChain chainEnd settable => exact harmless_blocksExtendChain accepted settable
  | chainsAddLink => exact harmless_chainsAddLink
  | chainsWalk fuel block closure views each =>
    exact harmless_chainsWalk fun ib offset closure => each ib offset closure accepted
  | chainsLastLink => exact harmless_chainsLastLink
  | rndLockArea bhandle retrieveData calls each =>
    exact harmless_rndLockArea fun buffer => each buffer accepted
  | flatrecsMakeOffsetToRecno => exact harmless_flatrecsMakeOffsetToRecno accepted
  | flatrecsGetNextOffset fuel tableHead uses each =>
    exact harmless_flatrecsGetNextOffset accepted fun htable offset => each htable offset accepted
  | blocksFileUse closes created works each =>
    exact harmless_blocksFileUse created fun inner opened => each inner opened opened

/-! ## Runs -/

section Runs

variable {α σ : Type} {flags chunkSize recSize : UInt32} {work : Rndh → Prog α}
variable {closes : α → Bool}

/-- The streams that some calls left open, of those they opened. -/
def openBehind (past : List (Moment Call Answer σ)) : List Nat := streamTracer.behind [] past

/-- A run closes only streams that it opened and that are still open, leaves none of them
open, and fails no assertion. -/
structure Tidy {β : Type} (handler : Handler Call Answer σ) (program : Prog β) (state : σ) :
    Prop where
  closed : ∀ front moment behind, log handler program state = front ++ moment :: behind →
    ∀ stream, moment.request = .fclose stream → stream ∈ openBehind front
  left : ∀ value after, run handler program state = (.ok value, after) →
    openBehind (log handler program state) = []
  asserted : ∀ after, run handler program state ≠ (.error .assertion, after)

/-- A harmless program is tidy. -/
theorem Harmless.tidy {β : Type} {program : Prog β} (harmless : Harmless program)
    (handler : Handler Call Answer σ) (state : σ) : Tidy handler program state where
  closed _ _ _ split := (harmless []).log handler state split
  left _ _ completed := (harmless []).run handler completed
  asserted _ stopped := (harmless []).halts handler stopped rfl

/-- A session of services is tidy, whatever the platform answers. -/
theorem session_tidy (closes : α → Bool) (created : rndCreate flags = true → chunkSize ≠ 0)
    (services : ∀ inner, inner.Accepted → Service inner α (work inner))
    (handler : Handler Call Answer σ) (state : σ) :
    Tidy handler (blocksFileUse flags chunkSize recSize (visitor work closes)) state :=
  (harmless_blocksFileUse created fun inner accepted =>
    (services inner accepted).harmless accepted).tidy handler state

/-- A new file, to which a block is appended, and which is opened once more inside. -/
theorem session_tidy_nested : Tidy (posix (.sound fun _ _ => 0))
    (blocksFileUse 1 4096 8 (visitor (fun inner => do
      let _ ← blocksAppendBlock inner { blockType := .data, blockSize := 4096 }
      blocksFileUse 0 4096 0 (visitor (fun _ => pure ()) fun _ => true)) fun _ => false))
    { disk := [] } :=
  session_tidy _ (by decide) (fun _ _ =>
    .next (.blocksAppendBlock (RndBlockDef.Short.settable (.inl rfl))) fun _ =>
      .blocksFileUse _ (by decide) fun _ _ => .value ()) _ _

end Runs

/-! ## Chunks of no size -/

section Unsized

variable {platform : Platform} {flags recSize : UInt32} {world : World}

/-- None of the first calls to the platform fails. -/
def FirstCallsSucceed (platform : Platform) (clock count : Nat) : Prop :=
  ∀ passed < count, platform.faults (clock + passed) = none

/-- A call, by whether a failure is injected. -/
theorem ends_scheduled {α : Type} {request : Call} {rest : Answer request → Prog α}
    {post : Except Stop α → Prop} {reply : Answer request} {after : World}
    (answered : unfaulted platform.memory request world = (reply, after))
    (sound : platform.faults world.clock = none →
      Ends (posix platform) after (rest reply) fun outcome _ _ => post outcome)
    (broken : ∀ fault, platform.faults world.clock = some fault →
      Ends (posix platform) (faulted platform.memory fault request world).2
        (rest (faulted platform.memory fault request world).1) fun outcome _ _ => post outcome) :
    Ends (posix platform) world (issue request >>= rest) fun outcome _ _ => post outcome := by
  refine ends_issue ?_
  rw [posix]
  cases scheduled : platform.faults world.clock with
  | none =>
    dsimp only
    rw [answered]
    exact sound scheduled
  | some fault => exact broken fault scheduled

/-- A seek from the start goes to any place a file can have. -/
theorem unfaulted_fseek {memory : Nat → Nat → UInt8} {position : Nat} (inside : position ≤ offMax) :
    ∃ after, unfaulted memory (.fseek position .seekSet) world = (true, after) ∧
      after.clock = world.clock + 1 ∧ after.position = position :=
  ⟨_, if_pos ⟨Int.natCast_nonneg position, Int.ofNat_le.mpr inside⟩, rfl, rfl⟩

/-- A byte is written in front of the largest offset. -/
theorem unfaulted_fwrite {memory : Nat → Nat → UInt8} {byte : UInt8}
    (inside : world.position < offMax) :
    ∃ after, unfaulted memory (.fwrite [byte]) world = (true, after) ∧
      after.clock = world.clock + 1 :=
  ⟨_, if_pos ⟨Nat.one_pos, inside⟩, rfl⟩

/-- An opening that creates a file with chunks of no size does not succeed: it stops at the
assertion behind the first byte, if it comes so far. -/
theorem blocksFileOpen_unsized (create : rndCreate flags = true) :
    Ends (posix platform) world (blocksFileOpen flags 0 recSize) fun outcome _ _ =>
      (outcome = .error .assertion ∧ FirstCallsSucceed platform world.clock 4) ∨
        ((∃ handle, outcome = .ok (.systemError, handle)) ∧
          ¬ FirstCallsSucceed platform world.clock 4) := by
  have lost (passed : Nat) (few : passed < 4) (fault : Fault)
      (scheduled : platform.faults (world.clock + passed) = some fault) :
      ¬ FirstCallsSucceed platform world.clock 4 := fun succeed =>
    Option.some_ne_none fault (scheduled.symm.trans (succeed passed few))
  have failing {stream : Nat} {handle : Rndh} {between : World}
      (lost : ¬ FirstCallsSucceed platform world.clock 4) :
      Ends (posix platform) between ((keepErrno >>= fun _ => pure (.systemError, handle)) >>=
        acceptHead stream) fun outcome _ _ =>
          (outcome = .error .assertion ∧ FirstCallsSucceed platform world.clock 4) ∨
            ((∃ handle, outcome = .ok (.systemError, handle)) ∧
              ¬ FirstCallsSucceed platform world.clock 4) :=
    Ends.call posix_keepErrno <| ends_issue <| Or.inr ⟨⟨handle, rfl⟩, lost⟩
  rw [blocksFileOpen_eq, create]
  obtain ⟨opened, same, clock⟩ : ∃ after, unfaulted platform.memory (.fopen true)
      { world with sysErrno := 0 } = (some world.streams, after) ∧ after.clock = world.clock + 1 :=
    ⟨_, rfl, rfl⟩
  refine ends_primeHandle (ends_scheduled same (fun first => ?_) fun fault scheduled => ?_)
  · -- the first byte goes to the last place of a chunk of 2 ^ 32 bytes
    obtain ⟨sought, same, ticked, position⟩ :=
      @unfaulted_fseek opened platform.memory 4294967295 (by decide)
    refine ends_scheduled same (fun second => ?_) fun fault scheduled =>
      failing (lost 1 (by decide) fault ?_)
    · obtain ⟨reserved, same, again⟩ :=
        @unfaulted_fwrite sought platform.memory 0x30 (by rw [position]; decide)
      refine ends_scheduled same (fun third => ?_) fun fault scheduled =>
        failing (lost 2 (by decide) fault ?_)
      · obtain ⟨back, same, last, -⟩ := @unfaulted_fseek reserved platform.memory 0 (by decide)
        refine ends_scheduled same (fun fourth => ?_) fun fault scheduled =>
          failing (lost 3 (by decide) fault ?_)
        · refine Or.inl ⟨rfl, fun passed few => ?_⟩
          rw [clock] at second
          rw [ticked, clock] at third
          rw [again, ticked, clock] at fourth
          obtain rfl | rfl | rfl | rfl : passed = 0 ∨ passed = 1 ∨ passed = 2 ∨ passed = 3 := by omega
          · exact first
          · exact second
          · exact third
          · exact fourth
        · rwa [again, ticked, clock] at scheduled
      · rwa [ticked, clock] at scheduled
    · rwa [clock] at scheduled
  · exact Ends.call posix_keepErrno (Or.inr ⟨⟨_, rfl⟩, lost 0 (by decide) fault scheduled⟩)

/-- Where `rnd_open` creates a file and the size of its chunks is not known, it answers with
a system error or stops at an assertion, the latter exactly if the first calls succeed; it
stops at no assertion anywhere else. -/
structure OpenAsserts (platform : Platform) (stat : Option UInt64) (reclen : Int32) (flags : UInt32)
    (user : RndUser) (world : World) : Prop where
  asserts : (run (posix platform) (rndOpen stat reclen flags user) world).1 = .error .assertion ↔
    rndCreate flags = true ∧ getBlocksize stat = 0 ∧ FirstCallsSucceed platform world.clock 4
  refuses : rndCreate flags = true → getBlocksize stat = 0 → ∀ rval after,
    run (posix platform) (rndOpen stat reclen flags user) world = (.ok rval, after) →
      rval = .systemError

/-- `rnd_open` stops at an assertion exactly when it gets to the header of a file without a chunk size. -/
theorem rndOpen_asserts {α : Type} {work : Rndh → Prog α} (stat : Option UInt64) (reclen : Int32)
    (flags : UInt32) (closes : α → Bool)
    (services : ∀ inner, inner.Accepted → Service inner α (work inner)) :
    OpenAsserts platform stat reclen flags (visitor work closes) world := by
  by_cases unsized : rndCreate flags = true ∧ getBlocksize stat = 0
  · obtain ⟨create, zero⟩ := unsized
    have ends : Ends (posix platform) world (rndOpen stat reclen flags (visitor work closes))
        fun outcome _ _ =>
          (outcome = .error .assertion ∧ FirstCallsSucceed platform world.clock 4) ∨
            (outcome = .ok .systemError ∧ ¬ FirstCallsSucceed platform world.clock 4) := by
      rw [rndOpen, zero]
      refine Ends.bind (blocksFileOpen_unsized create) ?_ ?_
      · rintro ⟨rval, handle⟩ past between (⟨stopped, -⟩ | ⟨⟨left, same⟩, failed⟩)
        · cases stopped
        · obtain ⟨rfl, rfl⟩ := Prod.mk.inj (Except.ok.inj same)
          exact Or.inr ⟨rfl, failed⟩
      · rintro reason past after (⟨stopped, calm⟩ | ⟨⟨left, same⟩, -⟩)
        · exact Or.inl ⟨congrArg Except.error (Except.error.inj stopped), calm⟩
        · cases same
    constructor
    · rcases ends with ⟨stopped, calm⟩ | ⟨answered, broken⟩
      · exact iff_of_true stopped ⟨create, zero, calm⟩
      · rw [answered]
        exact iff_of_false nofun fun all => broken all.2.2
    · intro _ _ rval after completed
      rcases ends with ⟨stopped, -⟩ | ⟨answered, -⟩
      · rw [completed] at stopped
        cases stopped
      · rw [completed] at answered
        exact Except.ok.inj answered
  · have created : rndCreate flags = true → getBlocksize stat ≠ 0 :=
      fun create zero => unsized ⟨create, zero⟩
    have tidy : Tidy (posix platform) (rndOpen stat reclen flags (visitor work closes)) world :=
      (harmless_blocksFileUse created fun inner accepted =>
        (services inner accepted).harmless accepted).tidy (posix platform) world
    exact ⟨iff_of_false (fun stopped => tidy.asserted _ (Prod.ext stopped rfl))
      fun all => unsized ⟨all.1, all.2.1⟩, fun create zero => absurd zero (created create)⟩

/-- A file system whose block size is not known, and a creation. -/
theorem rndOpen_asserts_unknown : OpenAsserts (.sound fun _ _ => 0) none 8 1
    (visitor (fun _ => pure ()) fun _ => false) { disk := [] } :=
  rndOpen_asserts none 8 1 _ fun _ _ => .value ()

end Unsized

end Recnodb
