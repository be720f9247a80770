import Recnodb.Events

/-!
# Rounds of the record search

What one round of `flatrecs_make_offset_to_recno` can do, whatever the platform
answers: find the record in the current block, move to the next block, give up
on a failed read, or call `blocks_extend_chain` at the end of the chain. The
last case passes four events in a fixed order; the others pass none.
-/

namespace Recnodb

open Interaction Program

variable {σ : Type} (handler : Handler Call Answer σ)

/-- The offset the search answers with when the record is in the current block. -/
def foundOffset (bloc : BlockLoc) (htable : RndHeadTable) (recno : UInt32) (search : Search) :
    OffT :=
  bloc.offset + search.iblock.bytesToData.toNat
    + ((recno - search.startRec) * flatrecsFullRecsize htable).toNat

/-- The search behind the current block. -/
def Search.advanced (htable : RndHeadTable) (search : Search) : Search :=
  { search with startRec := search.startRec + flatrecsGetRecordCapacity htable search.iblock }

/-- The record lies in the current block. -/
def Search.Covers (htable : RndHeadTable) (recno : UInt32) (search : Search) : Prop :=
  recno - search.startRec < flatrecsGetRecordCapacity htable search.iblock

instance (htable : RndHeadTable) (recno : UInt32) (search : Search) :
    Decidable (search.Covers htable recno) :=
  inferInstanceAs (Decidable (_ < _))

/-- The definition of the block that a search at the end of its chain asks for. -/
def requestedBlock (handle : Rndh) (htable : RndHeadTable) (recno : UInt32) (search : Search) :
    RndBlockDef :=
  { blockType := .data,
    blockSize := newBlockSize (flatrecsFullRecsize htable) recno search.startRec
      handle.headFile.fhead.chunkSize }

section Rounds

variable {handle : Rndh} {bloc : BlockLoc} {htable : RndHeadTable} {recno : UInt32}
variable {search : Search}

theorem searchRound_found (covered : search.Covers htable recno) :
    searchRound handle bloc htable recno search =
      .ret (.inr (.success, foundOffset bloc htable recno search)) :=
  if_pos covered

theorem searchRound_behind (beyond : ¬ search.Covers htable recno) :
    searchRound handle bloc htable recno search =
      blocksGetNextBlockHead search.iblock >>= fun
        | .ok (newblock, offset) =>
          .ret (.inl ⟨newblock, offset, (search.advanced htable).startRec⟩)
        | .error .reachedEndOfBlockChain =>
          extendForRecord handle (flatrecsFullRecsize htable) recno (search.advanced htable)
        | .error rval => .ret (.inr (rval, -1)) :=
  if_neg beyond

/-- At the end of the chain the round is the attempt to extend it. -/
theorem searchRound_end (beyond : ¬ search.Covers htable recno)
    (last : search.iblock.nextBlock.offset = 0) :
    searchRound handle bloc htable recno search =
      extendForRecord handle (flatrecsFullRecsize htable) recno (search.advanced htable) := by
  rw [searchRound_behind beyond, blocksGetNextBlockHead, if_neg (by simp [last])]
  rfl

/-- Inside the chain the round is the read of the next header. -/
theorem searchRound_next (beyond : ¬ search.Covers htable recno)
    (more : search.iblock.nextBlock.offset ≠ 0) :
    searchRound handle bloc htable recno search =
      seekRead search.iblock.nextBlock.offset sizeofInfoBlock >>= fun
        | none => keepErrno >>= fun _ => .ret (.inr (.systemError, -1))
        | some bytes => .ret (.inl ⟨InfoBlock.ofBytes bytes.val, search.iblock.nextBlock.offset,
            (search.advanced htable).startRec⟩) := by
  rw [searchRound_behind beyond, blocksGetNextBlockHead, if_pos more, bind_assoc]
  congr 1
  funext read
  cases read <;> rfl

/-- Only a round at the end of the chain passes an event. -/
theorem plain_searchRound
    (within : search.Covers htable recno ∨ search.iblock.nextBlock.offset ≠ 0) :
    (searchRound handle bloc htable recno search).Only Call.Plain := by
  by_cases covered : search.Covers htable recno
  · rw [searchRound_found covered]
    trivial
  · rw [searchRound_next covered (within.resolve_left covered)]
    refine only_bind (plain_of_direct direct_seekRead) fun read => ?_
    cases read
    · exact plain_of_direct direct_kept
    · trivial

/-- A search that answers gives the same answer with more fuel. -/
theorem search_more {fuel : Nat} {result : RndError × OffT} {state : σ}
    (answered : (run handler (flatrecsMakeOffsetToRecno fuel handle bloc htable recno) state).1 =
      .ok result) (more : Nat) :
    (run handler (flatrecsMakeOffsetToRecno (fuel + more) handle bloc htable recno) state).1 =
      .ok result := by
  have completed : run handler (flatrecsMakeOffsetToRecno fuel handle bloc htable recno) state =
      (.ok result, (run handler (flatrecsMakeOffsetToRecno fuel handle bloc htable recno) state).2) :=
    Prod.ext answered rfl
  exact congrArg Prod.fst (run_iterate_more handler completed more)

end Rounds

/-- An append passes its two events; the second reports its result. -/
theorem blocksAppendBlock_cases {handle : Rndh} {bdef appended : RndBlockDef} {rval : RndError}
    {state after : σ}
    (completed : run handler (blocksAppendBlock handle bdef) state = (.ok (rval, appended), after)) :
    events (log handler (blocksAppendBlock handle bdef) state) =
      [.appendEntered, .appendLeft rval appended.newBlock] := by
  obtain ⟨_, entered, enteredRun, completed⟩ := run_bind_inv handler completed
  obtain ⟨⟨result, made⟩, worked, workedRun, completed⟩ := run_bind_inv handler completed
  obtain ⟨_, left, leftRun, completed⟩ := run_bind_inv handler completed
  obtain ⟨⟨⟩, -⟩ := run_ret_inv handler completed
  rw [blocksAppendBlock, log_bind_ok handler enteredRun, log_bind_ok handler workedRun,
    log_bind_ok handler leftRun, events_append, events_append, events_append,
    events_plain plain_appendBlock]
  rfl

/-- The rest of an extension behind its append makes plain calls only. -/
theorem blocksExtendChain_cases {handle : Rndh} {chainEnd : OffT} {bdef linked : RndBlockDef}
    {rval : RndError} {state after : σ}
    (completed : run handler (blocksExtendChain handle chainEnd bdef) state =
      (.ok (rval, linked), after)) :
    ∃ appended, (rval = .success → appended = .success) ∧
      events (log handler (blocksExtendChain handle chainEnd bdef) state) =
        [.appendEntered, .appendLeft appended linked.newBlock] := by
  obtain ⟨_, primed, primedRun, completed⟩ := run_bind_inv handler completed
  obtain ⟨⟨appended, made⟩, grown, grownRun, completed⟩ := run_bind_inv handler completed
  have grownEvents := blocksAppendBlock_cases handler grownRun
  rw [blocksExtendChain, log_bind_ok handler primedRun, log_bind_ok handler grownRun,
    events_append, events_append, events_plain (plain_of_direct direct_primeHandle), grownEvents]
  dsimp only at completed ⊢
  by_cases worked : appended = .success
  · rw [if_neg (not_not_intro worked)] at completed ⊢
    obtain ⟨code, between, linkRun, completed⟩ := run_bind_inv handler completed
    obtain ⟨⟨⟩, -⟩ := run_ret_inv handler completed
    refine ⟨appended, fun _ => worked, ?_⟩
    rw [log_bind_ok handler linkRun, events_append, events_plain plain_linkNewBlock]
    rfl
  · rw [if_pos worked] at completed ⊢
    obtain ⟨⟨⟩, -⟩ := run_ret_inv handler completed
    exact ⟨_, id, rfl⟩

/-- An extension by the search passes four events. It goes on with the new block,
goes on with the current one after a failed extension, or fails to read the new
block. -/
theorem extendForRecord_cases {handle : Rndh} {htable : RndHeadTable} {recno : UInt32}
    {search : Search} {outcome : Search ⊕ (RndError × OffT)} {state after : σ}
    (completed : run handler
      (extendForRecord handle (flatrecsFullRecsize htable) recno search) state =
        (.ok outcome, after)) :
    ∃ appended rval newBlock, (rval = .success → appended = .success) ∧
      events (log handler
        (extendForRecord handle (flatrecsFullRecsize htable) recno search) state) =
          [.requested search.iblockOffset (requestedBlock handle htable recno search),
            .appendEntered, .appendLeft appended newBlock,
            .extended search.iblockOffset rval newBlock] ∧
      ((rval ≠ .success ∧ outcome = .inl search) ∨
        (rval = .success ∧ ∃ block, outcome = .inl ⟨block, newBlock.offset, search.startRec⟩) ∨
        (rval = .success ∧ ∃ code, code ≠ .success ∧ outcome = .inr (code, -1))) := by
  obtain ⟨_, asked, askedRun, completed⟩ := run_bind_inv handler completed
  obtain ⟨⟨rval, linked⟩, grown, grownRun, completed⟩ := run_bind_inv handler completed
  obtain ⟨_, told, toldRun, completed⟩ := run_bind_inv handler completed
  obtain ⟨appended, worked, grownEvents⟩ := blocksExtendChain_cases handler grownRun
  refine ⟨appended, rval, linked.newBlock, worked, ?_⟩
  rw [extendForRecord]
  dsimp only
  rw [log_bind_ok handler askedRun, log_bind_ok handler grownRun, log_bind_ok handler toldRun,
    events_append, events_append, events_append, grownEvents]
  by_cases success : rval = .success
  · rw [if_pos success] at completed ⊢
    obtain ⟨⟨code, newblock⟩, read, readRun, completed⟩ := run_bind_inv handler completed
    rw [log_bind_ok handler readRun, events_append,
      events_plain (plain_of_direct direct_blocksReadBlockHead)]
    dsimp only at completed ⊢
    by_cases complete : code = .success
    · rw [if_neg (not_not_intro complete)] at completed ⊢
      exact ⟨rfl, .inr (.inl ⟨success, _, (run_ret_inv handler completed).1⟩)⟩
    · rw [if_pos complete] at completed ⊢
      exact ⟨rfl, .inr (.inr ⟨success, code, complete, (run_ret_inv handler completed).1⟩)⟩
  · rw [if_neg success] at completed ⊢
    exact ⟨rfl, .inl ⟨success, (run_ret_inv handler completed).1⟩⟩

/-! ## The calls of a search -/

/-- An event of the record search or of the functions below it. -/
def Event.OfSearch : Event → Prop
  | .numbered _ => False
  | .handed _ _ => False
  | .answered _ => False
  | _ => True

/-- A call of the record search or of the functions below it. -/
def Call.OfSearch : Call → Prop
  | .note event => event.OfSearch
  | _ => True

theorem Call.Plain.ofSearch {request : Call} (plain : request.Plain) : request.OfSearch := by
  cases request with
  | note event => exact plain.elim
  | _ => trivial

section Calls

variable {handle : Rndh} {bloc : BlockLoc} {htable : RndHeadTable} {recno : UInt32}
variable {bdef : RndBlockDef} {offset : OffT} {permitted : Call → Prop}

theorem ofSearch_of_plain {α : Type} {program : Prog α} (plain : program.Only Call.Plain) :
    program.Only Call.OfSearch :=
  only_mono (fun _ => Call.Plain.ofSearch) plain

/-- An extension makes plain calls and passes events of a search. -/
theorem only_blocksExtendChain (wider : ∀ request, request.Plain → permitted request)
    (events : ∀ event, event.OfSearch → permitted (.note event)) :
    (blocksExtendChain handle offset bdef).Only permitted := by
  have plain {α : Type} {program : Prog α} (only : program.Only Call.Plain) :
      program.Only permitted := only_mono wider only
  have passed {event : Event} (allowed : event.OfSearch) : (note event).Only permitted :=
    only_perform (events event allowed)
  refine only_bind (plain (plain_of_direct direct_primeHandle)) fun _ => ?_
  refine only_bind ?_ fun appended => ?_
  · refine only_bind (passed trivial) fun _ => ?_
    refine only_bind (plain plain_appendBlock) fun _ => ?_
    exact only_bind (passed trivial) fun _ => trivial
  · dsimp only
    split
    · trivial
    · exact only_bind (plain plain_linkNewBlock) fun _ => trivial

theorem only_extendForRecord {recsize : UInt32} {search : Search}
    (wider : ∀ request, request.Plain → permitted request)
    (events : ∀ event, event.OfSearch → permitted (.note event)) :
    (extendForRecord handle recsize recno search).Only permitted := by
  have passed {event : Event} (allowed : event.OfSearch) : (note event).Only permitted :=
    only_perform (events event allowed)
  refine only_bind (passed trivial) fun _ => ?_
  refine only_bind (only_blocksExtendChain wider events) fun extended => ?_
  refine only_bind (passed trivial) fun _ => ?_
  dsimp only
  split
  · refine only_bind (only_mono wider (plain_of_direct direct_blocksReadBlockHead)) fun _ => ?_
    split <;> trivial
  · trivial

/-- A search makes plain calls and passes its own events. -/
theorem only_flatrecsMakeOffsetToRecno {fuel : Nat}
    (wider : ∀ request, request.Plain → permitted request)
    (events : ∀ event, event.OfSearch → permitted (.note event)) :
    (flatrecsMakeOffsetToRecno fuel handle bloc htable recno).Only permitted := by
  refine only_iterate (fun search => ?_) fuel _
  by_cases within : search.Covers htable recno ∨ search.iblock.nextBlock.offset ≠ 0
  · exact only_mono wider (plain_searchRound within)
  · obtain ⟨beyond, last⟩ : ¬ search.Covers htable recno ∧
        search.iblock.nextBlock.offset = 0 := by simpa using within
    rw [searchRound_end beyond last]
    exact only_extendForRecord wider events

theorem ofSearch_flatrecsMakeOffsetToRecno {fuel : Nat} :
    (flatrecsMakeOffsetToRecno fuel handle bloc htable recno).Only Call.OfSearch :=
  only_flatrecsMakeOffsetToRecno (fun _ => Call.Plain.ofSearch) fun _ => id

/-- A search passes events of a search only. -/
theorem events_ofSearch {α : Type} {program : Prog α} (only : program.Only Call.OfSearch)
    (state : σ) : ∀ event ∈ events (log handler program state), event.OfSearch := by
  intro event among
  obtain ⟨moment, there, named⟩ := List.mem_filterMap.mp among
  have allowed := log_only handler only state moment there
  obtain ⟨before, request, reply⟩ := moment
  cases request with
  | note other =>
    obtain rfl : other = event := Option.some.inj named
    exact allowed
  | _ => exact absurd named (Option.some_ne_none _).symm

end Calls

end Recnodb
