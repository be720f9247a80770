import Recnodb.Chains
import Recnodb.Flatrecs

/-!
# Events and footprints

The events of a run, in order, and the calls each function can make at all. A
function that makes only plain calls passes no event, opens and closes no stream
and asks for no lock, whatever the platform answers; all functions between the
notes of a search are of this kind.
-/

namespace Recnodb

open Interaction Program

/-- The event of a moment, if it is one. -/
def Event.ofMoment {σ : Type} (moment : Moment Call Answer σ) : Option Event :=
  match moment.request with
  | .note event => some event
  | _ => none

/-- The events of a run in order. -/
def events {σ : Type} (past : List (Moment Call Answer σ)) : List Event :=
  past.filterMap Event.ofMoment

@[simp] theorem events_nil {σ : Type} : events ([] : List (Moment Call Answer σ)) = [] := rfl

/-- The events of two parts in a row. -/
@[simp] theorem events_append {σ : Type} (first second : List (Moment Call Answer σ)) :
    events (first ++ second) = events first ++ events second :=
  List.filterMap_append

/-- A note is an event. -/
@[simp] theorem events_cons_note {σ : Type} (before : σ) (event : Event) (reply : Unit)
    (rest : List (Moment Call Answer σ)) :
    events (⟨before, .note event, reply⟩ :: rest) = event :: events rest := rfl

/-- A call on the open stream or on the handle. -/
def Call.Direct : Call → Prop
  | .fseek _ _ => True
  | .ftell => True
  | .fread _ => True
  | .fwrite _ => True
  | .primeHandle => True
  | .keepErrno => True
  | _ => False

/-- The same, or a read of the memory next to a buffer. -/
def Call.Plain : Call → Prop
  | .adjacent _ => True
  | request => request.Direct

/-- A direct call is a plain one. -/
theorem Call.Direct.plain {request : Call} (direct : request.Direct) : request.Plain := by
  cases request <;> first | exact direct | exact trivial

/-- A program of plain calls passes no event. -/
theorem events_plain {α σ : Type} {program : Prog α} (plain : program.Only Call.Plain)
    (handler : Handler Call Answer σ) (state : σ) : events (log handler program state) = [] := by
  refine List.filterMap_eq_nil_iff.mpr fun moment among => ?_
  have allowed := log_only handler plain state moment among
  obtain ⟨before, request, reply⟩ := moment
  cases request with
  | note event => exact allowed.elim
  | _ => rfl

/-! ## The calls of each function -/

section Footprint

variable {offset : OffT} {size count : Nat} {block bytes : List UInt8} {infoLen : Nat}
variable {handle : Rndh} {bdef : RndBlockDef}

/-- A seek is direct. -/
theorem direct_fseek {whence : Whence} : (fseek offset whence).Only Call.Direct :=
  only_perform trivial

/-- A measurement is direct. -/
theorem direct_ftell : ftell.Only Call.Direct := only_perform trivial

/-- A read is direct. -/
theorem direct_fread : (fread size).Only Call.Direct := only_perform trivial

/-- A write is direct. -/
theorem direct_fwrite : (fwrite bytes).Only Call.Direct := only_perform trivial

/-- Clearing the error number of the handle is direct. -/
theorem direct_primeHandle : primeHandle.Only Call.Direct := only_perform trivial

/-- Keeping the error number is direct. -/
theorem direct_keepErrno : keepErrno.Only Call.Direct := only_perform trivial

/-- An assertion makes no call. -/
theorem direct_cAssert {fact : Bool} : (cAssert fact).Only Call.Direct := by
  cases fact <;> trivial

/-- Direct calls are plain. -/
theorem plain_of_direct {α : Type} {program : Prog α} (direct : program.Only Call.Direct) :
    program.Only Call.Plain :=
  only_mono (fun _ => Call.Direct.plain) direct

/-- An error that is kept and then answered. -/
theorem direct_kept {α : Type} {value : α} :
    (keepErrno >>= fun _ => pure value : Prog α).Only Call.Direct :=
  only_bind direct_keepErrno fun _ => trivial

/-- The common end of the writing functions. -/
theorem direct_outcome {written : Bool} :
    (if written then pure .success
      else keepErrno >>= fun _ => pure .systemError : Prog RndError).Only Call.Direct := by
  cases written
  · exact direct_kept
  · trivial

/-- A read at an offset is direct. -/
theorem direct_seekRead : (seekRead offset size).Only Call.Direct :=
  only_bind direct_fseek fun found => by
    cases found
    · trivial
    · exact direct_fread

/-- A write at an offset is direct. -/
theorem direct_seekWrite : (seekWrite offset bytes).Only Call.Direct :=
  only_bind direct_fseek fun found => by
    cases found
    · trivial
    · exact direct_fwrite

/-- The read of a header is direct. -/
theorem direct_blocksReadBlockHead : (blocksReadBlockHead offset block infoLen).Only Call.Direct :=
  only_bind direct_seekRead fun read => by
    cases read
    · exact direct_kept
    · trivial

/-- Taking bytes from a buffer reads at most the memory behind it. -/
theorem plain_bufferBytes : (bufferBytes block count).Only Call.Plain := by
  unfold bufferBytes
  split
  · trivial
  · exact only_bind (only_perform trivial) fun _ => trivial

/-- The write of a header is plain: it may read the memory behind its buffer. -/
theorem plain_blocksWriteBlockHead : (blocksWriteBlockHead offset block infoLen).Only Call.Plain :=
  only_bind (plain_of_direct direct_fseek) fun found => by
    cases found
    · exact plain_of_direct direct_kept
    · exact only_bind plain_bufferBytes fun _ =>
        only_bind (plain_of_direct direct_fwrite) fun _ => plain_of_direct direct_outcome

/-- A header write that its buffer covers takes no other memory. -/
theorem direct_blocksWriteBlockHead
    (covered : (blocksBytesToData (InfoBlock.ofBytes block).blockType).toNat ≤ block.length)
    (within : infoLen ≤ block.length) :
    (blocksWriteBlockHead offset block infoLen).Only Call.Direct := by
  refine only_bind direct_fseek fun found => ?_
  cases found
  · exact direct_kept
  · rw [if_pos rfl, bufferBytes, if_pos (by split <;> assumption)]
    exact @only_bind _ _ _ _ _ _ (fwrite _) _ direct_fwrite fun _ => direct_outcome

/-- The preparation of a header makes no call. -/
theorem direct_blocksSetInfoBlockStruct :
    (blocksSetInfoBlockStruct count bdef).Only Call.Direct := by
  refine only_bind direct_cAssert fun _ => ?_
  dsimp only
  split
  · split
    · exact only_bind direct_cAssert fun _ => trivial
    · trivial
  · trivial

/-- Writing the end of a block is direct. -/
theorem direct_writeEndOfBlock {bytesToAdd : UInt64} :
    (writeEndOfBlock bytesToAdd offset).Only Call.Direct := by
  refine only_bind direct_fseek fun sought => ?_
  cases sought
  · exact direct_kept
  · refine only_bind direct_fwrite fun wrote => ?_
    cases wrote
    · exact direct_kept
    · exact only_bind direct_fseek fun _ => direct_outcome

/-- An extension of the file is direct. -/
theorem direct_blocksExtendFile {bytesToAdd : UInt64} :
    (blocksExtendFile handle bytesToAdd).Only Call.Direct := by
  refine only_bind direct_cAssert fun _ => only_bind direct_primeHandle fun _ =>
    only_bind direct_fseek fun found => ?_
  cases found
  · exact direct_kept
  refine only_bind direct_ftell fun location => ?_
  split
  · exact direct_writeEndOfBlock
  · trivial

/-- The measurements of an append are direct. -/
theorem direct_measureEnd : measureEnd.Only Call.Direct := by
  refine only_bind direct_ftell fun original => ?_
  split
  · trivial
  · refine only_bind direct_fseek fun found => ?_
    cases found
    · trivial
    · exact only_bind direct_ftell fun _ => trivial

/-- The write of a new header is plain. -/
theorem plain_writeNewHead : (writeNewHead offset bdef).Only Call.Plain :=
  only_bind (plain_of_direct direct_blocksSetInfoBlockStruct) fun _ => plain_blocksWriteBlockHead

/-- An append makes direct calls, and those of the write of its header. -/
theorem only_appendBlock {permitted : Call → Prop}
    (wider : ∀ request, request.Direct → permitted request)
    (header : ∀ position, (writeNewHead position bdef).Only permitted) :
    (appendBlock handle bdef).Only permitted := by
  have direct {α : Type} {program : Prog α} (only : program.Only Call.Direct) :
      program.Only permitted := only_mono wider only
  refine only_bind (direct direct_cAssert) fun _ => only_bind (direct direct_primeHandle) fun _ =>
    only_bind (direct direct_measureEnd) fun ends => ?_
  dsimp only
  split
  · refine only_bind (direct direct_keepErrno) fun _ => ?_
    split
    · exact only_bind (direct direct_fseek) fun _ => trivial
    · trivial
  · have restored {original : OffT} {rval : RndError} {found : RndBlockDef} :
        (fseek original .seekSet >>= fun _ =>
          if rval = .success then pure (.success, found) else pure (rval, bdef)
            : Prog (RndError × RndBlockDef)).Only permitted :=
      only_bind (direct direct_fseek) fun _ => by
        split <;> trivial
    refine only_bind (direct direct_blocksExtendFile) fun rval => ?_
    split
    · exact only_bind (header _) fun _ => restored
    · exact restored

/-- The body of an append is plain. -/
theorem plain_appendBlock : (appendBlock handle bdef).Only Call.Plain :=
  only_appendBlock (fun _ => Call.Direct.plain) fun _ => plain_writeNewHead

/-- The linking of a new block is plain. -/
theorem plain_linkNewBlock : (linkNewBlock offset bdef).Only Call.Plain := by
  refine only_bind (plain_of_direct direct_blocksSetInfoBlockStruct) fun _ =>
    only_bind (plain_of_direct direct_blocksReadBlockHead) fun _ => ?_
  dsimp only
  split
  · trivial
  · split
    · trivial
    · exact plain_blocksWriteBlockHead

end Footprint

end Recnodb
