import Mathlib.Data.Fintype.Basic
import Recnodb.Interaction.Threads
import Recnodb.NextOffset
import Recnodb.SharedFile

/-!
# Concurrent growth

Processes that call `flatrecs_get_next_offset` on one file, each on any tables, in any
interleaving of their single calls to the platform. An append measures the end of the
file and extends it later, and the lock of a call covers a table header only. Two appends
that overlap in time can be given the same end. Where no append is entered inside another
one, all blocks that are linked have their own bytes, whatever the processes do besides. A
write is one step on the file: the streams of the processes do not buffer what is written.
-/

namespace Recnodb

open Interaction Octets Program Extents

/-- One call of `flatrecs_get_next_offset`. -/
structure GetNext where
  fuel : Nat
  tableHead : OffT
  user : FlatrecsUseNewRecord

/-- A process with an open handle, and the calls it makes in order. -/
structure Client where
  handle : Rndh
  calls : Nat → GetNext

/-- The next call of a client. It delivers its number and its code. -/
def Client.call (client : Client) (number : Nat) : Prog (Nat × RndError) := do
  let { fuel, tableHead, user } := client.calls number
  let rval ← flatrecsGetNextOffset fuel client.handle tableHead user
  pure (number, rval)

/-- What a client does behind an answer. -/
def Client.again (client : Client) (answer : Nat × RndError) : Prog (Nat × RndError) :=
  client.call (answer.1 + 1)

/-- The block locations are different and share no byte. -/
def BlockLoc.Apart (one other : BlockLoc) : Prop :=
  one.offset ≠ other.offset ∧
    (one.offset + one.size ≤ other.offset ∨ other.offset + other.size ≤ one.offset)

instance (one other : BlockLoc) : Decidable (one.Apart other) :=
  inferInstanceAs (Decidable (_ ∧ _))

/-- Apart from each other. -/
theorem BlockLoc.Apart.symm {one other : BlockLoc} (apart : one.Apart other) : other.Apart one :=
  ⟨Ne.symm apart.1, Or.symm apart.2⟩

/-- The block starts and stops inside a file of this length. -/
def BlockLoc.Below (block : BlockLoc) (length : Nat) : Prop :=
  block.offset < length ∧ block.offset + block.size ≤ length

/-- A block that ends in a file ends in a longer one. -/
theorem BlockLoc.Below.mono {block : BlockLoc} {length longer : Nat} (below : block.Below length)
    (more : length ≤ longer) : block.Below longer := by
  have cast : (length : OffT) ≤ longer := Int.ofNat_le.mpr more
  exact ⟨lt_of_lt_of_le below.1 cast, le_trans below.2 cast⟩

/-- What lies below the start of a block is apart from it. -/
theorem BlockLoc.Below.apart {one other : BlockLoc} {length : Nat} (below : one.Below length)
    (behind : (length : OffT) ≤ other.offset) : one.Apart other :=
  ⟨ne_of_lt (lt_of_lt_of_le below.1 behind), .inl (le_trans below.2 behind)⟩

/-- Where a process stands with its appends: between them, inside one that was entered at this
length of the file, or behind one whose block is not linked yet. -/
inductive Appending where
  | idle
  | inside (entered : Nat)
  | placed (block : BlockLoc)
deriving DecidableEq

/-- The process is inside an append. -/
def Appending.Inside : Appending → Prop
  | .inside _ => True
  | _ => False

instance : DecidablePred Appending.Inside
  | .idle => isFalse id
  | .inside _ => isTrue trivial
  | .placed _ => isFalse id

section Acts

variable {ι : Type}

/-- Where a process stands behind one of its deeds. -/
def Appending.advance (phase : Appending) (deed : Deed Call Answer (Nat × RndError) (Shared ι)) :
    Appending :=
  match deed with
  | .call ⟨before, .note .appendEntered, _⟩ => .inside before.file.length
  | .call ⟨_, .note (.appendLeft rval block), _⟩ => if rval = .success then .placed block else .idle
  | .call ⟨_, .note (.extended _ _ _), _⟩ => .idle
  | _ => phase

/-- What a process may do where it stands: leave an append with a block behind the end it was
entered at and inside the file, and link the block it placed. -/
def Appending.Allows (phase : Appending) (moment : Moment Call Answer (Shared ι)) : Prop :=
  match moment.request with
  | .note (.appendLeft rval block) => rval = .success →
      ∃ entered, phase = .inside entered ∧ (entered : OffT) ≤ block.offset ∧
        block.Below moment.before.file.length
  | .note (.extended _ rval block) => rval = .success → phase = .placed block
  | _ => True

/-- A process relies on its stream, which is unbuffered, and on a file that gets no shorter. -/
def appending (process : ι) : Discipline Call Answer (Nat × RndError) (Shared ι) Appending where
  rely before now := before.file.length ≤ now.file.length ∧
    now.processes process = before.processes process
  fine _ moment := moment.before.Unbuffered process
  allowed phase moment after := moment.before.file.length ≤ after.file.length ∧
    (∀ other, other ≠ process → after.processes other = moment.before.processes other) ∧
    phase.Allows moment
  advance := Appending.advance

/-- The act is the entry to `blocks_append_block`. -/
def EntersAppend (act : Act ι Call Answer (Nat × RndError) (Shared ι)) : Bool :=
  match act.deed with
  | .call ⟨_, .note .appendEntered, _⟩ => true
  | _ => false

/-- The block that an act links, if it is the return of a successful `blocks_extend_chain`. -/
def linkedBlock (act : Act ι Call Answer (Nat × RndError) (Shared ι)) : Option BlockLoc :=
  match act.deed with
  | .call ⟨_, .note (.extended _ rval block), _⟩ => if rval = .success then some block else none
  | _ => none

/-- The blocks that were appended and linked, by any process. -/
def linkedBlocks (past : List (Act ι Call Answer (Nat × RndError) (Shared ι))) : List BlockLoc :=
  past.filterMap linkedBlock

/-- No two of the blocks that were appended and linked share a byte, nor are they one block. -/
def GrowthDisjoint (past : List (Act ι Call Answer (Nat × RndError) (Shared ι))) : Prop :=
  (linkedBlocks past).Pairwise BlockLoc.Apart

instance (past : List (Act ι Call Answer (Nat × RndError) (Shared ι))) :
    Decidable (GrowthDisjoint past) :=
  inferInstanceAs (Decidable (List.Pairwise _ _))

variable [DecidableEq ι]

/-- Where a process stands behind some acts. -/
def appendPhase (process : ι) (past : List (Act ι Call Answer (Nat × RndError) (Shared ι))) :
    Appending :=
  phaseOf appending .idle process past

/-- No process enters `blocks_append_block` while another one is inside it. -/
def AppendsAlone (past : List (Act ι Call Answer (Nat × RndError) (Shared ι))) : Prop :=
  Throughout (fun past act => EntersAppend act = true →
    ∀ other, other ≠ act.thread → ¬ (appendPhase other past).Inside) past

instance [Fintype ι] (past : List (Act ι Call Answer (Nat × RndError) (Shared ι))) :
    Decidable (AppendsAlone past) :=
  inferInstanceAs (Decidable (Throughout _ _))

end Acts

/-! ## Calls that are no events of an append -/

/-- A call that is no event of an append and makes the file no shorter. -/
def Call.Quiet : Call → Prop
  | .note .appendEntered => False
  | .note (.appendLeft _ _) => False
  | .note (.extended _ _ _) => False
  | .fopen create => create = false
  | _ => True

/-- A plain call is quiet. -/
theorem Call.Plain.quiet {request : Call} (plain : request.Plain) : request.Quiet := by
  cases request with
  | note event => exact plain.elim
  | fopen create => exact plain.elim
  | _ => trivial

section Footprint

variable {bloc : BlockLoc} {handle : Rndh}

/-- A program of plain calls is quiet. -/
theorem quiet_of_plain {α : Type} {program : Prog α} (plain : program.Only Call.Plain) :
    program.Only Call.Quiet := only_mono (fun _ => Call.Plain.quiet) plain

/-- A program of direct calls is quiet. -/
theorem quiet_of_direct {α : Type} {program : Prog α} (direct : program.Only Call.Direct) :
    program.Only Call.Quiet := quiet_of_plain (plain_of_direct direct)

/-- The release of a lock is quiet. -/
theorem quiet_release {rval : RndError} : (release bloc rval).Only Call.Quiet := by
  apply only_bind (only_perform trivial)
  intro refused
  cases refused with
  | none => trivial
  | some errno => exact quiet_of_direct direct_kept

/-- The read of the table header is quiet. -/
theorem quiet_readTableHead : (readTableHead handle bloc).Only Call.Quiet := by
  have answered {code : RndError} : (release bloc code >>= fun rval =>
      pure (.error rval) : Prog (Except RndError (OffT × List UInt8))).Only Call.Quiet :=
    only_bind quiet_release fun _ => trivial
  apply only_bind (quiet_of_direct direct_cAssert)
  intro _
  apply only_bind (quiet_of_direct direct_primeHandle)
  intro _
  apply only_bind (quiet_of_direct direct_primeHandle)
  intro _
  apply only_bind (only_perform trivial)
  intro refused
  cases refused with
  | some errno =>
    dsimp only
    split
    · trivial
    · exact quiet_of_direct direct_kept
  | none =>
    apply only_bind (quiet_of_direct direct_ftell)
    intro saved
    apply only_bind (quiet_of_direct direct_fseek)
    intro found
    cases found with
    | false => exact only_bind (quiet_of_direct direct_keepErrno) fun _ => answered
    | true =>
      apply only_bind (quiet_of_direct direct_fread)
      intro read
      cases read with
      | some buffer => trivial
      | none => exact only_bind (quiet_of_direct direct_fseek) fun _ => answered

/-- The part behind the user callback is quiet. -/
theorem quiet_leaveTable {savedOffset : OffT} {changed : Bool} {buffer : List UInt8} :
    (leaveTable bloc savedOffset changed buffer).Only Call.Quiet := by
  apply only_bind (quiet_of_direct direct_writeBack)
  intro rval
  exact only_bind (quiet_of_direct direct_fseek) fun _ => quiet_release

end Footprint

/-! ## One process keeps its discipline -/

section Keeping

variable {ι : Type} {process : ι} {shared : Shared ι}

/-- What a process was left with, behind calls of the others. -/
theorem appending_rely {now : Shared ι} (relied : (appending process).rely shared now) :
    shared.file.length ≤ now.file.length ∧
      (now.view process).position = (shared.view process).position := by
  refine ⟨relied.1, ?_⟩
  rw [Shared.view, relied.2]
  rfl

variable [DecidableEq ι] {machine : ι → Machine} {phase : Appending} {β : Type}
variable {post : β → Appending → Shared ι → Prop}

/-- A quiet call is allowed and leaves the phase. -/
theorem quiet_allowed {request : Call} (quiet : request.Quiet) (now : Shared ι) :
    (appending process).allowed phase
        ⟨now, request, (sharedPosix machine process request now).1⟩
        (sharedPosix machine process request now).2 ∧
      (appending process).advance phase
        (.call ⟨now, request, (sharedPosix machine process request now).1⟩) = phase := by
  have longer : now.file.length ≤ (sharedPosix machine process request now).2.file.length := by
    apply sharedPosix_length
    rintro rfl
    exact absurd quiet Bool.noConfusion
  refine ⟨⟨longer, fun other different => sharedPosix_other different, ?_⟩, ?_⟩
  · cases request with
    | note event => cases event <;> first | exact quiet.elim | trivial
    | _ => trivial
  · cases request with
    | note event => cases event <;> first | exact quiet.elim | rfl
    | _ => rfl

/-- A program of quiet calls leaves the phase and does not shorten the file. -/
theorem keeps_quiet {program : Prog β} (quiet : program.Only Call.Quiet) {bound : Nat}
    (long : bound ≤ shared.file.length) :
    Keeps (sharedPosix machine process) (appending process) program phase shared
      fun _ phase' after => phase' = phase ∧ bound ≤ after.file.length := by
  refine Keeps.only (fun (phase' : Appending) (after : Shared ι) =>
    phase' = phase ∧ bound ≤ after.file.length) quiet ?_ ⟨rfl, long⟩
  rintro _ before now request calls ⟨rfl, soFar⟩ ⟨longer, -⟩ -
  obtain ⟨allowed, same⟩ := @quiet_allowed ι process _ machine _ request calls now
  exact ⟨allowed, same, soFar.trans (longer.trans allowed.1)⟩

/-- The rule for a quiet call that acts on the file, by its effect on the world of the process. -/
theorem keeps_onFile {request : Call} {rest : Answer request → Prog β} (quiet : request.Quiet)
    (plain : request.OnFile)
    (each : ∀ (now after : Shared ι) (reply : Answer request),
      shared.file.length ≤ now.file.length → now.file.length ≤ after.file.length →
      (now.view process).position = (shared.view process).position →
      now.Unbuffered process → (after.view process).file = after.file →
      posix (machine process).platform request (now.view process) = (reply, after.view process) →
      Keeps (sharedPosix machine process) (appending process) (rest reply) phase after post) :
    Keeps (sharedPosix machine process) (appending process) (issue request >>= rest) phase shared
      post := by
  apply Keeps.call
  intro now relied unbuffered
  obtain ⟨allowed, same⟩ := @quiet_allowed ι process _ machine phase request quiet now
  obtain ⟨longer, still⟩ := appending_rely relied
  have alone := @sharedPosix_onFile ι _ machine process request now plain
  obtain ⟨flag, passed⟩ : now.Unbuffered process := unbuffered
  have empty : ((sharedPosix machine process request now).2.view process).held = [] :=
    (congrArg (fun outcome => outcome.2.held) alone).trans
      (@posix_unbuffered request (machine process).platform (now.view process) flag passed).2
  have settled : ((sharedPosix machine process request now).2.view process).file =
      (sharedPosix machine process request now).2.file := World.file_of_empty empty
  rw [same]
  exact ⟨allowed, each now _ _ longer allowed.1 still ⟨flag, passed⟩ settled alone.symm⟩

/-- An error whose number is kept is delivered with a file that is at most longer. -/
theorem keeps_error {result : β}
    (holds : ∀ after : Shared ι, shared.file.length ≤ after.file.length →
      post result phase after) :
    Keeps (sharedPosix machine process) (appending process)
      (keepErrno >>= fun _ => pure result) phase shared post := by
  apply keeps_onFile (show Call.keepErrno.Quiet from trivial) trivial
  intro now after _ longer grown _ _ _ _
  exact holds after (longer.trans grown)

/-- A seek leaves the file no shorter, and the stream where its reply says. -/
theorem keeps_fseek {offset : OffT} {whence : Whence} {rest : Bool → Prog β}
    (each : ∀ (now after : Shared ι) (reply : Bool), shared.file.length ≤ now.file.length →
      now.file.length ≤ after.file.length → (now.view process).file = now.file →
      AfterSeek (now.view process) offset whence reply (after.view process) →
      Keeps (sharedPosix machine process) (appending process) (rest reply) phase after post) :
    Keeps (sharedPosix machine process) (appending process) (fseek offset whence >>= rest) phase
      shared post := by
  apply keeps_onFile (show (Call.fseek offset whence).Quiet from trivial) trivial
  intro now after reply longer grown _ unbuffered _ same
  have moved := @posix_fseek_after (machine process).platform (now.view process) offset whence
  rw [same] at moved
  exact each now after reply longer grown unbuffered.settled.file moved

/-- A measurement tells the position or fails. -/
theorem keeps_ftell {rest : OffT → Prog β}
    (each : ∀ (after : Shared ι) (reply : OffT), shared.file.length ≤ after.file.length →
      reply = (shared.view process).position ∨ reply = -1 →
      Keeps (sharedPosix machine process) (appending process) (rest reply) phase after post) :
    Keeps (sharedPosix machine process) (appending process) (ftell >>= rest) phase shared post := by
  apply keeps_onFile (show Call.ftell.Quiet from trivial) trivial
  intro now after reply longer grown still _ _ same
  have told := @posix_ftell_after (machine process).platform (now.view process)
  rw [same] at told
  apply each after reply (longer.trans grown)
  rw [← still]
  exact told.reply

/-- A write that succeeds has written something. -/
theorem posix_fwrite_some {platform : Platform} {world : World} {bytes : List UInt8}
    (wrote : (posix platform (.fwrite bytes) world).1 = true) :
    bytes ≠ [] ∧ (posix platform (.fwrite bytes) world).2.file =
      patch world.file world.position bytes := by
  refine ⟨?_, ((posix_fwrite_after bytes).whole wrote).1⟩
  rintro rfl
  rcases @FromPosition.posix_cases platform (.fwrite []) world with sound | ⟨fault, broken⟩
  · rw [sound, unfaulted, if_neg (fun inside => absurd inside.1 (Nat.lt_irrefl 0))] at wrote
    exact absurd wrote Bool.false_ne_true
  · rw [broken] at wrote
    exact absurd wrote Bool.false_ne_true

/-- A write that is taken ends in the file. -/
theorem keeps_fwrite {bytes : List UInt8} {rest : Bool → Prog β}
    (each : ∀ (after : Shared ι) (reply : Bool), shared.file.length ≤ after.file.length →
      (reply = true → bytes ≠ [] ∧
        (shared.view process).position + bytes.length ≤ after.file.length) →
      Keeps (sharedPosix machine process) (appending process) (rest reply) phase after post) :
    Keeps (sharedPosix machine process) (appending process) (fwrite bytes >>= rest) phase shared
      post := by
  apply keeps_onFile (show (Call.fwrite bytes).Quiet from trivial) trivial
  intro now after reply longer grown still _ settled same
  apply each after reply (longer.trans grown)
  rintro rfl
  have wrote := @posix_fwrite_some (machine process).platform (now.view process) bytes
  rw [same] at wrote
  obtain ⟨some, written⟩ := wrote rfl
  have file : after.file = patch (now.view process).file (now.view process).position bytes :=
    settled.symm.trans written
  refine ⟨some, ?_⟩
  rw [file, patch_length _ _ _ some, still]
  exact le_max_right _ _

/-! ## An append -/

variable {handle : Rndh} {bdef : RndBlockDef}

/-- A measured end lies behind the file as it was, and inside it as it is now. -/
theorem keeps_measureEnd :
    Keeps (sharedPosix machine process) (appending process) measureEnd phase shared
      fun ends phase' after => phase' = phase ∧ shared.file.length ≤ after.file.length ∧
        (ends.2 ≠ -1 → (shared.file.length : OffT) ≤ ends.2 ∧ ends.2 ≤ after.file.length) := by
  apply keeps_ftell
  intro begun original longer _
  split
  · exact ⟨rfl, longer, fun measured => absurd rfl measured⟩
  · apply keeps_fseek
    intro now sought found longer' grown settled moved
    have total := longer.trans (longer'.trans grown)
    cases found with
    | false => exact ⟨rfl, total, fun measured => absurd rfl measured⟩
    | true =>
      have there : ((sought.view process).position : Int) = (now.file.length : Int) + 0 :=
        settled ▸ moved.found rfl
      apply keeps_ftell
      intro after told longest either
      refine ⟨rfl, total.trans longest, fun measured => ?_⟩
      rcases either with rfl | failed
      · exact ⟨Int.ofNat_le.mpr (by omega), Int.ofNat_le.mpr (by omega)⟩
      · exact absurd failed measured

/-- Behind a success the file reaches as far as the block of this size that starts at a measured
end. -/
theorem keeps_writeEndOfBlock {size : UInt32} {location : OffT} {start : Nat}
    (measured : start ≤ shared.file.length) :
    Keeps (sharedPosix machine process) (appending process)
      (writeEndOfBlock size.toUInt64 location) phase shared
      fun rval phase' after => phase' = phase ∧ shared.file.length ≤ after.file.length ∧
        (rval = .success → start + size.toNat ≤ after.file.length) := by
  have failed {now : Shared ι} (longer : shared.file.length ≤ now.file.length) :
      Keeps (sharedPosix machine process) (appending process)
        (keepErrno >>= fun _ => pure .systemError : Prog RndError) phase now
        fun rval phase' after => phase' = phase ∧ shared.file.length ≤ after.file.length ∧
          (rval = .success → start + size.toNat ≤ after.file.length) :=
    keeps_error fun _ further => ⟨rfl, longer.trans further, RndError.noConfusion⟩
  apply keeps_fseek
  intro now sought found longer grown settled moved
  cases found with
  | false => exact failed (longer.trans grown)
  | true =>
    have there : ((sought.view process).position : Int) =
      (now.file.length : Int) + (size.toUInt64 - 1).toInt64.toInt := settled ▸ moved.found rfl
    rw [lastByte] at there
    apply keeps_fwrite
    intro wrote done reaches effect
    have soFar := longer.trans (grown.trans reaches)
    cases done with
    | false => exact failed soFar
    | true =>
      obtain ⟨-, end_⟩ := effect rfl
      rw [List.length_singleton] at end_
      apply keeps_fseek
      intro now' back found' longer' grown' _ _
      have total := soFar.trans (longer'.trans grown')
      cases found' with
      | false => exact failed total
      | true =>
        refine ⟨rfl, total, fun _ => ?_⟩
        have last := longer'.trans grown'
        omega

/-- A successful extension of the file makes room for the block behind the measured end. -/
theorem keeps_blocksExtendFile {size : UInt32} {start : Nat}
    (measured : start ≤ shared.file.length) :
    Keeps (sharedPosix machine process) (appending process)
      (blocksExtendFile handle size.toUInt64) phase shared
      fun rval phase' after => phase' = phase ∧ shared.file.length ≤ after.file.length ∧
        (rval = .success → start + size.toNat ≤ after.file.length) := by
  unfold blocksExtendFile
  apply Keeps.bind (keeps_quiet (quiet_of_direct direct_cAssert) (Nat.le_refl _))
  rintro _ _ asserted ⟨rfl, longer⟩
  apply Keeps.bind (keeps_quiet (quiet_of_direct direct_primeHandle) longer)
  rintro _ _ primed ⟨rfl, longer⟩
  apply keeps_fseek
  intro now sought found longer' grown _ _
  have soFar := longer.trans (longer'.trans grown)
  cases found with
  | false =>
    exact keeps_error fun _ further => ⟨rfl, soFar.trans further, RndError.noConfusion⟩
  | true =>
    apply keeps_ftell
    intro told location longest _
    have total := soFar.trans longest
    split
    · apply (keeps_writeEndOfBlock (measured.trans total)).mono
      rintro rval phase' after ⟨rfl, last, reaches⟩
      exact ⟨rfl, total.trans last, reaches⟩
    · exact ⟨rfl, total, RndError.noConfusion⟩

/-- Filling up a buffer leaves the stream. -/
theorem keeps_bufferBytes {block : List UInt8} {count : Nat} :
    Keeps (sharedPosix machine process) (appending process) (bufferBytes block count) phase shared
      fun _ phase' after => phase' = phase ∧ shared.file.length ≤ after.file.length ∧
        (after.view process).position = (shared.view process).position := by
  unfold bufferBytes
  split
  · exact ⟨rfl, Nat.le_refl _, rfl⟩
  · apply keeps_onFile (show (Call.adjacent _).Quiet from trivial) trivial
    intro now after beyond longer grown still _ _ same
    have aside := @posix_unmoved (machine process).platform (now.view process)
      (.adjacent (count - block.length)) trivial
    rw [same] at aside
    exact ⟨rfl, longer.trans grown, aside.position.trans still⟩

/-- Behind a success the header was written, so the file goes on behind its offset. -/
theorem keeps_writeNewHead {start : Nat} :
    Keeps (sharedPosix machine process) (appending process) (writeNewHead start bdef) phase shared
      fun rval phase' after => phase' = phase ∧ shared.file.length ≤ after.file.length ∧
        (rval = .success → start < after.file.length) := by
  have failed {now : Shared ι} (longer : shared.file.length ≤ now.file.length) :
      Keeps (sharedPosix machine process) (appending process)
        (keepErrno >>= fun _ => pure .systemError : Prog RndError) phase now
        fun rval phase' after => phase' = phase ∧ shared.file.length ≤ after.file.length ∧
          (rval = .success → start < after.file.length) :=
    keeps_error fun _ further => ⟨rfl, longer.trans further, RndError.noConfusion⟩
  have written {now : Shared ι} {bytes : List UInt8} (longer : shared.file.length ≤ now.file.length)
      (place : (now.view process).position = start) :
      Keeps (sharedPosix machine process) (appending process)
        (fwrite bytes >>= fun written =>
          if written = true then pure .success
          else keepErrno >>= fun _ => pure .systemError : Prog RndError) phase now
        fun rval phase' after => phase' = phase ∧ shared.file.length ≤ after.file.length ∧
          (rval = .success → start < after.file.length) := by
    apply keeps_fwrite
    intro wrote done reaches effect
    cases done with
    | false => exact failed (longer.trans reaches)
    | true =>
      obtain ⟨some, last⟩ := effect rfl
      have long := List.length_pos_iff.mpr some
      exact ⟨rfl, longer.trans reaches, fun _ => by omega⟩
  apply Keeps.bind (keeps_quiet (quiet_of_direct direct_blocksSetInfoBlockStruct) (Nat.le_refl _))
  rintro blockbuff _ filled ⟨rfl, longer⟩
  apply keeps_fseek
  intro now sought found longer' grown _ moved
  have soFar := longer.trans (longer'.trans grown)
  cases found with
  | false => exact failed soFar
  | true =>
    have there : (sought.view process).position = start := Int.natCast_inj.mp (moved.found rfl)
    rw [if_pos rfl]
    apply Keeps.bind keeps_bufferBytes
    rintro bytes _ filled' ⟨rfl, longest, still⟩
    exact written (soFar.trans longest) (still.trans there)

/-- A successful append placed its block behind this length of the file, and inside the file. -/
def PlacedBehind (length : Nat) (result : RndError × RndBlockDef) (after : Shared ι) : Prop :=
  result.1 = .success → (length : OffT) ≤ result.2.newBlock.offset ∧
    result.2.newBlock.Below after.file.length

/-- The end of an append, with the stream back where it was. -/
theorem keeps_restored {length start : Nat} {original : OffT} {rval : RndError}
    (behind : length ≤ start) (long : length ≤ shared.file.length)
    (placed : rval = .success → start < shared.file.length ∧
      start + bdef.blockSize.toNat ≤ shared.file.length) :
    Keeps (sharedPosix machine process) (appending process)
      (fseek original .seekSet >>= fun _ =>
        if rval = .success then pure (.success,
          { bdef with newBlock := ⟨start, bdef.blockSize.toUInt64.toNat⟩ })
        else pure (rval, bdef) : Prog (RndError × RndBlockDef)) phase shared
      fun result phase' after => phase' = phase ∧ length ≤ after.file.length ∧
        PlacedBehind length result after := by
  apply Keeps.bind (keeps_quiet (quiet_of_direct direct_fseek) (Nat.le_refl _))
  rintro _ _ back ⟨rfl, longer⟩
  split
  · rename_i success
    obtain ⟨inside, reaches⟩ := placed success
    have size : bdef.blockSize.toUInt64.toNat = bdef.blockSize.toNat := UInt32.toNat_toUInt64 _
    refine ⟨rfl, long.trans longer, fun _ => ⟨Int.ofNat_le.mpr behind, ?_, ?_⟩⟩
    · exact Int.ofNat_lt.mpr (inside.trans_le longer)
    · dsimp only
      rw [size]
      exact Int.ofNat_le.mpr (reaches.trans longer)
  · rename_i failed
    exact ⟨rfl, long.trans longer, fun success => absurd success failed⟩

/-- The block of a successful append starts behind the file as it was, and lies inside the file. -/
theorem keeps_appendBlock :
    Keeps (sharedPosix machine process) (appending process) (appendBlock handle bdef) phase shared
      fun result phase' after => phase' = phase ∧ shared.file.length ≤ after.file.length ∧
        PlacedBehind shared.file.length result after := by
  unfold appendBlock
  apply Keeps.bind (keeps_quiet (quiet_of_direct direct_cAssert) (Nat.le_refl _))
  rintro _ _ asserted ⟨rfl, longer⟩
  apply Keeps.bind (keeps_quiet (quiet_of_direct direct_primeHandle) longer)
  rintro _ _ primed ⟨rfl, longer⟩
  apply Keeps.bind keeps_measureEnd
  rintro ⟨original, location⟩ _ told ⟨rfl, longer', measured⟩
  have soFar := longer.trans longer'
  dsimp only at measured ⊢
  split
  · apply Keeps.bind (keeps_quiet (quiet_of_direct direct_keepErrno) soFar)
    rintro _ _ kept ⟨rfl, longer⟩
    split
    · apply Keeps.bind (keeps_quiet (quiet_of_direct direct_fseek) longer)
      rintro _ _ back ⟨rfl, longer⟩
      exact ⟨rfl, longer, fun success => absurd success RndError.noConfusion⟩
    · exact ⟨rfl, longer, fun success => absurd success RndError.noConfusion⟩
  · rename_i found
    obtain ⟨above, below⟩ := measured found
    obtain ⟨start, rfl⟩ : ∃ start : Nat, location = start :=
      ⟨_, (Int.toNat_of_nonneg ((Int.natCast_nonneg _).trans above)).symm⟩
    have behind : shared.file.length ≤ start := longer.trans (Int.ofNat_le.mp above)
    apply Keeps.bind (keeps_blocksExtendFile (Int.ofNat_le.mp below))
    rintro rval _ extended ⟨rfl, longest, reaches⟩
    split
    · apply Keeps.bind keeps_writeNewHead
      rintro code _ written ⟨rfl, last, inside⟩
      apply keeps_restored behind (soFar.trans (longest.trans last))
      intro success
      exact ⟨inside success, (reaches rfl).trans last⟩
    · rename_i failed
      apply keeps_restored behind (soFar.trans longest)
      intro success
      exact absurd success failed

/-! ## The events of an append -/

/-- The rule for a note, which may change the phase. -/
theorem keeps_note {event : Event} {rest : Unit → Prog β}
    (allowed : ∀ now : Shared ι, shared.file.length ≤ now.file.length →
      phase.Allows ⟨now, .note event, ()⟩)
    (each : ∀ now after : Shared ι, shared.file.length ≤ now.file.length →
      after.file = now.file →
      Keeps (sharedPosix machine process) (appending process) (rest ())
        (phase.advance (.call ⟨now, .note event, ()⟩)) after post) :
    Keeps (sharedPosix machine process) (appending process) (note event >>= rest) phase shared
      post := by
  apply Keeps.call
  intro now relied unbuffered
  have file : (sharedPosix machine process (.note event) now).2.file = now.file :=
    (@sharedPosix_keeping ι _ machine process (.note event) now trivial unbuffered.settled).1
  refine ⟨⟨?_, fun other different => sharedPosix_other different, allowed now relied.1⟩, ?_⟩
  · exact Nat.le_of_eq (congrArg List.length file).symm
  · exact each now _ relied.1 file

/-- An append places its block if it succeeds. -/
theorem keeps_blocksAppendBlock :
    Keeps (sharedPosix machine process) (appending process) (blocksAppendBlock handle bdef) phase
      shared fun result phase' _ =>
        phase' = if result.1 = .success then .placed result.2.newBlock else .idle := by
  refine keeps_note (fun _ _ => trivial) ?_
  intro now entered _ file
  apply Keeps.bind keeps_appendBlock
  rintro ⟨rval, placed⟩ phase' left ⟨rfl, -, behind⟩
  apply keeps_note
  · intro now' longer success
    obtain ⟨above, below⟩ := behind success
    rw [file] at above
    exact ⟨_, rfl, above, below.mono longer⟩
  · intro now' after _ _
    rfl

/-- A successful extension has placed its block. -/
theorem keeps_blocksExtendChain {chainEnd : OffT} :
    Keeps (sharedPosix machine process) (appending process)
      (blocksExtendChain handle chainEnd bdef) phase shared
      fun result phase' _ => result.1 = .success → phase' = .placed result.2.newBlock := by
  apply Keeps.bind (keeps_quiet (quiet_of_direct direct_primeHandle) (Nat.le_refl _))
  rintro _ _ primed ⟨rfl, -⟩
  apply Keeps.bind keeps_blocksAppendBlock
  rintro ⟨rval, placed⟩ phase' appended same
  dsimp only at same ⊢
  split
  · rename_i failed
    exact fun success => absurd success failed
  · rename_i success
    rw [if_pos (not_not.mp success)] at same
    apply Keeps.bind (keeps_quiet (quiet_of_plain plain_linkNewBlock) (Nat.le_refl _))
    rintro code _ linked ⟨rfl, -⟩
    exact fun _ => same

/-! ## A call -/

/-- An extension by the record search leaves its process without a block. -/
theorem keeps_extendForRecord {recsize recno : UInt32} {search : Search} :
    Keeps (sharedPosix machine process) (appending process)
      (extendForRecord handle recsize recno search) phase shared
      fun _ phase' _ => phase' = .idle := by
  refine keeps_note (fun _ _ => trivial) ?_
  intro now requested _ _
  apply Keeps.bind keeps_blocksExtendChain
  rintro ⟨rval, placed⟩ phase' extended links
  refine keeps_note (fun _ _ => links) ?_
  intro now' after _ _
  dsimp only
  split
  · apply Keeps.bind (keeps_quiet (quiet_of_direct direct_blocksReadBlockHead) (Nat.le_refl _))
    rintro read _ found ⟨rfl, -⟩
    split
    · rfl
    · rfl
  · rfl

/-- The search stands between appends at the start of each round. -/
theorem keeps_search {fuel : Nat} {bloc : BlockLoc} {htable : RndHeadTable} {recno : UInt32} :
    Keeps (sharedPosix machine process) (appending process)
      (flatrecsMakeOffsetToRecno fuel handle bloc htable recno) .idle shared
      fun _ phase' _ => phase' = .idle := by
  refine Keeps.iterate (fun _ phase' _ => phase' = .idle) ?_ fuel rfl
  rintro search _ now rfl
  by_cases within : search.Covers htable recno ∨ search.iblock.nextBlock.offset ≠ 0
  · apply (keeps_quiet (quiet_of_plain (plain_searchRound within)) (Nat.le_refl _)).mono
    rintro outcome _ after ⟨rfl, -⟩
    cases outcome <;> rfl
  · obtain ⟨beyond, last⟩ : ¬ search.Covers htable recno ∧
        search.iblock.nextBlock.offset = 0 := by simpa using within
    rw [searchRound_end beyond last]
    apply keeps_extendForRecord.mono
    rintro outcome _ after rfl
    cases outcome <;> rfl

/-- The part of a table call between the reads and the release leaves its process idle. -/
theorem keeps_useTable {fuel : Nat} {bloc : BlockLoc} {user : FlatrecsUseNewRecord}
    {savedOffset : OffT} {buffer : List UInt8}
    (outside : ∀ handle htable offset, (user handle htable offset).Only Call.Quiet) :
    Keeps (sharedPosix machine process) (appending process)
      (useTable fuel handle bloc user savedOffset buffer) .idle shared
      fun _ phase' _ => phase' = .idle := by
  refine keeps_note (fun _ _ => trivial) ?_
  intro now numbered _ _
  apply Keeps.bind keeps_search
  rintro ⟨rval, offset⟩ _ searched rfl
  dsimp only
  split
  · apply (keeps_quiet quiet_leaveTable (Nat.le_refl _)).mono
    rintro code _ after ⟨rfl, -⟩
    rfl
  · refine keeps_note (fun _ _ => trivial) ?_
    intro now handed _ _
    apply Keeps.bind (keeps_quiet (outside _ _ _) (Nat.le_refl _))
    rintro ⟨changed, left⟩ _ used ⟨rfl, -⟩
    refine keeps_note (fun _ _ => trivial) ?_
    intro now' answered _ _
    apply (keeps_quiet quiet_leaveTable (Nat.le_refl _)).mono
    rintro code _ after ⟨rfl, -⟩
    rfl

/-- A client keeps its discipline in every call, and stands between appends behind it. -/
theorem keeps_call {client : Client} {number : Nat}
    (outside : ∀ number handle htable offset,
      ((client.calls number).user handle htable offset).Only Call.Quiet) :
    Keeps (sharedPosix machine process) (appending process) (client.call number) .idle shared
      fun _ phase' _ => phase' = .idle := by
  unfold Client.call
  dsimp only
  rw [flatrecsGetNextOffset_eq, bind_assoc]
  apply Keeps.bind (keeps_quiet quiet_readTableHead (Nat.le_refl _))
  rintro result _ locked ⟨rfl, -⟩
  cases result with
  | error code => rfl
  | ok read =>
    apply Keeps.bind (keeps_useTable (outside number))
    rintro code _ after rfl
    rfl

end Keeping

/-! ## All processes -/

section Runs

variable {ι : Type} [DecidableEq ι] {machine : ι → Machine} {clients : ι → Client}

/-- What one client is allowed, the others rely on. -/
theorem together_appending (outside : ∀ process number handle htable offset,
    (((clients process).calls number).user handle htable offset).Only Call.Quiet) :
    Together (sharedPosix machine) (fun process => (clients process).again) appending
      fun _ _ phase _ => phase = .idle where
  refl _ _ := ⟨Nat.le_refl _, rfl⟩
  trans _ _ _ _ first second := ⟨first.1.trans second.1, second.2.trans first.2⟩
  respects _ other _ _ _ different allowed := ⟨allowed.1, allowed.2.1 other (Ne.symm different)⟩
  again process answer phase state idle := by
    subst idle
    exact keeps_call (outside process)

/-- What holds of the blocks behind some acts: those that are linked, and those that are placed and
not linked yet, are apart and lie inside the file. A process inside an append entered it behind all
of them, and alone. -/
structure Growing (past : List (Act ι Call Answer (Nat × RndError) (Shared ι)))
    (shared : Shared ι) : Prop where
  linked : GrowthDisjoint past
  inFile : ∀ block ∈ linkedBlocks past, block.Below shared.file.length
  pending : ∀ process block, appendPhase process past = .placed block →
    block.Below shared.file.length ∧ ∀ other ∈ linkedBlocks past, other.Apart block
  pendingApart : ∀ one other block block', one ≠ other → appendPhase one past = .placed block →
    appendPhase other past = .placed block' → block.Apart block'
  entered : ∀ process length, appendPhase process past = .inside length →
    length ≤ shared.file.length ∧ (∀ block ∈ linkedBlocks past, block.Below length) ∧
    ∀ other block, appendPhase other past = .placed block → block.Below length
  alone : ∀ one other, (appendPhase one past).Inside → (appendPhase other past).Inside → one = other

variable {past : List (Act ι Call Answer (Nat × RndError) (Shared ι))} {shared after : Shared ι}
variable {process : ι} {deed : Deed Call Answer (Nat × RndError) (Shared ι)}

omit [DecidableEq ι] in
/-- The blocks linked by one act more. -/
theorem linkedBlocks_concat {act : Act ι Call Answer (Nat × RndError) (Shared ι)} :
    linkedBlocks (past ++ [act]) = linkedBlocks past ++ (linkedBlock act).toList := by
  rw [linkedBlocks, List.filterMap_append]
  cases found : linkedBlock act <;> simp [linkedBlocks, found]

/-- An act moves the phase of its own process only. -/
theorem appendPhase_concat {other : ι} : appendPhase other (past ++ [⟨process, deed⟩]) =
    if other = process then (appendPhase process past).advance deed
    else appendPhase other past := by
  split
  · rename_i same
    rw [same]
    exact phaseOf_concat_self
  · rename_i different
    exact phaseOf_concat_other (Ne.symm different)

/-- What one act can do: link the block its process had placed, place a block behind the length at
which its process entered, or enter at the length of the file while nobody is inside. -/
structure GrowthStep (past : List (Act ι Call Answer (Nat × RndError) (Shared ι))) (process : ι)
    (deed : Deed Call Answer (Nat × RndError) (Shared ι)) (shared after : Shared ι) : Prop where
  longer : shared.file.length ≤ after.file.length
  links : ∀ block, linkedBlock ⟨process, deed⟩ = some block →
    appendPhase process past = .placed block ∧ (appendPhase process past).advance deed = .idle
  places : ∀ block, (appendPhase process past).advance deed = .placed block →
    appendPhase process past = .placed block ∨
    ∃ length, appendPhase process past = .inside length ∧ (length : OffT) ≤ block.offset ∧
      block.Below shared.file.length
  enters : ∀ length, (appendPhase process past).advance deed = .inside length →
    appendPhase process past = .inside length ∨
    length = shared.file.length ∧ ∀ other, other ≠ process → ¬ (appendPhase other past).Inside

section Step

variable (growing : Growing past shared) (moves : GrowthStep past process deed shared after)

include moves

/-- The block an act links was placed by its process before. -/
theorem GrowthStep.linked_cases {block : BlockLoc}
    (among : block ∈ linkedBlocks (past ++ [⟨process, deed⟩])) :
    block ∈ linkedBlocks past ∨ appendPhase process past = .placed block ∧
      (appendPhase process past).advance deed = .idle := by
  rw [linkedBlocks_concat, List.mem_append, Option.mem_toList] at among
  exact among.imp_right (moves.links block)

include growing

/-- A further act leaves the linked blocks apart. -/
theorem Growing.linked_step : GrowthDisjoint (past ++ [⟨process, deed⟩]) := by
  rw [GrowthDisjoint, linkedBlocks_concat, List.pairwise_append]
  refine ⟨growing.linked, ?_, fun one among other new => ?_⟩
  · cases linkedBlock ⟨process, deed⟩ <;> simp
  · exact (growing.pending process other (moves.links other (Option.mem_toList.mp new)).1).2 one among

/-- A further act leaves a placed block in the file, apart from the linked ones. -/
theorem Growing.pending_step {other : ι} {block : BlockLoc}
    (placed : appendPhase other (past ++ [⟨process, deed⟩]) = .placed block) :
    block.Below after.file.length ∧
      ∀ one ∈ linkedBlocks (past ++ [⟨process, deed⟩]), one.Apart block := by
  rw [appendPhase_concat] at placed
  split at placed
  · rename_i same
    subst same
    have old {one : BlockLoc} (among : one ∈ linkedBlocks (past ++ [⟨other, deed⟩])) :
        one ∈ linkedBlocks past := by
      apply (moves.linked_cases among).resolve_right
      rintro ⟨-, idle⟩
      exact Appending.noConfusion (idle.symm.trans placed)
    rcases moves.places block placed with before | ⟨length, inside, behind, below⟩
    · obtain ⟨below, apart⟩ := growing.pending other block before
      exact ⟨below.mono moves.longer, fun one among => apart one (old among)⟩
    · obtain ⟨-, linked, -⟩ := growing.entered other length inside
      exact ⟨below.mono moves.longer, fun one among => (linked one (old among)).apart behind⟩
  · rename_i different
    obtain ⟨below, apart⟩ := growing.pending other block placed
    refine ⟨below.mono moves.longer, fun one among => ?_⟩
    rcases moves.linked_cases among with before | ⟨mine, -⟩
    · exact apart one before
    · exact growing.pendingApart process other one block (Ne.symm different) mine placed

/-- Of two processes with a placed block, one has just placed it behind the other, or none has. -/
theorem Growing.pendingApart_step {one other : ι} {block block' : BlockLoc}
    (different : one ≠ other)
    (placed : appendPhase one (past ++ [⟨process, deed⟩]) = .placed block)
    (placed' : appendPhase other (past ++ [⟨process, deed⟩]) = .placed block') :
    block.Apart block' := by
  -- the process that acts, and one that does not
  have mine {still : ι} {fresh kept : BlockLoc} (apart : still ≠ process)
      (new : (appendPhase process past).advance deed = .placed fresh)
      (old : appendPhase still past = .placed kept) : kept.Apart fresh := by
    rcases moves.places fresh new with before | ⟨length, inside, behind, -⟩
    · exact growing.pendingApart still process kept fresh apart old before
    · exact ((growing.entered process length inside).2.2 still kept old).apart behind
  rw [appendPhase_concat] at placed placed'
  split at placed
  · rename_i same
    rw [if_neg (fun same' => different (same.trans same'.symm))] at placed'
    exact (mine (fun same' => different (same.trans same'.symm)) placed placed').symm
  · rename_i elsewhere
    split at placed'
    · exact mine elsewhere placed' placed
    · exact growing.pendingApart one other block block' different placed placed'

/-- A further act leaves an append at an end that nothing else reaches beyond. -/
theorem Growing.entered_step {other : ι} {length : Nat}
    (inside : appendPhase other (past ++ [⟨process, deed⟩]) = .inside length) :
    length ≤ after.file.length ∧
    (∀ block ∈ linkedBlocks (past ++ [⟨process, deed⟩]), block.Below length) ∧
    ∀ third block, appendPhase third (past ++ [⟨process, deed⟩]) = .placed block →
      block.Below length := by
  rw [appendPhase_concat] at inside
  split at inside
  · rename_i same
    subst same
    have old {block : BlockLoc} (among : block ∈ linkedBlocks (past ++ [⟨other, deed⟩])) :
        block ∈ linkedBlocks past := by
      apply (moves.linked_cases among).resolve_right
      rintro ⟨-, idle⟩
      exact Appending.noConfusion (idle.symm.trans inside)
    have elsewhere {third : ι} {block : BlockLoc}
        (placed : appendPhase third (past ++ [⟨other, deed⟩]) = .placed block) :
        appendPhase third past = .placed block := by
      rw [appendPhase_concat] at placed
      split at placed
      · exact Appending.noConfusion (inside.symm.trans placed)
      · exact placed
    rcases moves.enters length inside with before | ⟨rfl, -⟩
    · obtain ⟨soFar, linked, pending⟩ := growing.entered other length before
      exact ⟨soFar.trans moves.longer, fun block among => linked block (old among),
        fun third block placed => pending third block (elsewhere placed)⟩
    · exact ⟨moves.longer, fun block among => growing.inFile block (old among),
        fun third block placed => (growing.pending third block (elsewhere placed)).1⟩
  · rename_i different
    obtain ⟨soFar, linked, pending⟩ := growing.entered other length inside
    refine ⟨soFar.trans moves.longer, fun block among => ?_, fun third block placed => ?_⟩
    · rcases moves.linked_cases among with before | ⟨mine, -⟩
      · exact linked block before
      · exact pending process block mine
    · rw [appendPhase_concat] at placed
      split at placed
      · rcases moves.places block placed with before | ⟨length', inside', -, -⟩
        · exact pending process block before
        · refine absurd (growing.alone other process ?_ ?_) different
          · rw [inside]
            trivial
          · rw [inside']
            trivial
      · exact pending third block placed

/-- A further act leaves at most one process inside an append. -/
theorem Growing.alone_step {one other : ι}
    (inside : (appendPhase one (past ++ [⟨process, deed⟩])).Inside)
    (inside' : (appendPhase other (past ++ [⟨process, deed⟩])).Inside) : one = other := by
  -- the process that acts, and one that does not
  have mine {still : ι} (new : ((appendPhase process past).advance deed).Inside)
      (old : (appendPhase still past).Inside) : still = process := by
    cases phase : (appendPhase process past).advance deed with
    | idle => exact (phase ▸ new).elim
    | placed block => exact (phase ▸ new).elim
    | inside length =>
      rcases moves.enters length phase with before | ⟨-, nobody⟩
      · apply growing.alone still process old
        rw [before]
        trivial
      · by_contra apart
        exact nobody still apart old
  rw [appendPhase_concat] at inside inside'
  split at inside
  · rename_i same
    split at inside'
    · rename_i same'
      exact same.trans same'.symm
    · exact same.trans (mine inside inside').symm
  · split at inside'
    · rename_i same'
      exact (mine inside' inside).trans same'.symm
    · exact growing.alone one other inside inside'

/-- A further act keeps what holds of the growth. -/
theorem Growing.step : Growing (past ++ [⟨process, deed⟩]) after where
  linked := growing.linked_step moves
  inFile block among := by
    rcases moves.linked_cases among with before | ⟨mine, -⟩
    · exact (growing.inFile block before).mono moves.longer
    · exact (growing.pending process block mine).1.mono moves.longer
  pending _ _ placed := growing.pending_step moves placed
  pendingApart _ _ _ _ different placed placed' :=
    growing.pendingApart_step moves different placed placed'
  entered _ _ inside := growing.entered_step moves inside
  alone _ _ inside inside' := growing.alone_step moves inside inside'

end Step

/-- What the discipline allows, in a run in which appends are entered alone. -/
theorem growthStep_of_allowed {moment : Moment Call Answer (Shared ι)}
    (allowed : (appending process).allowed (appendPhase process past) moment after)
    (alone : AppendsAlone (past ++ [⟨process, .call moment⟩])) :
    GrowthStep past process (.call moment) moment.before after := by
  obtain ⟨longer, -, allows⟩ := allowed
  obtain ⟨before, request, reply⟩ := moment
  have unmoved (same : (appendPhase process past).advance (.call ⟨before, request, reply⟩) =
      appendPhase process past)
        (none : linkedBlock ⟨process, .call ⟨before, request, reply⟩⟩ = none) :
      GrowthStep past process (.call ⟨before, request, reply⟩) before after := by
    refine ⟨longer, fun block found => ?_, fun block placed => ?_, fun length inside => ?_⟩
    · exact absurd (found.symm.trans none) (Option.some_ne_none block)
    · exact .inl (same.symm.trans placed)
    · exact .inl (same.symm.trans inside)
  cases request with
  | note event =>
    cases event with
    | appendEntered =>
      refine ⟨longer, fun _ => nofun, fun _ => nofun, fun length inside => .inr ⟨?_, ?_⟩⟩
      · exact (Appending.inside.inj inside).symm
      · exact Throughout.last alone rfl
    | appendLeft rval block =>
      have ends : (appendPhase process past).advance
          (.call ⟨before, .note (.appendLeft rval block), reply⟩) =
            if rval = .success then .placed block else .idle := rfl
      refine ⟨longer, fun _ => nofun, fun other placed => .inr ?_, fun length inside => ?_⟩
      · rw [ends] at placed
        split at placed
        · rename_i success
          obtain rfl := Appending.placed.inj placed
          exact allows success
        · exact Appending.noConfusion placed
      · rw [ends] at inside
        split at inside
        · exact Appending.noConfusion inside
        · exact Appending.noConfusion inside
    | extended chainEnd rval block =>
      refine ⟨longer, fun other found => ⟨?_, rfl⟩, fun _ => nofun, fun _ => nofun⟩
      have linked : (if rval = .success then some block else none) = some other := found
      split at linked
      · rename_i success
        obtain rfl := Option.some.inj linked
        exact allows success
      · exact nomatch linked
    | _ => exact unmoved rfl rfl
  | _ => exact unmoved rfl rfl

/-- The initial state: nothing is linked and nobody is inside an append. -/
theorem growing_start : Growing [] shared where
  linked := .nil
  inFile _ among := absurd among List.not_mem_nil
  pending _ _ placed := Appending.noConfusion placed
  pendingApart _ _ _ _ _ placed _ := Appending.noConfusion placed
  entered _ _ inside := Appending.noConfusion inside
  alone _ _ inside _ := inside.elim

variable {pool : Pool ι Call Answer Stop (Nat × RndError) (Shared ι)}

/-- However the calls of processes with unbuffered streams interleave, the blocks that are appended
and linked are different and share no byte, if no append is entered inside another one. -/
theorem growthDisjoint_of_alone (outside : ∀ process number handle htable offset,
      (((clients process).calls number).user handle htable offset).Only Call.Quiet)
    (unbuffered : ∀ process, shared.Unbuffered process)
    (interleaves : Interleaves (sharedPosix machine) (fun process => (clients process).again)
      ⟨fun process => (clients process).call 0, shared⟩ past pool)
    (alone : AppendsAlone past) : GrowthDisjoint past := by
  have together := @together_appending ι _ machine clients outside
  have fine : AllFine appending .idle past := by
    intro index within
    have each := (interleaves.unconditional (fun shared => ∀ process, shared.Unbuffered process)
      (fun _ _ _ all _ => sharedPosix_unbuffered all) unbuffered).2 _ (List.getElem_mem within)
    cases deed : past[index].deed with
    | call moment => exact each moment deed _
    | deliver value => trivial
  have holds : AppendsAlone past → Growing past pool.state := by
    refine interleaves.invariant (fun past shared => AppendsAlone past → Growing past shared)
      together ?_ ?_ ?_ ?_ fine
    · exact fun process => keeps_call (outside process)
    · exact fun _ => growing_start
    · intro past shared process request holds _ allowed alone
      exact (holds (Throughout.front alone)).step (growthStep_of_allowed allowed alone)
    · intro past shared process value since holds _ _ alone
      apply (holds (Throughout.front alone)).step
      exact ⟨Nat.le_refl _, fun _ => nofun, fun _ placed => .inl placed, fun _ inside => .inl inside⟩
  exact (holds alone).linked

end Runs

/-! ## Two tables in one file -/

/-- A block of 80 bytes with the header of a table whose last record lies behind it. -/
def tableBlock : List UInt8 :=
  patch (freshFile 80 3) 0 { freshTable 80 3 with thead := ⟨3, 5⟩ }.toBytes

/-- Two such tables in a file, which two processes hold open. -/
def twoTables : Shared Bool where
  file := tableBlock ++ tableBlock
  locks := .empty
  processes _ := { world := { disk := [], unbuffered := true, streams := 1, live := [0] } }

/-- A process that takes record numbers, of the second table or of the first. -/
def taker (second : Bool) : Client where
  handle := freshHandle 0 80 3
  calls _ := { fuel := 5, tableHead := if second then 80 else 0, user := takeNumber }

/-- Two processes on whose streams nothing fails and nothing is read ahead. -/
def calmMachine (_ : Bool) : Machine := .unbuffered (.sound fun _ _ => 0)

/-- The run that a schedule of the two processes gives. -/
def takerRun (turns : List Bool) : List (Act Bool Call Answer (Nat × RndError) (Shared Bool)) :=
  (schedule (sharedPosix calmMachine) (fun process => (taker process).again)
    ⟨fun process => (taker process).call 0, twoTables⟩ turns).1

/-- The first process measures the end of the file, then the second one does, and then both go on. -/
def overlappingTurns : List Bool :=
  List.replicate 14 false ++ List.replicate 14 true ++ List.replicate 25 false ++
    List.replicate 25 true

/-- Both calls succeed, and link the same bytes to both tables. -/
theorem overlapping_growth : ∃ past pool,
    Interleaves (sharedPosix calmMachine) (fun process => (taker process).again)
      ⟨fun process => (taker process).call 0, twoTables⟩ past pool ∧
    linkedBlocks past = [⟨160, 80⟩, ⟨160, 80⟩] ∧ ¬ GrowthDisjoint past := by
  refine ⟨_, _, interleaves_schedule _ overlappingTurns, ?_⟩
  decide +kernel

/-- One call behind the other. -/
def consecutiveTurns : List Bool := List.replicate 39 false ++ List.replicate 39 true

/-- One after the other, the two processes append different blocks. -/
theorem consecutive_growth : linkedBlocks (takerRun consecutiveTurns) = [⟨160, 80⟩, ⟨240, 80⟩] ∧
    GrowthDisjoint (takerRun consecutiveTurns) := by
  have outside (process : Bool) (number : Nat) (handle : Rndh) (htable : RndHeadTable)
      (offset : OffT) :
      (((taker process).calls number).user handle htable offset).Only Call.Quiet := trivial
  have unbuffered (process : Bool) : twoTables.Unbuffered process := ⟨rfl, rfl⟩
  have alone : AppendsAlone (takerRun consecutiveTurns) := by decide +kernel
  constructor
  · decide +kernel
  · exact growthDisjoint_of_alone outside unbuffered (interleaves_schedule _ _) alone

end Recnodb
