import Recnodb.Creation
import Recnodb.NewHeads
import Recnodb.Outcomes

/-!
# The caller's view of a failed append

A failed append must leave its caller where it was: an error code, the definition as
it was given, every old byte of the file, and the stream at its old position. The
position is saved at the start and restored at the end, but whether it was saved is
read off its value, so a stream that stood at the start of the file counts as not
saved. Then nothing is restored when a measurement fails; only the second of the
two failing steps has moved the stream by then.
-/

namespace Recnodb

open Interaction Octets Program

variable {platform : Platform} {world : World} {handle : Rndh} {bdef : RndBlockDef}
variable {old head : List UInt8} {length : Nat}

/-! ## Old bytes -/

/-- A write from the old end on keeps the old bytes. -/
theorem prefix_patch {file : List UInt8} (kept : old <+: file) {start : Nat}
    (behind : old.length ≤ start) (written : List UInt8) : old <+: patch file start written := by
  by_cases empty : written = []
  · rw [empty, patch_nil]
    exact kept
  have front : old <+: file.take start := by
    refine List.prefix_of_prefix_length_le kept (List.take_prefix start file) ?_
    rw [List.length_take]
    exact Nat.le_min.mpr ⟨behind, kept.length_le⟩
  rw [patch, if_neg empty, List.append_assoc, List.append_assoc]
  exact front.trans (List.prefix_append _ _)

/-- Behind the old bytes there is nothing but zeros and bytes of a header that begins there. -/
structure Sprouts (old head file : List UInt8) : Prop where
  kept : old <+: file
  fresh : ∀ index byte, file[old.length + index]? = some byte → byte = 0 ∨ head[index]? = some byte

/-- A write of such bytes. -/
structure Sprouting (old head : List UInt8) (write : Write) : Prop where
  behind : old.length ≤ write.position
  fresh : ∀ index byte, write.bytes[index]? = some byte →
    byte = 0 ∨ head[write.position - old.length + index]? = some byte

/-- The old bytes alone. -/
theorem Sprouts.refl (old head : List UInt8) : Sprouts old head old := by
  refine ⟨List.prefix_rfl, fun index byte there => ?_⟩
  rw [List.getElem?_eq_none (Nat.le_add_right _ _)] at there
  exact absurd there.symm (Option.some_ne_none byte)

/-- A byte of zero behind the old bytes. -/
theorem Sprouting.zero {position : Nat} (behind : old.length ≤ position) :
    Sprouting old head ⟨position, [0]⟩ := by
  refine ⟨behind, fun index byte there => .inl ?_⟩
  exact List.mem_singleton.mp (List.mem_of_getElem? there)

/-- A front part of such a write is one. -/
theorem Sprouting.part {write : Write} (sprouting : Sprouting old head write) (count : Nat) :
    Sprouting old head { write with bytes := write.bytes.take count } := by
  refine ⟨sprouting.behind, fun index byte there => sprouting.fresh index byte ?_⟩
  rw [List.getElem?_take] at there
  split at there
  · exact there
  · exact absurd there.symm (Option.some_ne_none byte)

/-- One such write more. -/
theorem Sprouts.patch {file : List UInt8} {write : Write} (sprouts : Sprouts old head file)
    (sprouting : Sprouting old head write) :
    Sprouts old head (patch file write.position write.bytes) := by
  have behind := sprouting.behind
  refine ⟨prefix_patch sprouts.kept behind _, fun index byte there => ?_⟩
  by_cases empty : write.bytes = []
  · rw [empty, patch_nil] at there
    exact sprouts.fresh index byte there
  · rw [patch_getElem? _ _ _ empty] at there
    split_ifs at there with inside short gap
    · have fresh := sprouting.fresh _ byte there
      rwa [show write.position - old.length + (old.length + index - write.position) = index by omega]
        at fresh
    · exact sprouts.fresh index byte there
    · exact .inl (Option.some.inj there).symm

/-- Such writes in a row. -/
theorem Sprouts.puts {file : List UInt8} {writes : List Write} (sprouts : Sprouts old head file)
    (each : ∀ write ∈ writes, Sprouting old head write) : Sprouts old head (puts writes file) := by
  induction writes generalizing file with
  | nil => exact sprouts
  | cons write rest ih =>
    exact ih (sprouts.patch (each write List.mem_cons_self))
      fun later among => each later (List.mem_cons_of_mem _ among)

/-- So it is on the disk, and what the stream holds leaves it so. -/
structure Retains (old head : List UInt8) (world : World) : Prop where
  disk : Sprouts old head world.disk
  held : ∀ write ∈ world.held, Sprouting old head write

/-- Where the stream holds nothing. -/
theorem Retains.of_empty (empty : world.held = []) (sprouts : Sprouts old head world.disk) :
    Retains old head world := by
  refine ⟨sprouts, fun write among => ?_⟩
  rw [empty] at among
  cases among

/-- Whatever is lost, the old bytes are kept. -/
theorem Retains.reached (retains : Retains old head world) (lost : Option Nat) :
    Sprouts old head (world.reached lost) := by
  cases lost with
  | none => exact retains.disk.puts retains.held
  | some count =>
    refine retains.disk.puts fun write among => ?_
    obtain ⟨whole, there, part, rfl⟩ := frontWrites_part among
    exact (retains.held whole there).part part

/-- The stream knows the old bytes. -/
theorem Retains.file (retains : Retains old head world) : Sprouts old head world.file :=
  retains.reached none

/-- They are kept when the stream passes on what it holds, or loses it. -/
theorem Retains.drained {after : World} (retains : Retains old head world)
    (drained : Drained world after) : Retains old head after := by
  obtain ⟨empty, lost, disk⟩ := drained
  exact .of_empty empty (disk ▸ retains.reached lost)

/-- They are kept where the stream is left alone. -/
theorem Retains.unmoved {after : World} (retains : Retains old head world)
    (unmoved : Unmoved world after) : Retains old head after :=
  ⟨unmoved.disk ▸ retains.disk, fun write among => retains.held write (unmoved.held ▸ among)⟩

/-- A write behind the old bytes keeps them, whether the stream takes it or not. -/
theorem Retains.write {after : World} {bytes : List UInt8} {reply : Bool}
    (retains : Retains old head world) (wrote : AfterWrite world bytes reply after)
    (sprouting : Sprouting old head ⟨world.position, bytes⟩) : Retains old head after := by
  have passed (empty : after.held = []) : Retains old head after := by
    obtain ⟨lost, count, part⟩ := wrote.part
    rw [World.file_of_empty empty] at part
    exact .of_empty empty (part ▸ (retains.reached lost).patch (sprouting.part count))
  cases reply with
  | true =>
    rcases (wrote.whole rfl).2 with ⟨disk, held⟩ | empty
    · refine ⟨disk ▸ retains.disk, fun write among => ?_⟩
      rw [held] at among
      rcases List.mem_append.mp among with earlier | last
      · exact retains.held write earlier
      · obtain rfl := List.mem_singleton.mp last
        exact sprouting
    · exact passed empty
  | false =>
    rcases wrote.refused rfl with ⟨disk, held⟩ | empty
    · exact ⟨disk ▸ retains.disk, fun write among => retains.held write (held ▸ among)⟩
    · exact passed empty

/-! ## Failures that show in the answer -/

/-- The old bytes are kept, a call that failed shows in the answer, and behind a success the disk
has some length. A program that stops has met no failure. -/
def Reported (old head : List UInt8) (length : Nat) (outcome : Except Stop RndError)
    (past : List (Moment Call Answer World)) (after : World) : Prop :=
  Retains old head after ∧ match outcome with
    | .ok code => (someFailed past = true → code ≠ .success) ∧
        (code = .success → length ≤ after.disk.length)
    | .error _ => someFailed past = false

/-- An error code reports whatever failed. -/
theorem Reported.of_error {code : RndError} (bad : code ≠ .success) {after : World}
    (kept : Retains old head after) (past : List (Moment Call Answer World)) :
    Reported old head length (.ok code) past after :=
  ⟨kept, fun _ => bad, fun success => absurd success bad⟩

/-- Calls that did not fail need no report. -/
theorem Reported.behind {outcome : Except Stop RndError} {after : World}
    {first past : List (Moment Call Answer World)} (calm : someFailed first = false)
    (reported : Reported old head length outcome past after) :
    Reported old head length outcome (first ++ past) after := by
  refine ⟨reported.1, ?_⟩
  have rest := reported.2
  cases outcome with
  | ok code =>
    refine ⟨fun failed => rest.1 ?_, rest.2⟩
    rwa [someFailed_append, calm, Bool.false_or] at failed
  | error reason =>
    change someFailed past = false at rest
    change someFailed (first ++ past) = false
    rw [someFailed_append, calm, rest]
    rfl

/-- The error branch behind a failed call, whatever was called before it. -/
theorem reported_error (kept : Retains old head world)
    (earlier : List (Moment Call Answer World) → List (Moment Call Answer World)) :
    Ends (posix platform) world (keepErrno >>= fun _ => pure .systemError)
      fun outcome past after => Reported old head length outcome (earlier past) after := by
  refine ends_aside trivial fun _ after unmoved _ => ends_ret ?_
  exact Reported.of_error RndError.noConfusion (kept.unmoved unmoved) _

/-- Where the last byte of a block at the end of the file is sought. -/
theorem AfterSeek.at_end_of_block {after : World}
    (sought : AfterSeek world (bdef.blockSize.toUInt64 - 1).toInt64.toInt .seekEnd true after) :
    after.position = world.file.length + bdef.blockSize.toNat - 1 := by
  have place : (after.position : OffT) =
      world.file.length + (bdef.blockSize.toUInt64 - 1).toInt64.toInt := sought.found rfl
  rw [← endByte, ← place]
  exact (Int.toNat_natCast _).symm

/-- The end of a block is written, or the failure shows. A location that could not be
measured is `-1`; it cannot be sought, so that failure shows as well. -/
theorem writeEndOfBlock_reports (kept : Retains old head world) (some : 0 < bdef.blockSize.toNat)
    {location : OffT} {earlier : List (Moment Call Answer World)}
    (measured : someFailed earlier = true → location = -1) :
    Ends (posix platform) world (writeEndOfBlock bdef.blockSize.toUInt64 location)
      fun outcome past after => Reported old head (old.length + bdef.blockSize.toNat) outcome
        (earlier ++ past) after := by
  refine ends_fseek fun reply sought seek _ => ?_
  have first : Retains old head sought := kept.drained seek.drained
  cases reply with
  | false => exact reported_error first _
  | true =>
    have place := seek.at_end_of_block
    have long := kept.file.kept.length_le
    refine ends_fwrite fun reply wrote write _ => ?_
    have second : Retains old head wrote := first.write write (.zero (by omega))
    cases reply with
    | false => exact reported_error second _
    | true =>
      refine ends_fseek fun reply back seek' _ => ?_
      have third : Retains old head back := second.drained seek'.drained
      cases reply with
      | false => exact reported_error third _
      | true =>
        have location : (back.position : OffT) = location := seek'.found rfl
        refine ends_ret ⟨third, fun failed => ?_, fun _ => ?_⟩
        · have early : someFailed earlier = true := by
            simpa [failedCall] using failed
          rw [measured early] at location
          exact absurd location (position_known _)
        · rw [← World.file_of_empty seek'.drained.held, seek'.file rfl, write.file,
            patch_length _ _ _ (List.cons_ne_nil 0 []), place]
          exact le_max_of_le_right (by simp only [List.length_singleton]; omega)

/-- An extension of the file reports its failures. -/
theorem blocksExtendFile_reports (valid : blocksValidateHandle (some handle) = .success)
    (kept : Retains old head world) (some : 0 < bdef.blockSize.toNat) :
    Ends (posix platform) world (blocksExtendFile handle bdef.blockSize.toUInt64)
      (Reported old head (old.length + bdef.blockSize.toNat)) := by
  refine ends_assert (by simp [valid]) (ends_aside trivial fun _ primed unmoved _ => ?_)
  refine ends_fseek fun reply sought seek _ => ?_
  have first : Retains old head sought := (kept.unmoved unmoved).drained seek.drained
  cases reply with
  | false => exact reported_error first _
  | true =>
    refine ends_ftell fun reply measured tell _ => ?_
    have second : Retains old head measured := first.unmoved tell.unmoved
    by_cases placed : blocksValidateNewBlockLocation handle reply = true
    · rw [if_pos placed]
      exact @writeEndOfBlock_reports _ _ _ _ _ second some _ [_, _, _] fun failed => by
        simpa [failedCall] using failed
    · rw [if_neg placed]
      exact ends_ret (Reported.of_error RndError.noConfusion second _)

/-- A header that its buffer covers is written behind the old end, or the failure shows. -/
theorem blocksWriteBlockHead_reports (kept : Retains old head world)
    (long : length ≤ world.disk.length)
    {position infoLen : Nat} {block : List UInt8} (sprouting : Sprouting old head ⟨position, block⟩)
    (covered : (if (blocksBytesToData (InfoBlock.ofBytes block).blockType).toNat <
      infoLen then infoLen
      else (blocksBytesToData (InfoBlock.ofBytes block).blockType).toNat) ≤ block.length) :
    Ends (posix platform) world (blocksWriteBlockHead position block infoLen)
      (Reported old head length) := by
  refine ends_fseek fun reply sought seek _ => ?_
  have first : Retains old head sought := kept.drained seek.drained
  cases reply with
  | false => exact reported_error first _
  | true =>
    have place : sought.position = position := Int.natCast_inj.mp (seek.found rfl)
    dsimp only
    rw [bufferBytes, if_pos covered]
    refine ends_fwrite fun reply wrote write _ => ?_
    have second : Retains old head wrote := first.write write (place ▸ sprouting.part _)
    cases reply with
    | false => exact reported_error second _
    | true =>
      refine ends_ret ⟨second, fun failed => absurd failed Bool.false_ne_true, fun _ => ?_⟩
      exact (long.trans seek.drained.longer).trans write.longer

/-- The write of a new header reports its failures. -/
theorem writeNewHead_reports (kept : Retains old (headBuffer bdef) world)
    (long : length ≤ world.disk.length) :
    Ends (posix platform) world (writeNewHead old.length bdef)
      (Reported old (headBuffer bdef) length) := by
  by_cases preparable : bdef.Preparable
  · rw [writeNewHead, blocksSetInfoBlockStruct_prepared preparable, ret_bind]
    refine blocksWriteBlockHead_reports kept long ⟨Nat.le_refl _, fun index byte there => .inr ?_⟩ ?_
    · rwa [Nat.sub_self, Nat.zero_add]
    rw [ofBytes_headBuffer, newInfoBlock, if_neg (Nat.lt_irrefl _)]
    exact headSize_le_buffer
  · rw [writeNewHead, blocksSetInfoBlockStruct_refused preparable, stop_bind]
    exact ⟨kept, rfl⟩

/-! ## The ways an append can end -/

/-- The stream stood at the start of a file with something in it, and the length could
not be told after the stream was moved to the end. -/
def EndUnmeasured (platform : Platform) (world : World) : Prop :=
  world.position = 0 ∧ world.file ≠ [] ∧ world.file.length ≤ offMax ∧
    platform.faults (world.clock + 1) = none ∧ platform.faults (world.clock + 2) ≠ none

/-- What an append that answers leaves, whatever fails and whatever is lost: a stream that holds
nothing, and behind a success the block. Where the stream held nothing, the old bytes are kept. -/
structure AppendAnswers (world : World) (bdef : RndBlockDef) (result : RndError × RndBlockDef)
    (after : World) : Prop where
  held : after.held = []
  sprouts : world.held = [] → Sprouts world.file (headBuffer bdef) after.file
  whole : result.1 = .success → result.2 = bdef.placed world.file ∧ world.file <+: after.file ∧
    world.file.length ≤ offMax
  longer : result.1 = .success → world.file.length + bdef.blockSize.toNat ≤ after.file.length

/-- An error behind which the file is as it was. -/
theorem AppendAnswers.failed {after : World} {result : RndError × RndBlockDef}
    (bad : result.1 ≠ .success) (same : SameFile world after) (held : after.held = []) :
    AppendAnswers world bdef result after := by
  refine ⟨held, fun empty => ?_, fun success => absurd success bad, fun success => absurd success bad⟩
  rw [same.file empty]
  exact .refl _ _

/-- What an append whose position was saved leaves: the calls in front of the restoring
seek, and the stream where that seek leaves it. -/
structure Restored (platform : Platform) (world : World) (bdef : RndBlockDef)
    (result : RndError × RndBlockDef) (front : List (Moment Call Answer World)) (reply : Bool)
    (after : World) : Prop extends AppendAnswers world bdef result after where
  kept : ∃ lost, world.reached lost <+: after.file
  shows : someFailed front = true → result.1 ≠ .success
  same : result.1 ≠ .success → result.2 = bdef
  back : reply = true → after.position = world.position
  measured : ¬ EndUnmeasured platform world

/-- How an append ends, when its first measurement succeeds. -/
inductive AppendEnds (platform : Platform) (world : World) (bdef : RndBlockDef) :
    Except Stop (RndError × RndBlockDef) → List (Moment Call Answer World) → World → Prop where
  | stopped {reason : Stop} {past : List (Moment Call Answer World)} {after : World}
      (calm : someFailed past = false) : AppendEnds platform world bdef (.error reason) past after
  | restored {result : RndError × RndBlockDef} {front : List (Moment Call Answer World)}
      {before after : World} {reply : Bool}
      (left : Restored platform world bdef result front reply after) :
      AppendEnds platform world bdef (.ok result)
        (front ++ [⟨before, .fseek world.position .seekSet, reply⟩]) after
  | unsaved {front : List (Moment Call Answer World)} {before after : World}
      (start : world.position = 0) (same : SameFile world after) (held : after.held = [])
      (back : after.position = 0 ↔ ¬ EndUnmeasured platform world) :
      AppendEnds platform world bdef (.ok (.systemError, bdef))
        (front ++ [⟨before, .keepErrno, ()⟩]) after

/-- A failed measurement is answered with the position restored, if it counts as saved. -/
theorem unmeasured_ends {here : World} {front : List (Moment Call Answer World)}
    (same : SameFile world here) (empty : here.held = [])
    (back : world.position = 0 → (here.position = 0 ↔ ¬ EndUnmeasured platform world)) :
    Ends (posix platform) here (do
      keepErrno
      if (world.position : OffT) ≠ 0 then
        let _ ← fseek world.position .seekSet
      pure (.systemError, bdef) : Prog (RndError × RndBlockDef))
      fun outcome past after => AppendEnds platform world bdef outcome (front ++ past) after := by
  refine ends_aside trivial fun _ kept unmoved _ => ?_
  by_cases start : world.position = 0
  · rw [if_neg (by simp [start])]
    refine ends_ret (.unsaved start (same.trans empty unmoved.same) (unmoved.held.trans empty) ?_)
    rw [unmoved.position]
    exact back start
  · rw [if_pos (by simpa using start)]
    refine ends_fseek fun reply sought seek _ => ends_ret ?_
    have split : front ++ [⟨here, .keepErrno, ()⟩, ⟨kept, .fseek world.position .seekSet, reply⟩] =
        (front ++ [⟨here, .keepErrno, ()⟩]) ++ [⟨kept, .fseek world.position .seekSet, reply⟩] := by
      simp
    rw [split]
    have still : SameFile world sought := same.trans empty (seek.drained.same.behind unmoved)
    refine .restored ⟨.failed RndError.noConfusion still seek.drained.held, ?_,
      fun _ => RndError.noConfusion, fun _ => rfl, fun found => ?_, fun lost => start lost.1⟩
    · obtain ⟨lost, left⟩ := still
      exact ⟨lost, left ▸ List.prefix_rfl⟩
    · exact Int.natCast_inj.mp (seek.found found)

/-- The restoring seek behind the growth of the file. -/
theorem restored_ends {here : World} {rval : RndError} {front past : List (Moment Call Answer World)}
    (calm : someFailed front = false) (measured : ¬ EndUnmeasured platform world)
    (bounded : world.file.length ≤ offMax) (reported : Reported world.file (headBuffer bdef)
      (world.file.length + bdef.blockSize.toNat) (.ok rval) past here) :
    Ends (posix platform) here (do
      let _ ← fseek world.position .seekSet
      if rval = .success then
        pure (.success, { bdef with
          newBlock := ⟨world.file.length, bdef.blockSize.toUInt64.toNat⟩ })
      else pure (rval, bdef))
      fun outcome later after =>
        AppendEnds platform world bdef outcome (front ++ (past ++ later)) after := by
  obtain ⟨retains, shows, long⟩ := reported
  refine ends_fseek fun reply sought seek _ => ?_
  have sprouts := (retains.drained seek.drained).file
  have later : world.file <+: sought.file := sprouts.kept
  have failure : someFailed (front ++ past) = true → rval ≠ .success := by
    rw [someFailed_append, calm, Bool.false_or]
    exact shows
  have back : reply = true → sought.position = world.position := fun found =>
    Int.natCast_inj.mp (seek.found found)
  by_cases success : rval = .success
  · rw [if_pos success]
    refine ends_ret ?_
    have longer : world.file.length + bdef.blockSize.toNat ≤ sought.file.length := by
      rw [World.file_of_empty seek.drained.held]
      exact (long success).trans seek.drained.longer
    rw [← List.append_assoc]
    exact .restored ⟨⟨seek.drained.held, fun _ => sprouts, fun _ => ⟨rfl, later, bounded⟩,
      fun _ => longer⟩, ⟨none, later⟩, fun failed => absurd success (failure failed),
      fun bad => absurd rfl bad, back, measured⟩
  · rw [if_neg success]
    refine ends_ret ?_
    rw [← List.append_assoc]
    exact .restored ⟨⟨seek.drained.held, fun _ => sprouts, fun done => absurd done success,
      fun done => absurd done success⟩, ⟨none, later⟩, fun _ => success, fun _ => rfl, back, measured⟩

/-- The measurements at the start, when the first one succeeds: the length is told, or
the failure has moved the stream at most to the end. -/
theorem measureEnd_ends (told : platform.faults world.clock = none) :
    Ends (posix platform) world measureEnd fun outcome past after =>
      ∃ place, outcome = .ok ((world.position : OffT), place) ∧ after.held = [] ∧
        ((place = -1 ∧ SameFile world after ∧
            (world.position = 0 → (after.position = 0 ↔ ¬ EndUnmeasured platform world))) ∨
          (place = (world.file.length : OffT) ∧ after.file = world.file ∧ someFailed past = false ∧
            ¬ EndUnmeasured platform world ∧ world.file.length ≤ offMax)) := by
  refine ends_ftell fun reply first tell answered => ?_
  obtain rfl : reply = world.position := by
    have sound := posix_ftell_sound told
    rw [answered] at sound
    exact sound
  rw [if_neg (position_known world.position)]
  refine ends_fseek fun reply sought seek answered => ?_
  have found := @posix_fseek_end platform first
  rw [answered, tell.clock, tell.unmoved.file] at found
  cases reply with
  | false =>
    refine ends_ret ⟨-1, rfl, seek.drained.held,
      .inl ⟨rfl, seek.drained.same.behind tell.unmoved, fun start => ?_⟩⟩
    rw [seek.lost rfl, tell.unmoved.position]
    refine iff_of_true start fun unmeasured => ?_
    exact Bool.false_ne_true (found.mpr ⟨unmeasured.2.2.2.1, unmeasured.2.2.1⟩)
  | true =>
    obtain ⟨unfailed, bounded⟩ := found.mp rfl
    rw [if_pos rfl]
    refine ends_ftell fun reply second tell' answered => ends_ret ?_
    have stands : (sought.position : OffT) = world.file.length := by
      rw [seek.found rfl, World.target, tell.unmoved.file]
      exact Int.add_zero _
    have lost := @posix_ftell_failed platform sought
    rw [answered, seek.clock, tell.clock] at lost
    have file : second.file = world.file := by
      rw [tell'.unmoved.file, seek.file rfl, tell.unmoved.file]
    refine ⟨reply, rfl, tell'.unmoved.held.trans seek.drained.held, ?_⟩
    by_cases unknown : reply = -1
    · refine .inl ⟨unknown, .of_eq file, fun start => ?_⟩
      rw [tell'.unmoved.position, Int.natCast_inj.mp stands, List.length_eq_zero_iff]
      constructor
      · exact fun empty unmeasured => unmeasured.2.1 empty
      · intro measured
        by_contra full
        exact measured ⟨start, full, bounded, unfailed, lost.mp unknown⟩
    · refine .inr ⟨?_, file, ?_, fun unmeasured => unknown (lost.mpr unmeasured.2.2.2.2), bounded⟩
      · rw [← stands]
        exact tell'.reply.resolve_right unknown
      · simp [failedCall, unknown, position_known]

/-- The body of an append ends in one of these ways, if its first measurement succeeds. -/
theorem appendBlock_ends (valid : blocksValidateHandle (some handle) = .success)
    (some : 0 < bdef.blockSize.toNat) (told : platform.faults world.clock = none) :
    Ends (posix platform) world (appendBlock handle bdef) (AppendEnds platform world bdef) := by
  refine ends_assert (by simp [valid]) (ends_primeHandle ?_)
  refine Ends.bind (@measureEnd_ends _ { world with sysErrno := 0 } told) ?_ ?_
  · rintro _ past between ⟨place, same, empty, unknown | known⟩
    · obtain ⟨rfl, kept, back⟩ := unknown
      obtain rfl := Except.ok.inj same
      exact @unmeasured_ends _ _ _ _ (_ :: past) kept empty back
    · obtain ⟨rfl, file, calm, measured, bounded⟩ := known
      obtain rfl := Except.ok.inj same
      dsimp only
      rw [if_neg (position_known _)]
      have quiet : someFailed (⟨world, .primeHandle, ()⟩ :: past) = false := calm
      have kept : Retains world.file (headBuffer bdef) between := by
        rw [World.file_of_empty empty] at file
        exact .of_empty empty (file ▸ .refl _ _)
      have back (rval : RndError) (here : World) (retains : List (Moment Call Answer World))
          (reported : Reported world.file (headBuffer bdef)
            (world.file.length + bdef.blockSize.toNat) (.ok rval) retains here) :=
        @restored_ends _ world bdef _ rval _ retains quiet measured bounded reported
      refine Ends.bind (blocksExtendFile_reports valid kept some) ?_ ?_
      · rintro rval retains here ⟨first, shows, long⟩
        by_cases success : rval = .success
        · subst success
          have sound : someFailed retains = false :=
            Bool.eq_false_iff.mpr fun failed => shows failed rfl
          refine Ends.bind (writeNewHead_reports first (long rfl)) ?_ ?_
          · intro code written final reported
            refine (back code final _ (reported.behind sound)).mono fun _ later _ ends => ?_
            rw [List.append_assoc] at ends
            exact ends
          · rintro reason written final ⟨-, stopped⟩
            refine .stopped ?_
            rw [← List.cons_append, someFailed_append, someFailed_append, quiet, sound]
            exact stopped
        · have answer := back rval here retains ⟨first, shows, long⟩
          cases rval with
          | success => exact absurd rfl success
          | _ => exact answer
      · rintro reason retains after ⟨-, stopped⟩
        refine .stopped ?_
        rw [← List.cons_append, someFailed_append, quiet]
        exact stopped
  · rintro reason past after ⟨place, impossible, -⟩
    cases impossible

/-- An append whose first measurement fails is a run with a failure, and writes nothing. -/
theorem untold_ends (valid : blocksValidateHandle (some handle) = .success)
    (untold : platform.faults world.clock ≠ none) :
    Ends (posix platform) world (blocksAppendBlock handle bdef) fun outcome past after =>
      outcome = .ok (.systemError, bdef) ∧ someFailed past = true ∧ SameFile world after ∧
        after.held = [] := by
  have measured : Ends (posix platform) { world with sysErrno := 0 } measureEnd
      fun outcome past after => outcome = .ok (-1, -1) ∧ someFailed past = true ∧
        Unmoved world after := by
    apply ends_ftell
    intro reply after told answered
    have lost := (@posix_ftell_failed platform { world with sysErrno := 0 }).mpr untold
    rw [answered] at lost
    obtain rfl : reply = -1 := lost
    rw [if_pos rfl]
    exact ⟨rfl, rfl, told.unmoved.disk, told.unmoved.held, told.unmoved.position⟩
  have body : Ends (posix platform) world (appendBlock handle bdef) fun outcome past after =>
      outcome = .ok (.systemError, bdef) ∧ someFailed past = true ∧ SameFile world after ∧
        after.held = [] := by
    refine ends_assert (by simp [valid]) (ends_primeHandle (Ends.bind measured ?_ ?_))
    · rintro ends past between ⟨same, failed, unmoved⟩
      obtain rfl := Except.ok.inj same
      dsimp only
      rw [if_pos rfl]
      refine Ends.call posix_keepErrno ?_
      apply ends_fseek
      intro reply after sought _
      refine ⟨rfl, ?_, sought.drained.same.behind ⟨unmoved.disk, unmoved.held, unmoved.position⟩,
        sought.drained.held⟩
      rw [someFailed_cons, someFailed_append, failed, Bool.true_or, Bool.or_true]
    · rintro reason past after ⟨same, -⟩
      cases same
  refine ends_note (Ends.bind body ?_ ?_)
  · rintro ⟨rval, made⟩ past between ⟨same, failed, file⟩
    obtain ⟨rfl, rfl⟩ := Prod.mk.inj (Except.ok.inj same)
    refine ends_note ⟨rfl, ?_, file⟩
    rw [someFailed_cons, someFailed_append, failed, Bool.true_or, Bool.or_true]
  · rintro reason past after ⟨same, -⟩
    cases same

/-- An append of a handle that does not pass its validation stops. -/
theorem blocksAppendBlock_invalid (invalid : blocksValidateHandle (some handle) ≠ .success) :
    (run (posix platform) (blocksAppendBlock handle bdef) world).1 = .error .assertion := by
  have refused : (blocksValidateHandle (some handle) == .success) = false :=
    beq_eq_false_iff_ne.mpr invalid
  rw [blocksAppendBlock, note, run_bind_ok _ (run_issue (posix_note _)), appendBlock, refused]
  rfl

/-- Whatever fails and whatever is lost, this is what an append that answers leaves. -/
theorem appendAnswers_of_run (some : 0 < bdef.blockSize.toNat)
    {result : RndError × RndBlockDef} {after : World}
    (completed : run (posix platform) (blocksAppendBlock handle bdef) world = (.ok result, after)) :
    AppendAnswers world bdef result after := by
  by_cases valid : blocksValidateHandle (Option.some handle) = .success
  · have ends : Ends (posix platform) world (blocksAppendBlock handle bdef) fun outcome _ after =>
        ∀ result, outcome = .ok result → AppendAnswers world bdef result after := by
      by_cases told : platform.faults world.clock = none
      · refine ends_note (Ends.bind (appendBlock_ends valid some told) ?_ ?_)
        · rintro ⟨rval, made⟩ past between ends
          refine ends_note (ends_ret ?_)
          rintro _ ⟨⟩
          cases ends with
          | restored left => exact left.toAppendAnswers
          | unsaved start same held => exact .failed RndError.noConfusion same held
        · rintro reason past after _ result ⟨⟩
      · refine Ends.mono (untold_ends valid told) ?_
        rintro outcome past after ⟨rfl, -, same, held⟩ result ⟨⟩
        exact .failed RndError.noConfusion same held
    unfold Ends at ends
    rw [completed] at ends
    exact ends result rfl
  · have stopped := @blocksAppendBlock_invalid platform world handle bdef valid
    rw [completed] at stopped
    cases stopped

/-! ## The caller's view -/

/-- What a failed append is to leave: an error code, the definition without a new block,
the old bytes, but for what the stream held and a failing seek lost, and the stream where it
stood. -/
def ViewRestored (world : World) (bdef : RndBlockDef) (outcome : Except Stop (RndError × RndBlockDef))
    (after : World) : Prop :=
  ∃ code made, outcome = .ok (code, made) ∧ code ≠ .success ∧ made.newBlock = bdef.newBlock ∧
    (∃ lost, world.reached lost <+: after.file) ∧ after.position = world.position

/-- The restoring seek fails: the last call in front of the note of the return. -/
def RestoringFails (position : Nat) (past : List (Moment Call Answer World)) : Prop :=
  ∃ state, past.dropLast.getLast? = some ⟨state, .fseek position .seekSet, false⟩

/-- Behind the entry, the last call but the note of the return. -/
theorem last_call {entry last leave : Moment Call Answer World}
    (front : List (Moment Call Answer World)) :
    (entry :: ((front ++ [last]) ++ [leave])).dropLast.getLast? = some last := by
  rw [← List.cons_append, List.dropLast_concat, ← List.cons_append, List.getLast?_concat]

/-- An append in which some call other than the first measurement and the restoring seek
fails restores the caller's view if and only if it does not lose the start of the file. -/
theorem viewRestored_iff_endMeasured (valid : blocksValidateHandle (some handle) = .success)
    (large : (blocksBytesToData bdef.blockType.code).toNat ≤ bdef.blockSize.toNat)
    (told : platform.faults world.clock = none)
    (failed : someFailed (log (posix platform) (blocksAppendBlock handle bdef) world) = true)
    (restoring : ¬ RestoringFails world.position
      (log (posix platform) (blocksAppendBlock handle bdef) world)) :
    ViewRestored world bdef (run (posix platform) (blocksAppendBlock handle bdef) world).1
        (run (posix platform) (blocksAppendBlock handle bdef) world).2 ↔
      ¬ EndUnmeasured platform world := by
  have positive : 0 < bdef.blockSize.toNat :=
    Nat.lt_of_lt_of_le (by decide) ((headSize_ge _).trans large)
  have ended : Ends (posix platform) world (blocksAppendBlock handle bdef)
      fun outcome past after => someFailed past = true → ¬ RestoringFails world.position past →
        (ViewRestored world bdef outcome after ↔ ¬ EndUnmeasured platform world) := by
    refine ends_note (Ends.bind (appendBlock_ends valid positive told) ?_ ?_)
    · rintro ⟨code, made⟩ past between ends
      refine ends_note (ends_ret ?_)
      intro failed restoring
      cases ends with
      | @restored _ front before _ reply left =>
        cases reply with
        | false => exact absurd ⟨before, last_call front⟩ restoring
        | true =>
          have bad : code ≠ .success := left.shows (by simpa [failedCall] using failed)
          refine iff_of_true ⟨code, made, rfl, bad, ?_, left.kept, left.back rfl⟩ left.measured
          exact congrArg RndBlockDef.newBlock (left.same bad)
      | unsaved start same held back =>
        rw [← back]
        constructor
        · rintro ⟨_, _, -, -, -, -, position⟩
          rw [position, start]
        · intro here
          obtain ⟨lost, left⟩ := same
          refine ⟨_, _, rfl, RndError.noConfusion, rfl, ⟨lost, left ▸ List.prefix_rfl⟩, ?_⟩
          rw [here, start]
    · rintro reason past after ends failed
      cases ends with
      | stopped calm =>
        rw [someFailed_cons, calm] at failed
        exact absurd failed Bool.false_ne_true
  exact ended failed restoring

/-! ## A stream at the start of a new file -/

/-- A platform on which one call fails with an input error. -/
def failingAt (time : Nat) : Platform where
  faults := fun now => if now = time then some { errno := 5 } else none
  memory := fun _ _ => 0

/-- A block of one chunk of a new file. -/
def oneChunk : RndBlockDef := { blockType := .data, blockSize := 80 }

/-- The seek to the end fails, and the stream stays at the start. -/
theorem viewRestored_iff_endMeasured_seek :
    ViewRestored (freshWorld 80 3) oneChunk
      (run (posix (failingAt 1)) (blocksAppendBlock (freshHandle 0 80 3) oneChunk)
        (freshWorld 80 3)).1
      (run (posix (failingAt 1)) (blocksAppendBlock (freshHandle 0 80 3) oneChunk)
        (freshWorld 80 3)).2 := by
  refine (viewRestored_iff_endMeasured (by decide) (by decide) rfl (by decide +kernel) ?_).mpr ?_
  · rintro ⟨state, last⟩
    have request : Option.map Moment.request _ = some (Call.fseek (0 : Nat) .seekSet) :=
      congrArg (Option.map Moment.request) last
    exact absurd request (by decide +kernel)
  · exact fun unmeasured => absurd unmeasured.2.2.2.1 (by decide)

/-- The length cannot be told, and the stream stays at the end. -/
theorem unmeasured_end_not_restored :
    ¬ ∀ platform world, platform.faults world.clock = none →
      someFailed (log (posix platform) (blocksAppendBlock (freshHandle 0 80 3) oneChunk) world) =
        true →
      ¬ RestoringFails world.position
        (log (posix platform) (blocksAppendBlock (freshHandle 0 80 3) oneChunk) world) →
      ViewRestored world oneChunk
        (run (posix platform) (blocksAppendBlock (freshHandle 0 80 3) oneChunk) world).1
        (run (posix platform) (blocksAppendBlock (freshHandle 0 80 3) oneChunk) world).2 := by
  intro always
  have kept := always (failingAt 2) (freshWorld 80 3) rfl (by decide +kernel) fun ⟨state, last⟩ => by
    have request : Option.map Moment.request _ = some (Call.fseek (0 : Nat) .seekSet) :=
      congrArg (Option.map Moment.request) last
    exact absurd request (by decide +kernel)
  obtain ⟨_, _, -, -, -, -, position⟩ := kept
  revert position
  decide +kernel

end Recnodb
