import Recnodb.ExtensionFrame
import Recnodb.SoundLogic

/-!
# Refused extensions

An extension that is refused is to leave everything as it was. At the wrong length of
the file the refusal comes before anything is written. The refusal to orphan a block
comes behind the append, so the file has grown by then, and the appended block is
linked nowhere. Both refusals are followed here for any definition of the new block,
whatever else fails.
-/

namespace Recnodb

open Interaction Octets Program

variable {platform : Platform} {memory : Nat → Nat → UInt8} {file : List UInt8} {handle : Rndh}
variable {bdef : RndBlockDef} {chainEnd : OffT}

/-- The file behind an appended block of any type. -/
def created (file : List UInt8) (bdef : RndBlockDef) : List UInt8 :=
  patch (patch file (file.length + bdef.blockSize.toNat - 1) [0]) file.length (storedHead bdef)

/-- A block can be appended: the end of the file is a place for it, its header passes the
assertions, and it has a last byte in the range of `off_t`. -/
structure Appendable (handle : Rndh) (file : List UInt8) (bdef : RndBlockDef) : Prop where
  valid : blocksValidateHandle (some handle) = .success
  aligned : Aligned handle file
  preparable : bdef.Preparable
  last : 0 < file.length + bdef.blockSize.toNat
  bounded : (created file bdef).length ≤ offMax

/-- The header at the end of the chain, read behind the append, names a child. -/
def HasChild (file : List UInt8) (chainEnd : OffT) : Prop :=
  ∃ start : Nat, chainEnd = start ∧ start + 32 ≤ file.length ∧
    (headAt file start).nextBlock.offset ≠ 0

/-- Whatever file operations fail and whatever is lost, an extension that refuses to orphan a block,
or the place of the new one, leaves the file and the definition. -/
def RefusalsLeaveAll (handle : Rndh) (file : List UInt8) (chainEnd : OffT) (bdef : RndBlockDef) :
    Prop :=
  ∀ platform world rval made after, world.file = file →
    run (posix platform) (blocksExtendChain handle chainEnd bdef) world = (.ok (rval, made), after) →
    rval = .attemptToOrphanBlock ∨ rval = .invalidBlockLocation →
      after.file = file ∧ made.newBlock = bdef.newBlock

/-- A header is not empty. -/
theorem storedHead_pos : 0 < (storedHead bdef).length := by
  have size := headSize_ge bdef.blockType.code
  rw [storedHead_length]
  omega

/-- The new file ends with the block, or with its header where that is longer. -/
theorem created_length : (created file bdef).length =
    max (file.length + bdef.blockSize.toNat) (file.length + (storedHead bdef).length) := by
  have header : storedHead bdef ≠ [] := List.ne_nil_of_length_pos storedHead_pos
  have long := @storedHead_pos bdef
  rw [created, patch_length _ _ _ header, patch_length _ _ _ (List.cons_ne_nil _ _)]
  simp only [List.length_singleton]
  omega

/-- An appended block makes the file longer. -/
theorem created_longer : file.length < (created file bdef).length := by
  have long := @storedHead_pos bdef
  rw [created_length]
  omega

/-! ## A refusal behind the append -/

section Sound

/-- Where nothing fails, the end of the block is written. -/
theorem writeEndOfBlock_sound (last : 0 < file.length + bdef.blockSize.toNat)
    (bounded : file.length + bdef.blockSize.toNat ≤ offMax) (position : Nat) :
    OnSound memory file position (writeEndOfBlock bdef.blockSize.toUInt64 file.length)
      fun rval after _ => rval = .success ∧
        after = patch file (file.length + bdef.blockSize.toNat - 1) [0] := by
  have place : (file.length : Int) + (bdef.blockSize.toUInt64 - 1).toInt64.toInt =
      ((file.length + bdef.blockSize.toNat - 1 : Nat) : Int) := by
    rw [lastByte]
    omega
  refine OnSound.fseek_bind place (by omega) ?_
  refine OnSound.fwrite_bind (List.length_pos_of_ne_nil (List.cons_ne_nil _ _)) ?_ ?_
  · rw [List.length_singleton]
    omega
  · exact OnSound.fseek_bind rfl (by omega) (OnSound.ret ⟨rfl, rfl⟩)

/-- Where nothing fails, the file is extended. -/
theorem blocksExtendFile_sound (appendable : Appendable handle file bdef) (position : Nat) :
    OnSound memory file position (blocksExtendFile handle bdef.blockSize.toUInt64)
      fun rval after _ => rval = .success ∧
        after = patch file (file.length + bdef.blockSize.toNat - 1) [0] := by
  have bounded := appendable.bounded
  rw [created_length] at bounded
  apply OnSound.assert_bind
  · simp [appendable.valid]
  apply OnSound.primeHandle_bind
  apply OnSound.fseek_bind (Int.add_zero _) (by omega)
  apply OnSound.ftell_bind
  rw [if_pos ((location_valid handle file.length).trans (decide_eq_true appendable.aligned))]
  exact writeEndOfBlock_sound appendable.last (by omega) _

/-- Where nothing fails, the header is written. -/
theorem writeNewHead_sound {start : Nat} (preparable : bdef.Preparable) (inRange : start ≤ offMax)
    (bounded : start + (storedHead bdef).length ≤ offMax) (position : Nat) :
    OnSound memory file position (writeNewHead start bdef)
      fun rval after _ => rval = .success ∧ after = patch file start (storedHead bdef) := by
  rw [writeNewHead, blocksSetInfoBlockStruct_prepared preparable, ret_bind]
  apply @OnSound.fseek_bind _ _ _ _ _ _ _ start _ rfl inRange
  rw [ofBytes_headBuffer, newInfoBlock, if_neg (Nat.lt_irrefl _), bufferBytes,
    if_pos headSize_le_buffer]
  apply OnSound.fwrite_bind storedHead_pos bounded
  exact OnSound.ret ⟨rfl, rfl⟩

/-- Where nothing fails, the block is appended. -/
theorem blocksAppendBlock_sound (appendable : Appendable handle file bdef) {position : Nat}
    (inRange : position ≤ offMax) :
    OnSound memory file position (blocksAppendBlock handle bdef)
      fun result after _ => result = (.success, bdef.placed file) ∧ after = created file bdef := by
  have bounded := appendable.bounded
  rw [created_length] at bounded
  refine OnSound.note_bind (@OnSound.bind _ _ _ _ _ _ _ _ (fun result after _ =>
    result = (.success, bdef.placed file) ∧ after = created file bdef) ?_ ?_)
  · apply OnSound.assert_bind
    · simp [appendable.valid]
    apply OnSound.primeHandle_bind
    refine @OnSound.bind _ _ _ _ _ _ _ _ (fun ends after _ =>
      ends = ((position : OffT), (file.length : OffT)) ∧ after = file) ?_ ?_
    · apply OnSound.ftell_bind
      rw [if_neg (position_known position)]
      apply OnSound.fseek_bind (Int.add_zero _) (by omega)
      exact OnSound.ftell_bind (OnSound.ret ⟨rfl, rfl⟩)
    · rintro _ after stands ⟨rfl, rfl⟩
      dsimp only
      rw [if_neg (position_known after.length)]
      refine OnSound.bind (blocksExtendFile_sound appendable stands) ?_
      rintro _ grown there ⟨rfl, rfl⟩
      refine OnSound.bind (writeNewHead_sound appendable.preparable (by omega) (by omega) there) ?_
      rintro _ final here ⟨rfl, rfl⟩
      apply OnSound.fseek_bind rfl inRange
      rw [if_pos rfl]
      refine OnSound.ret ⟨?_, rfl⟩
      rw [RndBlockDef.placed, UInt32.toNat_toUInt64]
  · rintro _ after stands ⟨rfl, rfl⟩
    exact OnSound.note_bind (OnSound.ret ⟨rfl, rfl⟩)

/-- A header that was read into the buffer of the new one. -/
theorem ofBytes_readOver {start : Nat} (inside : start + 32 ≤ file.length) :
    InfoBlock.ofBytes (patch (headBuffer bdef) 0 (slice file start 32)) = headAt file start := by
  have front : (slice file start 32).length = (newInfoBlock bdef).toBytes.length := by
    rw [slice_length_inside inside, InfoBlock.toBytes_length]
  rw [headBuffer, patch_front front, InfoBlock.ofBytes_append (slice_length_inside inside)]

/-- A linked block at the end of the chain is not orphaned. -/
theorem linkNewBlock_sound (preparable : bdef.Preparable) (linked : HasChild file chainEnd)
    (bounded : file.length ≤ offMax) (position : Nat) :
    OnSound memory file position (linkNewBlock chainEnd bdef)
      fun rval after _ => rval = .attemptToOrphanBlock ∧ after = file := by
  obtain ⟨start, rfl, inside, child⟩ := linked
  rw [linkNewBlock, blocksSetInfoBlockStruct_prepared preparable, ret_bind, blocksReadBlockHead,
    Nat.min_eq_left (headSize_ge _), bind_assoc]
  apply OnSound.seekRead_bind (by decide : 0 < 32) inside (by omega)
  dsimp only
  rw [Program.pure_eq_ret, ret_bind]
  dsimp only
  rw [if_neg (not_not_intro rfl), blocksBlockPointsToChildTest, ofBytes_readOver inside,
    if_pos (by simpa using child)]
  exact OnSound.ret ⟨rfl, rfl⟩

/-- An extension of a chain behind a linked block refuses, and leaves a longer file. -/
theorem blocksExtendChain_sound (appendable : Appendable handle file bdef)
    (linked : HasChild (created file bdef) chainEnd) :
    ¬ RefusalsLeaveAll handle file chainEnd bdef := by
  have refused : OnSound (fun _ _ => 0) file 0 (blocksExtendChain handle chainEnd bdef)
      fun result after _ => result.1 = .attemptToOrphanBlock ∧ after = created file bdef := by
    apply OnSound.primeHandle_bind
    refine OnSound.bind (blocksAppendBlock_sound appendable (Nat.zero_le _)) ?_
    rintro _ after stands ⟨rfl, rfl⟩
    dsimp only
    rw [if_neg (not_not_intro rfl)]
    refine OnSound.bind (linkNewBlock_sound (by exact appendable.preparable) linked
      appendable.bounded stands) ?_
    rintro _ final there ⟨rfl, rfl⟩
    exact OnSound.ret ⟨rfl, rfl⟩
  intro leaves
  obtain ⟨⟨rval, made⟩, after, completed, orphan, grown⟩ := refused { disk := file } ⟨rfl, rfl⟩
  have same := (leaves _ _ _ _ _ rfl completed (.inl orphan)).1
  have longer := @created_longer file bdef
  rw [grown] at same
  rw [same] at longer
  exact Nat.lt_irrefl _ longer

end Sound

/-! ## Refusals under faults -/

section Answers

variable {world : World}

/-- The file with room for a block behind its end. -/
def widened (file : List UInt8) (bdef : RndBlockDef) : List UInt8 :=
  patch file (file.length + bdef.blockSize.toNat - 1) [0]

/-- An extension of the file has made room for a block, and the stream holds nothing. -/
structure Widened (world : World) (bdef : RndBlockDef) (after : World) : Prop where
  last : 0 < world.file.length + bdef.blockSize.toNat
  bounded : world.file.length + bdef.blockSize.toNat ≤ offMax
  held : after.held = []
  file : after.file = widened world.file bdef

/-- A write that the stream takes ends in the range of `off_t`. -/
theorem posix_fwrite_fits {bytes : List UInt8} {after : World}
    (taken : posix platform (.fwrite bytes) world = (true, after)) :
    world.position + bytes.length ≤ offMax := by
  rcases @FromPosition.posix_cases platform (.fwrite bytes) world with sound | ⟨fault, broken⟩
  · rw [sound, unfaulted] at taken
    split_ifs at taken with inside
    · exact inside.2
    · cases taken
  · rw [broken] at taken
    cases taken

/-- The end of a block is written, or a call has failed. -/
theorem writeEndOfBlock_ends {location : OffT} :
    Ends (posix platform) world (writeEndOfBlock bdef.blockSize.toUInt64 location)
      fun outcome _ after => outcome = .ok .systemError ∨
        (outcome = .ok .success ∧ location ≠ -1 ∧ Widened world bdef after) := by
  refine ends_fseek fun reply sought seek _ => ?_
  cases reply with
  | false => exact ends_aside trivial fun _ _ _ _ => ends_ret (.inl rfl)
  | true =>
    have place := seek.at_end_of_block
    have above : (sought.position : OffT) =
      world.file.length + (bdef.blockSize.toUInt64 - 1).toInt64.toInt := seek.found rfl
    rw [lastByte] at above
    refine ends_fwrite fun reply wrote write answered => ?_
    cases reply with
    | false => exact ends_aside trivial fun _ _ _ _ => ends_ret (.inl rfl)
    | true =>
      have bound := posix_fwrite_fits answered
      rw [List.length_singleton] at bound
      refine ends_fseek fun reply back seek' _ => ?_
      cases reply with
      | false => exact ends_aside trivial fun _ _ _ _ => ends_ret (.inl rfl)
      | true =>
        have found : (back.position : OffT) = location := seek'.found rfl
        refine ends_ret (.inr ⟨rfl, fun unknown => ?_, ?_, ?_, seek'.drained.held, ?_⟩)
        · exact position_known back.position (found.trans unknown)
        · unfold OffT at above
          omega
        · unfold OffT at above
          omega
        · rw [seek'.file rfl, write.file, seek.file rfl, place]
          rfl

/-- The answers of an extension of the file. At a place that is not accepted nothing is
written. -/
theorem blocksExtendFile_ends (valid : blocksValidateHandle (some handle) = .success) :
    Ends (posix platform) world (blocksExtendFile handle bdef.blockSize.toUInt64)
      fun outcome _ after => outcome = .ok .systemError ∨
        (outcome = .ok .success ∧ Aligned handle world.file ∧ Widened world bdef after) ∨
        (outcome = .ok .invalidBlockLocation ∧ after.held = [] ∧ after.file = world.file) := by
  refine ends_assert (by simp [valid]) (ends_primeHandle (ends_fseek fun reply sought seek _ => ?_))
  cases reply with
  | false => exact ends_aside trivial fun _ _ _ _ => ends_ret (.inl rfl)
  | true =>
    have stands : (sought.position : OffT) = world.file.length :=
      (seek.found rfl).trans (Int.add_zero _)
    have same : sought.file = world.file := seek.file rfl
    refine ends_ftell fun reply measured tell _ => ?_
    have file : measured.file = world.file := tell.unmoved.file.trans same
    by_cases placed : blocksValidateNewBlockLocation handle reply = true
    · rw [if_pos placed]
      refine writeEndOfBlock_ends.mono fun outcome _ after answer => ?_
      rcases answer with failed | ⟨success, known, room⟩
      · exact .inl failed
      · obtain ⟨last, bounded, held, widened⟩ := room
        rw [file] at last bounded widened
        rw [tell.reply.resolve_right known, stands, location_valid] at placed
        exact .inr (.inl ⟨success, of_decide_eq_true placed, last, bounded, held, widened⟩)
    · rw [if_neg placed]
      exact ends_ret (.inr (.inr ⟨rfl, tell.unmoved.held.trans seek.drained.held, file⟩))

/-- A header that is written is in the file as the stream knows it, and a front part of it where the
rest is lost. -/
theorem writeNewHead_ends {start : Nat} :
    Ends (posix platform) world (writeNewHead start bdef)
      fun outcome _ after => (∃ reason, outcome = .error reason) ∨ outcome = .ok .systemError ∨
        (outcome = .ok .success ∧ bdef.Preparable ∧ start + (storedHead bdef).length ≤ offMax ∧
          ∀ lost, ∃ count, after.reached lost =
            patch world.file start ((storedHead bdef).take count)) := by
  by_cases preparable : bdef.Preparable
  · rw [writeNewHead, blocksSetInfoBlockStruct_prepared preparable, ret_bind]
    refine ends_fseek fun reply sought seek _ => ?_
    cases reply with
    | false => exact ends_aside trivial fun _ _ _ _ => ends_ret (.inr (.inl rfl))
    | true =>
      have place : sought.position = start := Int.natCast_inj.mp (seek.found rfl)
      rw [ofBytes_headBuffer, newInfoBlock, if_neg (Nat.lt_irrefl _), bufferBytes,
        if_pos headSize_le_buffer]
      refine ends_fwrite fun reply wrote write answered => ?_
      cases reply with
      | false => exact ends_aside trivial fun _ _ _ _ => ends_ret (.inr (.inl rfl))
      | true =>
        have bound := posix_fwrite_fits answered
        rw [place] at bound
        refine ends_ret (.inr (.inr ⟨rfl, preparable, bound, fun lost => ?_⟩))
        obtain ⟨count, left⟩ := write.left seek.drained.held lost
        rw [seek.file rfl, place] at left
        exact ⟨count, left⟩
  · rw [writeNewHead, blocksSetInfoBlockStruct_refused preparable, stop_bind]
    exact .inl ⟨_, rfl⟩

/-- The measurements at the start: the length is known behind a stream that holds nothing. -/
theorem measureEnd_tells : Ends (posix platform) world measureEnd fun outcome _ after =>
    ∃ original place, outcome = .ok (original, place) ∧ (place = -1 ∨
      (place = world.file.length ∧ after.held = [] ∧ after.file = world.file)) := by
  refine ends_ftell fun original first tell _ => ?_
  by_cases lost : original = -1
  · rw [if_pos lost]
    exact ends_ret ⟨_, _, rfl, .inl rfl⟩
  · rw [if_neg lost]
    refine ends_fseek fun reply sought seek _ => ?_
    cases reply with
    | false => exact ends_ret ⟨_, _, rfl, .inl rfl⟩
    | true =>
      rw [if_pos rfl]
      refine ends_ftell fun place second tell' _ => ends_ret ⟨original, place, rfl, ?_⟩
      have stands : (sought.position : OffT) = first.file.length :=
        (seek.found rfl).trans (Int.add_zero _)
      rw [tell.unmoved.file] at stands
      refine tell'.reply.symm.imp_right fun told => ⟨told.trans stands, ?_, ?_⟩
      · exact tell'.unmoved.held.trans seek.drained.held
      · rw [tell'.unmoved.file, seek.file rfl, tell.unmoved.file]

/-- What an append answers, whatever fails and whatever is lost: the block is appended, but for a
part of its header that may be lost, or a call failed, or the place was not accepted and the file is
as it was. -/
inductive AppendAnswered (handle : Rndh) (bdef : RndBlockDef) (world : World) :
    RndError × RndBlockDef → World → Prop where
  | appended {after : World} (appendable : Appendable handle world.file bdef) (held : after.held = [])
      (count : Nat) (file : after.file =
        patch (widened world.file bdef) world.file.length ((storedHead bdef).take count)) :
      AppendAnswered handle bdef world (.success, bdef.placed world.file) after
  | failed {made : RndBlockDef} {after : World} :
      AppendAnswered handle bdef world (.systemError, made) after
  | refused {after : World} (file : after.file = world.file) :
      AppendAnswered handle bdef world (.invalidBlockLocation, bdef) after

/-- The restoring seek behind the growth of the file, which may lose the header. -/
theorem restore_answers {here : World} {original : OffT} {rval : RndError}
    (grown : rval = .success → Appendable handle world.file bdef ∧ ∀ lost, ∃ count,
      here.reached lost = patch (widened world.file bdef) world.file.length
        ((storedHead bdef).take count))
    (refused : rval ≠ .success → rval = .systemError ∨
      (rval = .invalidBlockLocation ∧ here.held = [] ∧ here.file = world.file)) :
    Ends (posix platform) here (do
      let _ ← fseek original .seekSet
      if rval = .success then
        pure (.success, { bdef with
          newBlock := ⟨world.file.length, bdef.blockSize.toUInt64.toNat⟩ })
      else pure (rval, bdef) : Prog (RndError × RndBlockDef))
      fun outcome _ after => ∀ result, outcome = .ok result →
        AppendAnswered handle bdef world result after := by
  refine ends_fseek fun reply after seek _ => ?_
  by_cases success : rval = .success
  · rw [if_pos success]
    obtain ⟨appendable, left⟩ := grown success
    obtain ⟨held, lost, disk⟩ := seek.drained
    obtain ⟨count, part⟩ := left lost
    refine ends_ret ?_
    rintro _ ⟨⟩
    rw [UInt32.toNat_toUInt64]
    exact .appended appendable held count ((World.file_of_empty held).trans (disk.trans part))
  · rw [if_neg success]
    refine ends_ret ?_
    rintro _ ⟨⟩
    rcases refused success with rfl | ⟨rfl, empty, same⟩
    · exact .failed
    · exact .refused ((seek.drained.same.file empty).trans same)

/-- The body of an append answers in one of these ways. -/
theorem appendBlock_answers (valid : blocksValidateHandle (some handle) = .success) :
    Ends (posix platform) world (appendBlock handle bdef) fun outcome _ after =>
      ∀ result, outcome = .ok result → AppendAnswered handle bdef world result after := by
  refine ends_assert (by simp [valid]) (ends_primeHandle ?_)
  refine Ends.bind (@measureEnd_tells _ { world with sysErrno := 0 }) ?_ ?_
  · rintro _ _ between ⟨original, place, same, unknown | ⟨rfl, empty, file⟩⟩
    · obtain rfl := Except.ok.inj same
      dsimp only
      rw [if_pos unknown]
      refine ends_aside trivial fun _ kept _ _ => ?_
      split
      · refine ends_fseek fun _ _ _ _ => ends_ret ?_
        rintro _ ⟨⟩
        exact .failed
      · refine ends_ret ?_
        rintro _ ⟨⟩
        exact .failed
    · obtain rfl := Except.ok.inj same
      change between.file = world.file at file
      dsimp only
      rw [if_neg (position_known _)]
      have failing (here : World) := @restore_answers platform handle bdef world here original
        .systemError (fun done => RndError.noConfusion done) fun _ => .inl rfl
      refine Ends.bind (blocksExtendFile_ends valid) ?_ ?_
      · rintro rval past grown (failed | ⟨success, aligned, room⟩ | ⟨refused, held, same⟩)
        · obtain rfl := Except.ok.inj failed
          exact failing grown
        · obtain rfl := Except.ok.inj success
          obtain ⟨last, fits, -, widened⟩ := room
          rw [file] at aligned last fits widened
          refine Ends.bind writeNewHead_ends ?_ ?_
          · rintro code later here (⟨reason, impossible⟩ | failed | ⟨success, preparable, head, left⟩)
            · cases impossible
            · obtain rfl := Except.ok.inj failed
              exact failing here
            · obtain rfl := Except.ok.inj success
              have appendable : Appendable handle world.file bdef :=
                ⟨valid, aligned, preparable, last, created_length.trans_le (max_le fits head)⟩
              rw [widened] at left
              exact @restore_answers platform handle bdef world here original .success
                (fun _ => ⟨appendable, left⟩) fun bad => absurd rfl bad
          · rintro reason past after stopped result ⟨⟩
        · obtain rfl := Except.ok.inj refused
          exact @restore_answers platform handle bdef world grown original .invalidBlockLocation
            (fun done => RndError.noConfusion done) fun _ => .inr ⟨rfl, held, same.trans file⟩
      · rintro reason past after (impossible | ⟨impossible, -⟩ | ⟨impossible, -⟩) <;> cases impossible
  · rintro reason past after ⟨_, _, impossible, -⟩
    cases impossible

/-- An append that answers does so in one of these ways. -/
theorem append_answered {result : RndError × RndBlockDef} {after : World}
    (completed : run (posix platform) (blocksAppendBlock handle bdef) world = (.ok result, after)) :
    AppendAnswered handle bdef world result after := by
  by_cases valid : blocksValidateHandle (some handle) = .success
  · have ends : Ends (posix platform) world (blocksAppendBlock handle bdef) fun outcome _ after =>
        ∀ result, outcome = .ok result → AppendAnswered handle bdef world result after := by
      refine ends_note (Ends.bind (appendBlock_answers valid) ?_ ?_)
      · rintro ⟨code, made⟩ past between answered
        refine ends_note (ends_ret ?_)
        rintro _ ⟨⟩
        exact answered _ rfl
      · rintro reason past after - result ⟨⟩
    unfold Ends at ends
    rw [completed] at ends
    exact ends result rfl
  · have stopped := @blocksAppendBlock_invalid platform world handle bdef valid
    rw [completed] at stopped
    cases stopped

end Answers

/-- A header write answers whether it succeeded. -/
theorem blocksWriteBlockHead_answers {offset : OffT} {block : List UInt8} {infoLen : Nat} :
    UnderFaults platform file (blocksWriteBlockHead offset block infoLen)
      fun rval _ _ => rval = .success ∨ rval = .systemError := by
  have failed (after : List UInt8) : UnderFaults platform after
      (keepErrno >>= fun _ => pure .systemError : Prog RndError)
      fun rval _ _ => rval = .success ∨ rval = .systemError :=
    UnderFaults.kept_error (.inr rfl)
  have written {start : Nat} (bytes : List UInt8) : FromPosition platform file start
      (fwrite bytes >>= fun written =>
        if written then pure .success else keepErrno >>= fun _ => pure .systemError : Prog RndError)
      fun rval _ _ => rval = .success ∨ rval = .systemError := by
    refine FromPosition.fwrite_bind (fun _ => ?_) fun count => failed _
    exact FromPosition.of_file (UnderFaults.ret (.inl rfl))
  refine UnderFaults.of_positions fun position => FromPosition.fseek_bind (fun target _ _ => ?_)
    (FromPosition.of_file (failed _))
  dsimp only
  rw [if_pos rfl, bufferBytes]
  generalize (if (blocksBytesToData (InfoBlock.ofBytes block).blockType).toNat < infoLen then infoLen
    else (blocksBytesToData (InfoBlock.ofBytes block).blockType).toNat) = count
  by_cases within : count ≤ block.length
  · rw [if_pos within]
    exact written _
  · rw [if_neg within, bind_assoc]
    exact FromPosition.adjacent_bind fun time => written _

/-- The answers of the linking: it refuses to orphan a block that the header names. -/
theorem linkNewBlock_answers (preparable : bdef.Preparable) :
    UnderFaults platform file (linkNewBlock chainEnd bdef) fun rval _ _ =>
      rval ≠ .invalidBlockLocation ∧ (rval = .attemptToOrphanBlock → HasChild file chainEnd) := by
  rw [linkNewBlock, blocksSetInfoBlockStruct_prepared preparable, ret_bind, blocksReadBlockHead,
    Nat.min_eq_left (headSize_ge _), bind_assoc]
  refine UnderFaults.seekRead_bind (fun start inside same => ?_) ?_
  · dsimp only
    rw [Program.pure_eq_ret, ret_bind]
    dsimp only
    rw [if_neg (not_not_intro rfl), blocksBlockPointsToChildTest, ofBytes_readOver inside]
    split
    · rename_i child
      refine UnderFaults.ret ⟨RndError.noConfusion, fun _ => ⟨start, same, inside, ?_⟩⟩
      simpa using child
    · refine blocksWriteBlockHead_answers.mono ?_
      rintro _ after past (rfl | rfl)
      · exact ⟨RndError.noConfusion, fun orphan => absurd orphan RndError.noConfusion⟩
      · exact ⟨RndError.noConfusion, fun orphan => absurd orphan RndError.noConfusion⟩
  · refine UnderFaults.kept_error ⟨RndError.noConfusion, ?_⟩
    exact fun orphan => absurd orphan RndError.noConfusion

/-- Whatever is lost of the new header, the chain end has no child that it does not have behind the
whole append. -/
theorem HasChild.whole {count : Nat} (child : HasChild
    (patch (widened file bdef) file.length ((storedHead bdef).take count)) chainEnd) :
    HasChild (created file bdef) chainEnd := by
  obtain ⟨start, rfl, inside, offset⟩ := child
  have room : ∀ index byte, file.length ≤ index → (widened file bdef)[index]? = some byte →
      byte = 0 := by
    intro index byte behind there
    rw [widened, patch_getElem? _ _ _ (List.cons_ne_nil _ _)] at there
    split_ifs at there with last old gap
    · exact List.mem_singleton.mp (List.mem_of_getElem? there)
    · omega
    · exact (Option.some.inj there).symm
  refine ⟨start, rfl, inside.trans (length_patch_take_le _ _ _ _), fun childless => offset ?_⟩
  exact InfoBlock.childless_of_faded ((faded_patch_take count room).slice start 32) childless

/-- A refusal to orphan a block follows an append behind which the chain end has a child. -/
theorem blocksExtendChain_refusals {world after : World} {result : RndError × RndBlockDef}
    (completed : run (posix platform) (blocksExtendChain handle chainEnd bdef) world =
      (.ok result, after)) :
    (result.1 = .attemptToOrphanBlock →
      Appendable handle world.file bdef ∧ HasChild (created world.file bdef) chainEnd) ∧
    (result.1 = .invalidBlockLocation → after.file = world.file ∧ result.2 = bdef) := by
  rw [blocksExtendChain, primeHandle, run_bind_ok _ (run_issue posix_primeHandle)] at completed
  obtain ⟨⟨code, made⟩, between, appending, rest⟩ := run_bind_inv _ completed
  have answered := append_answered appending
  cases answered with
  | appended appendable held count file =>
    dsimp only at rest
    rw [if_neg (not_not_intro rfl)] at rest
    obtain ⟨rval, final, linking, same⟩ := run_bind_inv _ rest
    obtain ⟨outcome, rfl⟩ := Prod.mk.inj same
    obtain rfl := Except.ok.inj outcome
    have preparable : (bdef.placed world.file).Preparable := appendable.preparable
    obtain ⟨kind, orphan⟩ := linkNewBlock_answers preparable between rfl _ _ linking
      (lossless_linkNewBlock preparable held)
    refine ⟨fun refused => ⟨appendable, ?_⟩, fun refused => absurd refused kind⟩
    have child := orphan refused
    rw [file] at child
    exact child.whole
  | failed =>
    obtain ⟨rfl, -⟩ := run_ret_inv _ rest
    exact ⟨fun refused => absurd refused RndError.noConfusion,
      fun refused => absurd refused RndError.noConfusion⟩
  | refused file =>
    obtain ⟨rfl, rfl⟩ := run_ret_inv _ rest
    exact ⟨fun refused => absurd refused RndError.noConfusion, fun _ => ⟨file, rfl⟩⟩

/-- Refusals leave everything as it was if and only if no block can be appended or the
chain end names no child behind the append. -/
theorem refusalsLeaveAll_iff_unappended :
    RefusalsLeaveAll handle file chainEnd bdef ↔
      ¬ (Appendable handle file bdef ∧ HasChild (created file bdef) chainEnd) := by
  constructor
  · rintro leaves ⟨appendable, child⟩
    exact blocksExtendChain_sound appendable child leaves
  · rintro without platform world rval made after rfl completed
    obtain ⟨orphan, invalid⟩ := blocksExtendChain_refusals completed
    rintro (refused | refused)
    · exact absurd (orphan refused) without
    · exact ⟨(invalid refused).1, congrArg RndBlockDef.newBlock (invalid refused).2⟩

/-! ## A root with a child -/

/-- A new file of two blocks, the second linked to the first. -/
def linkedPair : List UInt8 :=
  linked (appended (freshFile 80 3) oneChunk) 0 ⟨80, 80⟩ []

/-- A third block is appended before the refusal. -/
theorem refused_block_leaks :
    ¬ RefusalsLeaveAll (freshHandle 0 80 3) linkedPair (0 : Nat) oneChunk := by
  refine blocksExtendChain_sound ⟨?_, ?_, ?_, ?_, ?_⟩ ⟨0, rfl, ?_⟩
  · decide
  · decide +kernel
  · decide
  · decide +kernel
  · decide +kernel
  · decide +kernel

end Recnodb
