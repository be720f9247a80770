import Recnodb.FaultLogic
import Recnodb.Growth

/-!
# Blocks under faults

What the functions of `blocks.c` leave behind on a platform on which any call may
fail. An append that answers success has written the whole block at a multiple of
the chunk size; one that fails has touched nothing before the last byte of the
old file. An extension that answers success has appended the block and rewritten
one header.
-/

namespace Recnodb

open Interaction Octets Program

/-- Behind the end of a block of some size is written, bytes before it are as they were, and none
is gone. A block of no bytes ends at the last byte of the file. -/
structure KeepsFront (size : Nat) (file after : List UInt8) : Prop where
  longer : file.length ≤ after.length
  same : ∀ index, index < file.length → index + 1 < file.length + size → after[index]? = file[index]?

/-- A file that is left alone. -/
theorem KeepsFront.refl (size : Nat) (file : List UInt8) : KeepsFront size file file :=
  ⟨Nat.le_refl _, fun _ _ _ => rfl⟩

/-- A write from the last byte of the block on keeps what is before it. -/
theorem KeepsFront.patch {size : Nat} {file : List UInt8} {start : Nat} (written : List UInt8)
    (end_ : file.length + size ≤ start + 1) : KeepsFront size file (patch file start written) :=
  ⟨length_le_patch _ _ _, fun index inside below => patch_getElem?_outside inside (by omega)⟩

/-- A later write behind the front keeps it as well. -/
theorem KeepsFront.patch_later {size : Nat} {file middle : List UInt8}
    (keeps : KeepsFront size file middle) {start : Nat} (written : List UInt8)
    (end_ : file.length ≤ start) : KeepsFront size file (Octets.patch middle start written) := by
  have longer := keeps.longer
  refine ⟨longer.trans (length_le_patch _ _ _), fun index inside below => ?_⟩
  rw [patch_getElem?_outside (by omega) (by omega), keeps.same index inside below]

/-- Headers before the last byte are kept. -/
theorem KeepsFront.alike {size : Nat} {file after : List UInt8} (keeps : KeepsFront size file after)
    {offset : Nat} (inside : offset + 32 ≤ file.length) :
    (headAt after offset).Alike (headAt file offset) :=
  headAt_alike (slice_congr fun index _ _ => keeps.same index (by omega) (by omega))

/-- A block of some bytes leaves all bytes before it. -/
theorem KeepsFront.behind {size : Nat} {file after : List UInt8} (keeps : KeepsFront size file after)
    (some : 0 < size) : file <+: after := by
  apply List.prefix_iff_getElem?.mpr
  intro index inside
  rw [keeps.same index inside (by omega), List.getElem?_eq_getElem]

section Append

variable {platform : Platform} {file : List UInt8} {handle : Rndh} {bdef : RndBlockDef}

/-- What an extension of the file leaves, by its result. -/
def Extended (file : List UInt8) (bdef : RndBlockDef) (rval : RndError) (after : List UInt8)
    (past : List Event) : Prop :=
  past = [] ∧ KeepsFront bdef.blockSize.toNat file after ∧
    (rval = .success → after = patch file (file.length + bdef.blockSize.toNat - 1) [0])

/-- The end of a block is written, or nothing before the last byte is touched. -/
theorem writeEndOfBlock_faults {position : Nat} {location : OffT} :
    FromPosition platform file position (writeEndOfBlock bdef.blockSize.toUInt64 location)
      (Extended file bdef) := by
  have failed (after : List UInt8) (keeps : KeepsFront bdef.blockSize.toNat file after) :
    UnderFaults platform after
      (keepErrno >>= fun _ => pure .systemError : Prog RndError) (Extended file bdef) :=
    UnderFaults.kept_error ⟨rfl, keeps, RndError.noConfusion⟩
  refine FromPosition.fseek_end_bind (fun target same _ => ?_)
    (FromPosition.of_file (failed _ (KeepsFront.refl _ _)))
  have place : target = file.length + bdef.blockSize.toNat - 1 := by
    rw [← endByte, same]
    exact (Int.toNat_natCast target).symm
  have late : file.length + bdef.blockSize.toNat ≤ target + 1 := by omega
  refine FromPosition.fwrite_bind (fun _ => ?_) fun count => failed _ (KeepsFront.patch _ late)
  refine FromPosition.fseek_bind (fun _ _ _ => FromPosition.of_file (UnderFaults.ret ?_))
    (FromPosition.of_file (failed _ (KeepsFront.patch _ late)))
  exact ⟨rfl, KeepsFront.patch _ late, fun _ => by rw [place]⟩

/-- A failed measurement is accepted only when every place is. -/
theorem unmeasured_valid (valid : blocksValidateNewBlockLocation handle (-1) = true) :
    handle.headFile.fhead.chunkSize.toNat = 1 := by
  rw [blocksValidateNewBlockLocation, beq_iff_eq] at valid
  have divides := Int.dvd_of_tmod_eq_zero valid
  rw [Int.dvd_neg] at divides
  exact Nat.dvd_one.mp (Int.natCast_dvd_natCast.mp divides)

/-- The end of the file is extended, or nothing before the last byte is touched.
At a place that is no multiple of the chunk size nothing is touched at all. -/
theorem blocksExtendFile_faults :
    UnderFaults platform file (blocksExtendFile handle bdef.blockSize.toUInt64)
      fun rval after past => Extended file bdef rval after past ∧
        (¬ Aligned handle file → rval ≠ .success ∧ after = file) := by
  refine UnderFaults.assert_bind fun _ => UnderFaults.primeHandle_bind
    (UnderFaults.of_positions fun position => ?_)
  have untouched {rval : RndError} (failed : rval ≠ .success) :
      Extended file bdef rval file [] ∧
        (¬ Aligned handle file → rval ≠ .success ∧ file = file) :=
    ⟨⟨rfl, KeepsFront.refl _ _, fun success => absurd success failed⟩, fun _ => ⟨failed, rfl⟩⟩
  refine FromPosition.fseek_end_bind (fun target same _ => ?_) (FromPosition.of_file
    (UnderFaults.kept_error (untouched RndError.noConfusion)))
  -- an accepted place, measured or not, means that the end of the file is one
  have placed (location : OffT) (accepted : blocksValidateNewBlockLocation handle location = true →
      Aligned handle file) : FromPosition platform file target
        (if blocksValidateNewBlockLocation handle location then
          writeEndOfBlock bdef.blockSize.toUInt64 location
        else pure .invalidBlockLocation)
      fun rval after past => Extended file bdef rval after past ∧
        (¬ Aligned handle file → rval ≠ .success ∧ after = file) := by
    split
    · rename_i valid
      exact FromPosition.mono writeEndOfBlock_faults fun _ _ _ extended =>
        ⟨extended, fun off => absurd (accepted valid) off⟩
    · exact FromPosition.of_file (UnderFaults.ret (untouched RndError.noConfusion))
  refine FromPosition.ftell_bind (placed target fun valid => ?_) (placed (-1) fun valid => ?_)
  · obtain rfl : file.length = target := by
      rw [Int.add_zero] at same
      exact Int.natCast_inj.mp same
    rw [location_valid] at valid
    exact of_decide_eq_true valid
  · rw [Aligned, unmeasured_valid valid, Nat.mod_one]

/-- The measurements leave the file; the place is its length or not known. -/
theorem measureEnd_faults :
    UnderFaults platform file measureEnd fun ends after past =>
      after = file ∧ past = [] ∧ (ends.2 = -1 ∨ ends.2 = file.length) := by
  refine UnderFaults.of_positions fun position => FromPosition.ftell_bind ?_ ?_
  · rw [if_neg (position_known position)]
    refine FromPosition.fseek_end_bind (fun target same _ => ?_)
      (FromPosition.of_file (UnderFaults.ret ⟨rfl, rfl, .inl rfl⟩))
    obtain rfl : file.length = target := by
      rw [Int.add_zero] at same
      exact Int.natCast_inj.mp same
    rw [if_pos rfl]
    exact FromPosition.ftell_bind (FromPosition.of_file (UnderFaults.ret ⟨rfl, rfl, .inr rfl⟩))
      (FromPosition.of_file (UnderFaults.ret ⟨rfl, rfl, .inl rfl⟩))
  · exact FromPosition.of_file (UnderFaults.ret ⟨rfl, rfl, .inl rfl⟩)

/-- What a read of a header delivers. -/
theorem blocksReadBlockHead_faults {offset infoLen : Nat} {block : List UInt8}
    (long : 32 ≤ infoLen) :
    UnderFaults platform file (blocksReadBlockHead offset block infoLen) fun result after past =>
      after = file ∧ past = [] ∧ (result.1 = .success → offset + 32 ≤ file.length ∧
        result.2 = patch block 0 (slice file offset 32)) := by
  rw [blocksReadBlockHead, Nat.min_eq_left long]
  refine UnderFaults.seekRead_bind (fun start inside same => ?_) ?_
  · obtain rfl : offset = start := Int.natCast_inj.mp same
    exact UnderFaults.ret ⟨rfl, rfl, fun _ => ⟨inside, rfl⟩⟩
  · exact UnderFaults.kept_error ⟨rfl, rfl, RndError.noConfusion⟩

/-- The length of a header write. -/
def writeLength (block : List UInt8) (infoLen : Nat) : Nat :=
  max (blocksBytesToData (InfoBlock.ofBytes block).blockType).toNat infoLen

/-- The bytes that a header write takes from its buffer and, as far as the length
exceeds it, from the memory behind. -/
def writtenBytes (platform : Platform) (time : Nat) (block : List UInt8) (infoLen : Nat) :
    List UInt8 :=
  block.take (writeLength block infoLen) ++
    adjacentBytes (platform.memory time) (writeLength block infoLen - block.length)

/-- What a header write leaves: its bytes, or the first of them. -/
structure HeadWritten (platform : Platform) (file : List UInt8) (offset : OffT)
    (block : List UInt8) (infoLen : Nat) (rval : RndError) (after : List UInt8)
    (past : List Event) : Prop where
  silent : past = []
  whole : rval = .success → ∃ start time : Nat, offset = start ∧
    start + writeLength block infoLen ≤ offMax ∧
    after = patch file start (writtenBytes platform time block infoLen)
  part : rval ≠ .success → ∃ time count : Nat,
    after = patch file offset.toNat ((writtenBytes platform time block infoLen).take count)

/-- The write of a header under faults. -/
theorem blocksWriteBlockHead_faults {offset : OffT} {block : List UInt8} {infoLen : Nat} :
    UnderFaults platform file (blocksWriteBlockHead offset block infoLen)
      (HeadWritten platform file offset block infoLen) := by
  have failed (after : List UInt8) (time count : Nat)
      (same : after =
        patch file offset.toNat ((writtenBytes platform time block infoLen).take count)) :
      UnderFaults platform after (keepErrno >>= fun _ => pure .systemError : Prog RndError)
        (HeadWritten platform file offset block infoLen) :=
    UnderFaults.kept_error ⟨rfl, RndError.noConfusion, fun _ => ⟨time, count, same⟩⟩
  have length : (if (blocksBytesToData (InfoBlock.ofBytes block).blockType).toNat < infoLen then
      infoLen else (blocksBytesToData (InfoBlock.ofBytes block).blockType).toNat) =
        writeLength block infoLen := by
    rw [writeLength]
    split <;> omega
  refine UnderFaults.of_positions fun position => FromPosition.fseek_bind (fun target same _ => ?_)
    (FromPosition.of_file (failed _ 0 0 (by rw [List.take_zero, patch_nil])))
  have place : offset.toNat = target := by
    rw [same]
    exact Int.toNat_natCast target
  -- whatever bytes are taken from the buffer and from behind it
  have write (time : Nat) (bytes : List UInt8)
      (taken : bytes = writtenBytes platform time block infoLen) :
      FromPosition platform file target
        (fwrite bytes >>= fun written =>
          if written then pure .success
          else keepErrno >>= fun _ => pure .systemError : Prog RndError)
        (HeadWritten platform file offset block infoLen) := by
    have count : bytes.length = writeLength block infoLen := by
      rw [taken, writtenBytes, List.length_append, List.length_take, adjacentBytes_length]
      omega
    refine FromPosition.fwrite_bind (fun bound => ?_) fun written =>
      failed _ time written (by rw [place, taken])
    exact FromPosition.of_file (UnderFaults.ret
      ⟨rfl, fun _ => ⟨target, time, same, count ▸ bound, by rw [taken]⟩, fun bad => absurd rfl bad⟩)
  dsimp only
  rw [if_pos rfl, length, bufferBytes]
  by_cases within : writeLength block infoLen ≤ block.length
  · rw [if_pos within]
    refine write 0 _ ?_
    rw [writtenBytes, Nat.sub_eq_zero_of_le within]
    exact (List.append_nil _).symm
  · rw [if_neg within, bind_assoc]
    refine FromPosition.adjacent_bind fun time => write time _ ?_
    rw [writtenBytes, List.take_of_length_le (Nat.le_of_not_le within)]

/-- What an append leaves and delivers, by its result. -/
structure Appended (file : List UInt8) (handle : Rndh) (bdef : RndBlockDef)
    (result : RndError × RndBlockDef) (after : List UInt8) : Prop where
  front : KeepsFront bdef.blockSize.toNat file after
  refused : ¬ Aligned handle file → result.1 ≠ .success ∧ after = file
  whole : result.1 = .success → result.2 = bdef.placed file ∧ after = appended file bdef ∧
    file.length + 32 ≤ offMax
  failed : result.1 ≠ .success → result.2 = bdef

/-- A new header has at least 32 bytes. -/
theorem newHead_ge (bdef : RndBlockDef) : 32 ≤ (newHead bdef).length := by
  rw [newHead, List.length_append, InfoBlock.toBytes_length]
  omega

/-- A new header is written whole, and nothing of the memory behind its buffer. -/
theorem writeLength_newHead (settable : bdef.Settable) :
    writeLength (newHead bdef) (blocksBytesToData bdef.blockType.code).toNat =
      (newHead bdef).length := by
  rw [writeLength, ofBytes_newHead, newInfoBlock, Nat.max_self, newHead_length bdef settable]

/-- The header of a new block, or a part of it. -/
theorem writeNewHead_faults {position : Nat} (settable : bdef.Settable) :
    UnderFaults platform file (writeNewHead position bdef) fun rval after past => past = [] ∧
      (rval = .success → after = patch file position (newHead bdef) ∧
        position + (newHead bdef).length ≤ offMax) ∧
      ∃ part, after = patch file position part := by
  rw [writeNewHead, blocksSetInfoBlockStruct_eq bdef settable, ret_bind]
  refine blocksWriteBlockHead_faults.mono fun rval after past written => ?_
  refine ⟨written.silent, fun success => ?_, ?_⟩
  · obtain ⟨start, time, same, bound, rfl⟩ := written.whole success
    obtain rfl : position = start := Int.natCast_inj.mp same
    rw [writtenBytes, writeLength_newHead settable, Nat.sub_self, List.take_length]
    rw [writeLength_newHead settable] at bound
    exact ⟨congrArg (patch file position) (List.append_nil _), bound⟩
  · by_cases success : rval = .success
    · obtain ⟨start, time, same, -, rfl⟩ := written.whole success
      obtain rfl : position = start := Int.natCast_inj.mp same
      exact ⟨_, rfl⟩
    · obtain ⟨time, count, rfl⟩ := written.part success
      exact ⟨_, by rw [Int.toNat_natCast]⟩

/-- The body of an append under faults. -/
theorem appendBlock_faults (settable : bdef.Settable) :
    UnderFaults platform file (appendBlock handle bdef) fun result after past =>
      past = [] ∧ Appended file handle bdef result after := by
  -- a failed append delivers the definition as it was given
  have failing {rval : RndError} {after : List UInt8} (bad : rval ≠ .success)
      (keeps : KeepsFront bdef.blockSize.toNat file after)
      (only : ¬ Aligned handle file → after = file) :
      Appended file handle bdef (rval, bdef) after :=
    ⟨keeps, fun off => ⟨bad, only off⟩, fun success => absurd success bad, fun _ => rfl⟩
  refine UnderFaults.assert_bind fun _ => UnderFaults.primeHandle_bind
    (UnderFaults.bind measureEnd_faults ?_)
  rintro ⟨original, place⟩ after _ ⟨rfl, rfl, measured⟩
  dsimp only at measured ⊢
  by_cases lost : place = -1
  · rw [if_pos lost]
    refine UnderFaults.keepErrno_bind ?_
    split
    · exact UnderFaults.fseek_bind fun _ => UnderFaults.ret
        ⟨rfl, failing RndError.noConfusion (KeepsFront.refl _ _) fun _ => rfl⟩
    · exact UnderFaults.ret ⟨rfl, failing RndError.noConfusion (KeepsFront.refl _ _) fun _ => rfl⟩
  obtain rfl := measured.resolve_left lost
  rw [if_neg lost]
  refine UnderFaults.bind blocksExtendFile_faults ?_
  rintro rval grown _ ⟨⟨rfl, keeps, whole⟩, refused⟩
  by_cases success : rval = .success
  · subst success
    obtain rfl := whole rfl
    refine UnderFaults.bind (writeNewHead_faults settable) ?_
    rintro code final _ ⟨rfl, complete, part, partly⟩
    refine UnderFaults.fseek_bind fun _ => ?_
    have kept : KeepsFront bdef.blockSize.toNat after final := by
      rw [partly]
      exact keeps.patch_later part (Nat.le_refl _)
    have aligned : ¬ ¬ Aligned handle after := fun off => (refused off).1 rfl
    by_cases written : code = .success
    · subst written
      obtain ⟨same, bound⟩ := complete rfl
      have header := newHead_ge bdef
      rw [if_pos rfl]
      refine UnderFaults.ret ⟨rfl, kept, fun off => absurd off aligned, fun _ => ⟨?_, same, by omega⟩,
        fun bad => absurd rfl bad⟩
      rw [RndBlockDef.placed, UInt32.toNat_toUInt64]
    · rw [if_neg written]
      exact UnderFaults.ret ⟨rfl, failing written kept fun off => absurd off aligned⟩
  · have answer : UnderFaults platform grown (fseek original .seekSet >>= fun _ =>
        if rval = .success then pure (.success, { bdef with
          newBlock := ⟨after.length, bdef.blockSize.toUInt64.toNat⟩ })
        else pure (rval, bdef) : Prog (RndError × RndBlockDef))
        fun result final past => past = [] ∧ Appended after handle bdef result final := by
      refine UnderFaults.fseek_bind fun _ => ?_
      rw [if_neg success]
      exact UnderFaults.ret ⟨rfl, failing success keeps fun off => (refused off).2⟩
    cases rval with
    | success => exact absurd rfl success
    | _ => exact answer

/-- An append under faults. -/
theorem blocksAppendBlock_faults (settable : bdef.Settable) :
    UnderFaults platform file (blocksAppendBlock handle bdef) fun result after past =>
      past = [.appendEntered, .appendLeft result.1 result.2.newBlock] ∧
        Appended file handle bdef result after := by
  refine UnderFaults.note_bind (UnderFaults.bind (appendBlock_faults settable) ?_)
  rintro ⟨rval, made⟩ after _ ⟨rfl, appended⟩
  exact UnderFaults.note_bind (UnderFaults.ret ⟨rfl, appended⟩)

end Append

/-! ## Linking under faults -/

/-- What the buffer for the old end of the chain holds behind the header it read. -/
def linkTail (bdef : RndBlockDef) : List UInt8 :=
  if bdef.blockType = .file then newFileTail bdef else []

/-- The length of the write that links a block. -/
def linkLength (file : List UInt8) (offset : Nat) (bdef : RndBlockDef) : Nat :=
  max (blocksBytesToData (headAt file offset).blockType).toNat
    (blocksBytesToData bdef.blockType.code).toNat

section Link

variable {platform : Platform} {file : List UInt8} {handle : Rndh} {bdef : RndBlockDef}
variable {chainEnd : OffT}

/-- The bytes of a new header behind its `INFO_BLOCK`. -/
theorem linkTail_length (settable : bdef.Settable) :
    32 + (linkTail bdef).length = (blocksBytesToData bdef.blockType.code).toNat := by
  rw [← newHead_length bdef settable, newHead, List.length_append, InfoBlock.toBytes_length]
  rfl

/-- The buffer after the old header was read over the new one. -/
theorem readOver {start : Nat} (inside : start + 32 ≤ file.length) :
    patch (newHead bdef) 0 (slice file start 32) = slice file start 32 ++ linkTail bdef :=
  patch_front (by rw [slice_length_inside inside, InfoBlock.toBytes_length])

/-- The buffer with the link set. -/
theorem linkOver {start : Nat} (inside : start + 32 ≤ file.length) (newBlock : BlockLoc) :
    blocksUpdateLinkWithChild (slice file start 32 ++ linkTail bdef) newBlock =
      { headAt file start with nextBlock := newBlock }.toBytes ++ linkTail bdef := by
  have bound : 16 + newBlock.toBytes.length ≤ (slice file start 32).length := by
    rw [slice_length_inside inside, BlockLoc.toBytes_length]
  rw [blocksUpdateLinkWithChild, patch_append_left _ bound, ← toBytes_headAt inside,
    InfoBlock.toBytes_link]

/-- The bytes that linking writes: the header with its link, what the buffer holds
behind it, and memory as far as the write is longer. -/
def linkBytes (platform : Platform) (time : Nat) (file : List UInt8) (start : Nat)
    (bdef : RndBlockDef) : List UInt8 :=
  { headAt file start with nextBlock := bdef.newBlock }.toBytes ++ linkTail bdef ++
    adjacentBytes (platform.memory time)
      (linkLength file start bdef - (blocksBytesToData bdef.blockType.code).toNat)

/-- What linking leaves: its bytes over a header without a link, or the first of
them. -/
structure LinkWritten (platform : Platform) (file : List UInt8) (chainEnd : OffT)
    (bdef : RndBlockDef) (rval : RndError) (after : List UInt8) (past : List Event) : Prop where
  silent : past = []
  whole : rval = .success → ∃ start time : Nat, chainEnd = start ∧
    start + 32 ≤ file.length ∧ (headAt file start).nextBlock.offset = 0 ∧
    after = patch file start (linkBytes platform time file start bdef)
  part : rval ≠ .success → after = file ∨ ∃ start time count : Nat, chainEnd = start ∧
    start + 32 ≤ file.length ∧
    after = patch file start ((linkBytes platform time file start bdef).take count)

/-- The linking of a new block under faults. -/
theorem linkNewBlock_faults (settable : bdef.Settable) (fits : bdef.newBlock.Fits) :
    UnderFaults platform file (linkNewBlock chainEnd bdef)
      (LinkWritten platform file chainEnd bdef) := by
  have failed {rval : RndError} (bad : rval ≠ .success) :
      LinkWritten platform file chainEnd bdef rval file [] :=
    ⟨rfl, fun success => absurd success bad, fun _ => .inl rfl⟩
  rw [linkNewBlock, blocksSetInfoBlockStruct_eq bdef settable, ret_bind, blocksReadBlockHead]
  have headSize : min sizeofInfoBlock (blocksBytesToData bdef.blockType.code).toNat = 32 := by
    have := linkTail_length settable
    exact Nat.min_eq_left (by omega : 32 ≤ (blocksBytesToData bdef.blockType.code).toNat)
  rw [headSize, bind_assoc]
  refine UnderFaults.seekRead_bind (fun start inside same => ?_)
    (UnderFaults.kept_error (failed RndError.noConfusion))
  dsimp only
  rw [Program.pure_eq_ret, ret_bind]
  dsimp only
  rw [if_neg (not_not_intro rfl), readOver inside]
  have pointed : blocksBlockPointsToChildTest (slice file start 32 ++ linkTail bdef) =
      ((headAt file start).nextBlock.offset != 0) := by
    rw [blocksBlockPointsToChildTest, InfoBlock.ofBytes_append (slice_length_inside inside)]
  rw [pointed]
  split
  · exact UnderFaults.ret (failed RndError.noConfusion)
  rename_i free
  rw [linkOver inside]
  have length : writeLength ({ headAt file start with nextBlock := bdef.newBlock }.toBytes ++
      linkTail bdef) (blocksBytesToData bdef.blockType.code).toNat = linkLength file start bdef := by
    rw [writeLength, InfoBlock.ofBytes_append (InfoBlock.toBytes_length _),
      InfoBlock.ofBytes_toBytes fits, linkLength]
  have bytes (time : Nat) : writtenBytes platform time
      ({ headAt file start with nextBlock := bdef.newBlock }.toBytes ++ linkTail bdef)
      (blocksBytesToData bdef.blockType.code).toNat =
        linkBytes platform time file start bdef := by
    have buffer : ({ headAt file start with nextBlock := bdef.newBlock }.toBytes ++
        linkTail bdef).length = (blocksBytesToData bdef.blockType.code).toNat := by
      rw [List.length_append, InfoBlock.toBytes_length, linkTail_length settable]
    rw [writtenBytes, length, List.take_of_length_le, buffer, linkBytes]
    rw [buffer]
    exact Nat.le_max_right _ _
  refine blocksWriteBlockHead_faults.mono fun rval after past written => ⟨written.silent, ?_, ?_⟩
  · intro success
    obtain ⟨place, time, here, -, rfl⟩ := written.whole success
    obtain rfl : start = place := Int.natCast_inj.mp (same.symm.trans here)
    exact ⟨start, time, same, inside, by simpa using free, by rw [bytes]⟩
  · intro bad
    obtain ⟨time, count, rfl⟩ := written.part bad
    refine .inr ⟨start, time, count, same, inside, ?_⟩
    rw [bytes, same, Int.toNat_natCast]

/-- What an extension leaves and delivers, by its result. -/
structure ChainGrown (platform : Platform) (file : List UInt8) (handle : Rndh) (chainEnd : OffT)
    (bdef : RndBlockDef) (result : RndError × RndBlockDef) (after : List UInt8) : Prop where
  whole : result.1 = .success → result.2 = bdef.placed file ∧ file.length + 32 ≤ offMax ∧
    ∃ start time : Nat, chainEnd = start ∧ start + 32 ≤ (appended file bdef).length ∧
      (headAt (appended file bdef) start).nextBlock.offset = 0 ∧
      after = patch (appended file bdef) start
        (linkBytes platform time (appended file bdef) start (bdef.placed file))
  failed : result.1 ≠ .success → ∃ middle : List UInt8,
    KeepsFront bdef.blockSize.toNat file middle ∧
    (after = middle ∨ ∃ start time count : Nat, chainEnd = start ∧ start + 32 ≤ middle.length ∧
      after = patch middle start
        ((linkBytes platform time middle start (bdef.placed file)).take count))
  refused : ¬ Aligned handle file → result.1 ≠ .success ∧ after = file

/-- An extension of a chain under faults. -/
theorem blocksExtendChain_faults (settable : bdef.Settable) :
    UnderFaults platform file (blocksExtendChain handle chainEnd bdef) fun result after past =>
      (∃ code, past = [.appendEntered, .appendLeft code result.2.newBlock]) ∧
        ChainGrown platform file handle chainEnd bdef result after := by
  refine UnderFaults.primeHandle_bind (UnderFaults.bind (blocksAppendBlock_faults settable) ?_)
  rintro ⟨rval, made⟩ grown _ ⟨rfl, appended⟩
  dsimp only
  by_cases success : rval = .success
  · subst success
    obtain ⟨rfl, rfl, bound⟩ := appended.whole rfl
    have size : (bdef.placed file).newBlock.Fits := by
      refine BlockLoc.fits_of_lt ?_ (bdef.blockSize.toNat_lt.trans (by decide))
      rw [offMax] at bound
      omega
    rw [if_neg (not_not_intro rfl)]
    refine UnderFaults.bind (linkNewBlock_faults (by exact settable) size) ?_
    rintro code after _ written
    obtain rfl := written.silent
    refine UnderFaults.ret ⟨⟨_, rfl⟩, fun complete => ⟨rfl, bound, written.whole complete⟩, ?_, ?_⟩
    · intro bad
      exact ⟨_, appended.front, written.part bad⟩
    · intro off
      exact absurd rfl (appended.refused off).1
  · rw [if_pos success]
    refine UnderFaults.ret ⟨⟨_, rfl⟩, fun complete => absurd complete success, fun _ => ?_,
      appended.refused⟩
    exact ⟨grown, appended.front, .inl rfl⟩

end Link

end Recnodb
