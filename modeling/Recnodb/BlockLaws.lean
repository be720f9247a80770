import Recnodb.FileLogic

/-!
# Blocks on a file on which nothing fails

What the functions of `blocks.c` return, write and pass when no file operation
fails. A block is appended only at a multiple of the chunk size; elsewhere the
attempt is refused before anything is written.
-/

namespace Recnodb

open Interaction Octets Program

/-- The `INFO_BLOCK` of a new block. -/
def newInfoBlock (bdef : RndBlockDef) : InfoBlock where
  blockType := bdef.blockType.code
  bytesToData := blocksBytesToData bdef.blockType.code
  blockSize := bdef.blockSize
  firstRecno := 0
  nextBlock := ⟨0, 0⟩

/-- What follows the `INFO_BLOCK` of a new file block. -/
def newFileTail (bdef : RndBlockDef) : List UInt8 :=
  (InfoChain.mk 0 0 0).toBytes ++
    ((InfoTable.mk bdef.recSize 0).toBytes ++ (InfoFile.mk rndb bdef.chunkSize).toBytes)

/-- The header of a new block. -/
def newHead (bdef : RndBlockDef) : List UInt8 :=
  (newInfoBlock bdef).toBytes ++ if bdef.blockType = .file then newFileTail bdef else []

/-- A definition for which the header is set in a buffer of its own length: the
header of a table block would be written beyond its buffer. -/
def RndBlockDef.Settable (bdef : RndBlockDef) : Prop :=
  bdef.blockType ≠ .table ∧ (bdef.blockType = .file → bdef.chunkSize ≠ 0)

/-- The members behind the `INFO_BLOCK` have 40 bytes. -/
@[simp] theorem newFileTail_length (bdef : RndBlockDef) : (newFileTail bdef).length = 40 := by
  simp [newFileTail, InfoFile.toBytes, rndb]

/-- A new header has the length of its type. -/
theorem newHead_length (bdef : RndBlockDef) (settable : bdef.Settable) :
    (newHead bdef).length = (blocksBytesToData bdef.blockType.code).toNat := by
  obtain ⟨type, size, rec, chunk, loc⟩ := bdef
  cases type with
  | table => exact absurd rfl settable.1
  | file => simp [newHead, blocksBytesToData, BType.code]
  | _ => simp [newHead, blocksBytesToData, BType.code]

/-! ## Stores of a preparation -/

section Stores

variable {blockHeadSize : Nat} {bdef : RndBlockDef}

/-- The stores of the members of an `INFO_BLOCK`. -/
def infoStores (blockHeadSize : Nat) (bdef : RndBlockDef) : List UInt8 :=
  patch (patch (patch (List.replicate blockHeadSize 0) 0 (encode 2 bdef.blockType.code.toNat)) 2
    (encode 2 (blocksBytesToData bdef.blockType.code).toNat)) 4 (encode 4 bdef.blockSize.toNat)

/-- The stores of the members behind it. -/
def fileStores (bdef : RndBlockDef) (info : List UInt8) : List UInt8 :=
  patch (patch (patch info 56 (encode 4 bdef.recSize.toNat)) 68 (encode 4 bdef.chunkSize.toNat)) 64
    rndb

/-- The stores reach into the front of a longer buffer only. -/
theorem infoStores_long (enough : 32 ≤ blockHeadSize) : infoStores blockHeadSize bdef =
    (newInfoBlock bdef).toBytes ++ List.replicate (blockHeadSize - 32) 0 := by
  have front : infoStores 32 bdef = (newInfoBlock bdef).toBytes := by
    simp [infoStores, newInfoBlock, InfoBlock.toBytes, BlockLoc.toBytes, patch, List.replicate,
      encodeSigned, encode]
  have split : List.replicate blockHeadSize (0 : UInt8) =
      List.replicate 32 0 ++ List.replicate (blockHeadSize - 32) 0 := by
    rw [List.replicate_append_replicate, Nat.add_sub_cancel' enough]
  have first := @patch_length_inside (List.replicate 32 0) 0
    (encode 2 bdef.blockType.code.toNat) (by simp)
  have second := @patch_length_inside _ 2
    (encode 2 (blocksBytesToData bdef.blockType.code).toNat) (by rw [first]; simp)
  rw [← front, infoStores, split, patch_append_left _ (by simp),
    patch_append_left _ (by rw [first]; simp),
    patch_append_left _ (by rw [second, first]; simp)]
  rfl

/-- The stores for a file header, in a buffer that has room for them. -/
theorem fileStores_long (type : bdef.blockType = .file) (enough : 72 ≤ blockHeadSize) :
    fileStores bdef (infoStores blockHeadSize bdef) =
      newHead bdef ++ List.replicate (blockHeadSize - 72) 0 := by
  have front : fileStores bdef ((newInfoBlock bdef).toBytes ++ List.replicate 40 0) =
    newHead bdef := by
    simp [fileStores, newHead, type, newFileTail, InfoBlock.toBytes, InfoChain.toBytes,
      InfoTable.toBytes, InfoFile.toBytes, BlockLoc.toBytes, patch, rndb, List.replicate,
      encodeSigned, encode]
  have split : List.replicate (blockHeadSize - 32) (0 : UInt8) =
      List.replicate 40 0 ++ List.replicate (blockHeadSize - 72) 0 := by
    rw [List.replicate_append_replicate]
    congr 1
    omega
  have first := @patch_length_inside ((newInfoBlock bdef).toBytes ++ List.replicate 40 0) 56
    (encode 4 bdef.recSize.toNat) (by simp)
  have second := @patch_length_inside _ 68 (encode 4 bdef.chunkSize.toNat) (by rw [first]; simp)
  rw [infoStores_long (by omega), split, ← List.append_assoc, ← front, fileStores,
    patch_append_left _ (by simp), patch_append_left _ (by rw [first]; simp),
    patch_append_left _ (by rw [second, first]; simp [rndb])]
  rfl

/-- The preparation of a header that is an `INFO_BLOCK` alone. -/
theorem blocksSetInfoBlock_short (short : blocksBytesToData bdef.blockType.code = 32)
    (enough : 32 ≤ blockHeadSize) :
    blocksSetInfoBlock blockHeadSize bdef.blockType bdef.blockSize bdef.recSize bdef.chunkSize =
      .ret (infoStores blockHeadSize bdef) := by
  have fits : cAssert (decide ((32 : UInt16).toNat ≤ blockHeadSize)) = .ret () := by
    rw [decide_eq_true (show (32 : UInt16).toNat ≤ blockHeadSize from enough)]
    rfl
  simp only [blocksSetInfoBlock, infoStores, short]
  rw [fits, ret_bind, if_neg (by decide)]
  rfl

/-- The preparation of a longer header asserts a chunk size, for a table as well. -/
theorem blocksSetInfoBlock_long (long : 32 < (blocksBytesToData bdef.blockType.code).toNat)
    (enough : (blocksBytesToData bdef.blockType.code).toNat ≤ blockHeadSize) :
    blocksSetInfoBlock blockHeadSize bdef.blockType bdef.blockSize bdef.recSize bdef.chunkSize =
      if bdef.chunkSize ≠ 0 then .ret (fileStores bdef (infoStores blockHeadSize bdef))
      else .stop .assertion := by
  have fits : cAssert (decide ((blocksBytesToData bdef.blockType.code).toNat ≤ blockHeadSize)) =
      .ret () := by
    rw [decide_eq_true enough]
    rfl
  simp only [blocksSetInfoBlock]
  rw [fits, ret_bind, if_pos long, if_pos (Nat.lt_trans (by decide : sizeofInfoTable < 32) long)]
  by_cases given : bdef.chunkSize ≠ 0
  · rw [if_pos given, decide_eq_true given]
    rfl
  · rw [if_neg given, decide_eq_false given]
    rfl

end Stores

/-- A new header has a link that fits its fields. -/
theorem newInfoBlock_fits (bdef : RndBlockDef) : (newInfoBlock bdef).nextBlock.Fits := by
  simp [newInfoBlock, BlockLoc.Fits]

/-- A new header is read as it was set. -/
theorem ofBytes_newHead (bdef : RndBlockDef) :
    InfoBlock.ofBytes (newHead bdef) = newInfoBlock bdef := by
  rw [newHead, InfoBlock.ofBytes_append (InfoBlock.toBytes_length _),
    InfoBlock.ofBytes_toBytes (newInfoBlock_fits bdef)]

/-- The header buffer of a new block, as a value. -/
theorem blocksSetInfoBlockStruct_eq (bdef : RndBlockDef) (settable : bdef.Settable) :
    blocksSetInfoBlockStruct (blocksBytesToData bdef.blockType.code).toNat bdef =
      .ret (newHead bdef) := by
  rw [blocksSetInfoBlockStruct]
  by_cases file : bdef.blockType = .file
  · have long : (blocksBytesToData bdef.blockType.code).toNat = 72 := by
      rw [file]
      rfl
    rw [long, blocksSetInfoBlock_long (by omega) (by omega), if_pos (settable.2 file),
      fileStores_long file (Nat.le_refl 72)]
    exact congrArg Program.ret (List.append_nil _)
  · have short : blocksBytesToData bdef.blockType.code = 32 := by
      cases type : bdef.blockType with
      | table => exact absurd type settable.1
      | file => exact absurd type file
      | _ => rfl
    have size : (blocksBytesToData bdef.blockType.code).toNat = 32 := congrArg UInt16.toNat short
    rw [size, blocksSetInfoBlock_short short (Nat.le_refl 32), infoStores_long (Nat.le_refl 32),
      newHead, if_neg file]
    rfl

/-- The distance to the last byte of a block, as the source computes it. That of an
empty block is `-1`. -/
theorem lastByte (blockSize : UInt32) :
    (blockSize.toUInt64 - 1).toInt64.toInt = (blockSize.toNat : Int) - 1 := by
  by_cases zero : blockSize = 0
  · subst zero
    decide
  · have positive : 0 < blockSize.toNat :=
      Nat.pos_of_ne_zero fun none => zero (UInt32.toNat.inj none)
    have bound := blockSize.toNat_lt
    have value : (blockSize.toUInt64 - 1).toNat = blockSize.toNat - 1 := by
      rw [UInt64.toNat_sub_of_le]
      · simp
      · rw [UInt64.le_iff_toNat_le]
        simpa using Nat.succ_le_of_lt positive
    change (blockSize.toUInt64 - 1).toBitVec.toInt = _
    change (blockSize.toUInt64 - 1).toBitVec.toNat = _ at value
    rw [BitVec.toInt_eq_toNat_cond, value, if_pos (by omega)]
    omega

/-- The last byte of a block that starts at the end of the file. -/
theorem endByte (length : Nat) (blockSize : UInt32) :
    ((length : Int) + (blockSize.toUInt64 - 1).toInt64.toInt).toNat =
      length + blockSize.toNat - 1 := by
  rw [lastByte]
  omega

/-- A location is accepted exactly at the multiples of the chunk size. -/
theorem location_valid (handle : Rndh) (length : Nat) :
    blocksValidateNewBlockLocation handle length =
      decide (length % handle.headFile.fhead.chunkSize.toNat = 0) := by
  have cast : ((length % handle.headFile.fhead.chunkSize.toNat : Nat) : Int) = 0 ↔
      length % handle.headFile.fhead.chunkSize.toNat = 0 := by omega
  rw [blocksValidateNewBlockLocation, blocksHandleChunkSize, blocksHeadFileChunkSize,
    ← Int.ofNat_tmod, Bool.eq_iff_iff]
  simp only [beq_iff_eq, decide_eq_true_eq, cast]

/-- The end of the file is a place for a new block. -/
def Aligned (handle : Rndh) (file : List UInt8) : Prop :=
  file.length % handle.headFile.fhead.chunkSize.toNat = 0

instance (handle : Rndh) (file : List UInt8) : Decidable (Aligned handle file) :=
  inferInstanceAs (Decidable (_ = _))

/-- The file behind an appended block. -/
def appended (file : List UInt8) (bdef : RndBlockDef) : List UInt8 :=
  patch (patch file (file.length + bdef.blockSize.toNat - 1) [0]) file.length (newHead bdef)

/-- The definition as an append at the end of the file delivers it. -/
def RndBlockDef.placed (bdef : RndBlockDef) (file : List UInt8) : RndBlockDef :=
  { bdef with newBlock := ⟨file.length, bdef.blockSize.toNat⟩ }

section Append

variable {memory : Nat → Nat → UInt8} {file : List UInt8} {handle : Rndh} {bdef : RndBlockDef}

/-- At a place that is accepted the end of the new block is written. -/
theorem blocksExtendFile_aligned (valid : blocksValidateHandle (some handle) = .success)
    (aligned : Aligned handle file) :
    OnFile memory file (blocksExtendFile handle bdef.blockSize.toUInt64) fun rval after past =>
      rval = .success ∧ after = patch file (file.length + bdef.blockSize.toNat - 1) [0] ∧
        past = [] := by
  refine OnFile.assert_bind (by simp [valid]) (OnFile.primeHandle_bind
    (OnFile.of_stream fun position => ?_))
  refine @OnStream.fseek_end_bind _ _ _ _ _ _ file.length _ (by simp) (OnStream.ftell_bind ?_)
  rw [if_pos ((location_valid handle file.length).trans (decide_eq_true aligned))]
  refine OnStream.fseek_end_bind (endByte file.length bdef.blockSize) (OnStream.fwrite_bind ?_)
  exact OnStream.fseek_bind rfl (OnStream.of_file (OnFile.ret ⟨rfl, rfl, rfl⟩))

/-- At any other place nothing is written. -/
theorem blocksExtendFile_misaligned {bytesToAdd : UInt64}
    (valid : blocksValidateHandle (some handle) = .success) (misaligned : ¬ Aligned handle file) :
    OnFile memory file (blocksExtendFile handle bytesToAdd) fun rval after past =>
      rval = .invalidBlockLocation ∧ after = file ∧ past = [] := by
  refine OnFile.assert_bind (by simp [valid]) (OnFile.primeHandle_bind
    (OnFile.of_stream fun position => ?_))
  refine @OnStream.fseek_end_bind _ _ _ _ _ _ file.length _ (by simp) (OnStream.ftell_bind ?_)
  have refused : blocksValidateNewBlockLocation handle file.length = false :=
    (location_valid handle file.length).trans (decide_eq_false misaligned)
  rw [refused, if_neg Bool.false_ne_true]
  exact OnStream.of_file (OnFile.ret ⟨rfl, rfl, rfl⟩)

/-- A position is never the `-1` of a failed `ftell`. -/
theorem position_known (position : Nat) : (position : OffT) ≠ -1 := by
  unfold OffT
  omega

/-- The two measurements deliver the position and the length. -/
theorem measureEnd_spec :
    OnFile memory file measureEnd fun ends after past =>
      (∃ original : Nat, ends = ((original : OffT), (file.length : OffT))) ∧ after = file ∧
        past = [] := by
  refine OnFile.of_stream fun position => OnStream.ftell_bind ?_
  rw [if_neg (position_known position)]
  refine @OnStream.fseek_end_bind _ _ _ _ _ _ file.length _ (by simp) (OnStream.ftell_bind ?_)
  exact OnStream.of_file (OnFile.ret ⟨⟨position, rfl⟩, rfl, rfl⟩)

/-- A write of a whole header buffer. -/
theorem blocksWriteBlockHead_whole {offset infoLen : Nat} {block : List UInt8}
    (whole : (if (blocksBytesToData (InfoBlock.ofBytes block).blockType).toNat < infoLen then infoLen
      else (blocksBytesToData (InfoBlock.ofBytes block).blockType).toNat) = block.length) :
    OnFile memory file (blocksWriteBlockHead offset block infoLen) fun rval after past =>
      rval = .success ∧ after = patch file offset block ∧ past = [] := by
  refine OnFile.of_stream fun position => OnStream.fseek_bind (Int.toNat_natCast offset) ?_
  dsimp only
  rw [whole, bufferBytes, if_pos (Nat.le_refl _), List.take_length]
  exact OnStream.fwrite_bind (OnStream.of_file (OnFile.ret ⟨rfl, rfl, rfl⟩))

/-- A write of more than the buffer holds takes the rest from the memory next to it. -/
theorem blocksWriteBlockHead_over {offset infoLen : Nat} {block : List UInt8} {headLength : Nat}
    (type : (blocksBytesToData (InfoBlock.ofBytes block).blockType).toNat = headLength)
    (longer : infoLen ≤ headLength) (exceeds : block.length < headLength) :
    OnFile memory file (blocksWriteBlockHead offset block infoLen) fun rval after past =>
      rval = .success ∧ past = [] ∧ ∃ beyond : List UInt8,
        beyond.length = headLength - block.length ∧ after = patch file offset (block ++ beyond) := by
  refine OnFile.of_stream fun position => OnStream.fseek_bind (Int.toNat_natCast offset) ?_
  dsimp only
  rw [type, if_neg (Nat.not_lt.mpr longer), bufferBytes, if_neg (Nat.not_le.mpr exceeds)]
  refine OnStream.adjacent_bind fun beyond => OnStream.fwrite_bind (OnStream.of_file ?_)
  exact OnFile.ret ⟨rfl, rfl, beyond.val, beyond.property, rfl⟩

/-- The header of a new block is written whole. -/
theorem writeNewHead_spec {position : Nat} (settable : bdef.Settable) :
    OnFile memory file (writeNewHead position bdef) fun rval after past =>
      rval = .success ∧ after = patch file position (newHead bdef) ∧ past = [] := by
  rw [writeNewHead, blocksSetInfoBlockStruct_eq bdef settable, ret_bind]
  refine blocksWriteBlockHead_whole ?_
  rw [ofBytes_newHead, newInfoBlock, if_neg (Nat.lt_irrefl _), newHead_length bdef settable]

/-- An append at a multiple of the chunk size. -/
theorem blocksAppendBlock_aligned (valid : blocksValidateHandle (some handle) = .success)
    (settable : bdef.Settable) (aligned : Aligned handle file) :
    OnFile memory file (blocksAppendBlock handle bdef) fun result after past =>
      result = (.success, bdef.placed file) ∧ after = appended file bdef ∧
        past = [.appendEntered, .appendLeft .success ⟨file.length, bdef.blockSize.toNat⟩] := by
  refine OnFile.note_bind (@OnFile.bind_eq _ _ _ _ _ _ (.success, bdef.placed file)
    (appended file bdef) [] _ ?_ (OnFile.note_bind (OnFile.ret ⟨rfl, rfl, rfl⟩)))
  refine OnFile.assert_bind (by simp [valid]) (OnFile.primeHandle_bind
    (OnFile.bind measureEnd_spec ?_))
  rintro _ file _ ⟨⟨original, rfl⟩, rfl, rfl⟩
  dsimp only
  rw [if_neg (position_known file.length)]
  refine OnFile.bind_eq (blocksExtendFile_aligned valid aligned) ?_
  refine OnFile.bind_eq (writeNewHead_spec settable) (OnFile.fseek_bind ?_)
  rw [if_pos rfl]
  refine OnFile.ret ⟨?_, rfl, rfl⟩
  simp [RndBlockDef.placed]

/-- An append elsewhere is refused. -/
theorem blocksAppendBlock_misaligned (valid : blocksValidateHandle (some handle) = .success)
    (misaligned : ¬ Aligned handle file) :
    OnFile memory file (blocksAppendBlock handle bdef) fun result after past =>
      result = (.invalidBlockLocation, bdef) ∧ after = file ∧
        past = [.appendEntered, .appendLeft .invalidBlockLocation bdef.newBlock] := by
  refine OnFile.note_bind (@OnFile.bind_eq _ _ _ _ _ _ (.invalidBlockLocation, bdef) file [] _
    ?_ (OnFile.note_bind (OnFile.ret ⟨rfl, rfl, rfl⟩)))
  refine OnFile.assert_bind (by simp [valid]) (OnFile.primeHandle_bind
    (OnFile.bind measureEnd_spec ?_))
  rintro _ file _ ⟨⟨original, rfl⟩, rfl, rfl⟩
  dsimp only
  rw [if_neg (position_known file.length)]
  refine OnFile.bind_eq (blocksExtendFile_misaligned valid misaligned) (OnFile.fseek_bind ?_)
  exact OnFile.ret ⟨rfl, rfl, rfl⟩

end Append

/-! ## Linking -/

/-- The header of the block at an offset. -/
abbrev headAt (file : List UInt8) (offset : Nat) : InfoBlock :=
  InfoBlock.ofBytes (slice file offset 32)

/-- How many bytes of a header are written beyond its `INFO_BLOCK`. -/
def overrun (type : UInt16) : Nat := (blocksBytesToData type).toNat - 32

/-- The file after the header at an offset was rewritten with a link, followed by
some bytes. -/
def linked (file : List UInt8) (offset : Nat) (newBlock : BlockLoc) (beyond : List UInt8) :
    List UInt8 :=
  patch file offset ({ headAt file offset with nextBlock := newBlock }.toBytes ++ beyond)

/-- A block whose header is an `INFO_BLOCK` alone. -/
def RndBlockDef.Short (bdef : RndBlockDef) : Prop :=
  bdef.blockType = .data ∨ bdef.blockType = .generic

/-- A short header can always be set. -/
theorem RndBlockDef.Short.settable {bdef : RndBlockDef} (short : bdef.Short) : bdef.Settable := by
  rcases short with data | generic
  · exact ⟨by simp [data], by simp [data]⟩
  · exact ⟨by simp [generic], by simp [generic]⟩

/-- A short header has 32 bytes. -/
theorem RndBlockDef.Short.headSize {bdef : RndBlockDef} (short : bdef.Short) :
    (blocksBytesToData bdef.blockType.code).toNat = 32 := by
  rcases short with data | generic
  · rw [data]
    rfl
  · rw [generic]
    rfl

/-- A short header is its `INFO_BLOCK`. -/
theorem RndBlockDef.Short.newHead_eq {bdef : RndBlockDef} (short : bdef.Short) :
    newHead bdef = (newInfoBlock bdef).toBytes := by
  rcases short with data | generic
  · simp [newHead, data]
  · simp [newHead, generic]

section Link

variable {memory : Nat → Nat → UInt8} {file : List UInt8} {handle : Rndh} {bdef : RndBlockDef}
variable {offset : Nat}

/-- A header in the file, as it is stored. -/
theorem toBytes_headAt (inside : offset + 32 ≤ file.length) :
    (headAt file offset).toBytes = slice file offset 32 :=
  InfoBlock.toBytes_ofBytes (slice_length_inside inside)

/-- A read of a header into a buffer of its length. -/
theorem blocksReadBlockHead_spec {block : List UInt8} (length : block.length = 32)
    (inside : offset + 32 ≤ file.length) :
    OnFile memory file (blocksReadBlockHead offset block 32) fun result after past =>
      result = (.success, slice file offset 32) ∧ after = file ∧ past = [] := by
  refine OnFile.bind_eq (OnFile.seekRead inside) (OnFile.ret ⟨?_, rfl, rfl⟩)
  have whole := @patch_front block [] (slice file offset 32)
    (by rw [slice_length_inside inside, length])
  simpa using whole

/-- The child test looks at the link. -/
theorem points_headAt :
    blocksBlockPointsToChildTest (slice file offset 32) =
      ((headAt file offset).nextBlock.offset != 0) := rfl

/-- The header buffer with the link set. -/
theorem update_headAt (inside : offset + 32 ≤ file.length) (newBlock : BlockLoc) :
    blocksUpdateLinkWithChild (slice file offset 32) newBlock =
      { headAt file offset with nextBlock := newBlock }.toBytes := by
  rw [blocksUpdateLinkWithChild, ← toBytes_headAt inside, InfoBlock.toBytes_link]

/-- A header without a link is rewritten with one, and with whatever memory
follows its buffer when its type has a longer header. -/
theorem linkNewBlock_free (short : bdef.Short) (fits : bdef.newBlock.Fits)
    (inside : offset + 32 ≤ file.length) (free : (headAt file offset).nextBlock.offset = 0) :
    OnFile memory file (linkNewBlock offset bdef) fun rval after past =>
      rval = .success ∧ past = [] ∧ ∃ beyond : List UInt8,
        beyond.length = overrun (headAt file offset).blockType ∧
          after = linked file offset bdef.newBlock beyond := by
  have length : (newHead bdef).length = 32 := by
    rw [newHead_length bdef short.settable, short.headSize]
  rw [linkNewBlock, blocksSetInfoBlockStruct_eq bdef short.settable, ret_bind, short.headSize]
  refine OnFile.bind_eq (blocksReadBlockHead_spec length inside) ?_
  dsimp only
  rw [if_neg (not_not_intro rfl), points_headAt, free, update_headAt inside]
  have type : (InfoBlock.ofBytes
      { headAt file offset with nextBlock := bdef.newBlock }.toBytes).blockType =
        (headAt file offset).blockType := by
    rw [InfoBlock.ofBytes_toBytes fits]
  by_cases exceeds : 32 < (blocksBytesToData (headAt file offset).blockType).toNat
  · refine (blocksWriteBlockHead_over (congrArg _ (congrArg _ type)) exceeds.le
      (by simpa using exceeds)).mono ?_
    rintro rval after past ⟨success, silent, beyond, extra, written⟩
    refine ⟨success, silent, beyond, ?_, written⟩
    rw [extra, overrun, InfoBlock.toBytes_length]
  · refine (blocksWriteBlockHead_whole ?_).mono ?_
    · rw [type, InfoBlock.toBytes_length]
      split <;> omega
    · rintro rval after past ⟨success, written, silent⟩
      refine ⟨success, silent, [], ?_, ?_⟩
      · rw [overrun, List.length_nil]
        omega
      · rw [linked, List.append_nil]
        exact written

end Link

end Recnodb
