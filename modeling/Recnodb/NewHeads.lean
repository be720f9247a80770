import Recnodb.BlockLaws

/-!
# Headers of new blocks of any type

The preparation of a header stores the members behind `INFO_BLOCK` for table and file
blocks alike, although the buffer for a table block ends before the last of them. What
reaches the file is cut to the length of the type. Without a chunk size neither type
passes the assertion.
-/

namespace Recnodb

open Interaction Octets Program

/-- The types whose preparation stores the members of a file header. -/
def RndBlockDef.Long (bdef : RndBlockDef) : Prop :=
  bdef.blockType = .table ∨ bdef.blockType = .file

instance (bdef : RndBlockDef) : Decidable bdef.Long := inferInstanceAs (Decidable (_ ∨ _))

/-- The preparation passes its assertions. -/
def RndBlockDef.Preparable (bdef : RndBlockDef) : Prop := bdef.Long → bdef.chunkSize ≠ 0

instance (bdef : RndBlockDef) : Decidable bdef.Preparable := inferInstanceAs (Decidable (_ → _))

/-- What the preparation stores. -/
def headBuffer (bdef : RndBlockDef) : List UInt8 :=
  (newInfoBlock bdef).toBytes ++ if bdef.Long then newFileTail bdef else []

/-- The part of it that is written: the header of the type. -/
def storedHead (bdef : RndBlockDef) : List UInt8 :=
  (headBuffer bdef).take (blocksBytesToData bdef.blockType.code).toNat

variable {bdef : RndBlockDef}

/-- A definition whose header can be set passes the assertions. -/
theorem RndBlockDef.Settable.preparable (settable : bdef.Settable) : bdef.Preparable := by
  rintro (table | file)
  · exact absurd table settable.1
  · exact settable.2 file

/-- For such a definition the preparation stores the header of the type. -/
theorem headBuffer_settable (settable : bdef.Settable) : headBuffer bdef = newHead bdef := by
  have long : bdef.Long ↔ bdef.blockType = .file := or_iff_right settable.1
  simp only [headBuffer, newHead, long]

/-- The stores for a table header, the last of them behind the end of its buffer. -/
theorem tableHead_stores (table : bdef.blockType = .table) :
    fileStores bdef (infoStores 64 bdef) = headBuffer bdef := by
  rw [infoStores_long (by decide)]
  simp [fileStores, headBuffer, RndBlockDef.Long, table, newFileTail, InfoBlock.toBytes,
    InfoChain.toBytes, InfoTable.toBytes, InfoFile.toBytes, BlockLoc.toBytes, patch, rndb,
    List.replicate, encodeSigned, encode]

/-- A preparation that passes its assertions delivers what it stores. -/
theorem blocksSetInfoBlockStruct_prepared (preparable : bdef.Preparable) :
    blocksSetInfoBlockStruct (blocksBytesToData bdef.blockType.code).toNat bdef =
      .ret (headBuffer bdef) := by
  by_cases table : bdef.blockType = .table
  · have long : (blocksBytesToData bdef.blockType.code).toNat = 64 := by
      rw [table]
      rfl
    rw [blocksSetInfoBlockStruct, long, blocksSetInfoBlock_long (by omega) (by omega),
      if_pos (preparable (.inl table)), tableHead_stores table]
  · have settable : bdef.Settable := ⟨table, fun file => preparable (.inr file)⟩
    rw [blocksSetInfoBlockStruct_eq bdef settable, headBuffer_settable settable]

/-- A preparation that does not pass them stops. -/
theorem blocksSetInfoBlockStruct_refused (refused : ¬ bdef.Preparable) :
    blocksSetInfoBlockStruct (blocksBytesToData bdef.blockType.code).toNat bdef =
      .stop .assertion := by
  obtain ⟨long, zero⟩ := Classical.not_imp.mp refused
  have longer : 32 < (blocksBytesToData bdef.blockType.code).toNat := by
    rcases long with type | type
    · rw [type]
      decide
    · rw [type]
      decide
  rw [blocksSetInfoBlockStruct, blocksSetInfoBlock_long longer (Nat.le_refl _), if_neg zero]

/-- The preparation of a table or file block stores 72 bytes, that of any other 32. -/
theorem headBuffer_length : (headBuffer bdef).length = if bdef.Long then 72 else 32 := by
  rw [headBuffer, List.length_append, InfoBlock.toBytes_length]
  split
  · rw [newFileTail_length]
  · rfl

/-- The buffer is never shorter than the header of the type. -/
theorem headSize_le_buffer :
    (blocksBytesToData bdef.blockType.code).toNat ≤ (headBuffer bdef).length := by
  rw [headBuffer_length]
  obtain ⟨type, size, rec, chunk, loc⟩ := bdef
  cases type <;> simp [RndBlockDef.Long, blocksBytesToData, BType.code]

/-- What is written has the length of the header of the type. -/
theorem storedHead_length :
    (storedHead bdef).length = (blocksBytesToData bdef.blockType.code).toNat := by
  rw [storedHead, List.length_take, Nat.min_eq_left headSize_le_buffer]

/-- What the preparation stores begins with the `INFO_BLOCK` of the definition. -/
theorem ofBytes_headBuffer : InfoBlock.ofBytes (headBuffer bdef) = newInfoBlock bdef := by
  rw [headBuffer, InfoBlock.ofBytes_append (InfoBlock.toBytes_length _),
    InfoBlock.ofBytes_toBytes (newInfoBlock_fits bdef)]

/-- Every header holds at least an `INFO_BLOCK`. -/
theorem headSize_ge (type : UInt16) : 32 ≤ (blocksBytesToData type).toNat := by
  unfold blocksBytesToData
  split
  · decide
  · split <;> decide

end Recnodb
