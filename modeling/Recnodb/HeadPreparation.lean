import Recnodb.Appending
import Recnodb.Refusals

/-!
# Preparation of headers

What `blocks_set_info_block` makes of a buffer that holds at least the header of the
type. The members of an `INFO_BLOCK` and of a file header are stored where they belong
and the rest stays zero. The members of an `INFO_FILE` are guarded by the size of an
`INFO_TABLE` alone, which every longer header exceeds, so they are stored for a table
as well: over the end of its buffer, or in the bytes behind its header.
-/

namespace Recnodb

open Interaction Octets Program

/-- The header of the type includes an `INFO_TABLE`. -/
def RndBlockDef.IncludesTable (bdef : RndBlockDef) : Prop :=
  sizeofHeadTable ≤ (blocksBytesToData bdef.blockType.code).toNat

/-- The header of the type includes an `INFO_FILE`. -/
def RndBlockDef.IncludesFile (bdef : RndBlockDef) : Prop :=
  sizeofHeadFile ≤ (blocksBytesToData bdef.blockType.code).toNat

/-- The bytes of a header to which a preparation has something to store. -/
def RndBlockDef.Stored (bdef : RndBlockDef) (index : Nat) : Prop :=
  index < 8 ∨ (bdef.IncludesTable ∧ 56 ≤ index ∧ index < 60) ∨
    (bdef.IncludesFile ∧ 64 ≤ index ∧ index < 72)

/-- A prepared header: the members that the type has are set, every other byte is zero, and
nothing lies beyond the buffer. -/
structure HeadPrepared (blockHeadSize : Nat) (bdef : RndBlockDef) (buffer : List UInt8) : Prop where
  length : buffer.length = blockHeadSize
  info : InfoBlock.ofBytes buffer = newInfoBlock bdef
  table : bdef.IncludesTable → InfoTable.ofBytes (slice buffer 56 8) = ⟨bdef.recSize, 0⟩
  file : bdef.IncludesFile → InfoFile.ofBytes (slice buffer 64 8) = ⟨rndb, bdef.chunkSize⟩
  zeros : ∀ index, index < blockHeadSize → ¬ bdef.Stored index → buffer[index]? = some 0

/-- On a platform on which nothing fails, an append at a place for the block creates it. -/
def Creates (bdef : RndBlockDef) : Prop :=
  ∀ memory handle world, blocksValidateHandle (some handle) = .success →
    Aligned handle world.file → world.position ≤ offMax →
      world.file.length + bdef.blockSize.toNat ≤ offMax → ∃ after,
        run (posix (Platform.sound memory)) (blocksAppendBlock handle bdef) world =
            (.ok (.success, bdef.placed world.file), after) ∧
          BlockAppended world.file bdef after.file

/-- The preparation passes its assertions and stays inside its buffer, and a block that holds
its header can be created. -/
structure PreparationSafe (blockHeadSize : Nat) (bdef : RndBlockDef) : Prop where
  prepared : ∃ buffer, blocksSetInfoBlock blockHeadSize bdef.blockType bdef.blockSize bdef.recSize
    bdef.chunkSize = .ret buffer ∧ HeadPrepared blockHeadSize bdef buffer
  creates : (blocksBytesToData bdef.blockType.code).toNat ≤ bdef.blockSize.toNat → Creates bdef

variable {blockHeadSize : Nat} {bdef : RndBlockDef}

/-! ## Stores into a zeroed buffer -/

/-- A store elsewhere leaves a byte. -/
theorem patch_byte {bytes written : List UInt8} {start index : Nat} {byte : UInt8}
    (there : bytes[index]? = some byte) (apart : index < start ∨ start + written.length ≤ index) :
    (patch bytes start written)[index]? = some byte := by
  obtain ⟨inside, -⟩ := List.getElem?_eq_some_iff.mp there
  rw [patch_getElem?_outside inside apart, there]

theorem infoStores_zero {index : Nat} (inside : index < blockHeadSize) (behind : 8 ≤ index) :
    (infoStores blockHeadSize bdef)[index]? = some 0 := by
  have cleared : (List.replicate blockHeadSize (0 : UInt8))[index]? = some 0 := by
    rw [List.getElem?_replicate, if_pos inside]
  refine patch_byte (patch_byte (patch_byte cleared ?_) ?_) ?_
  all_goals
    rw [encode_length]
    omega

theorem fileStores_byte {info : List UInt8} {index : Nat} {byte : UInt8}
    (there : info[index]? = some byte) (apart : index < 56 ∨ 60 ≤ index)
    (before : index < 64 ∨ 72 ≤ index) : (fileStores bdef info)[index]? = some byte := by
  refine patch_byte (patch_byte (patch_byte there ?_) ?_) ?_
  · rw [encode_length]
    omega
  · rw [encode_length]
    omega
  · change index < 64 ∨ 64 + 4 ≤ index
    omega

/-! ## The preparation by type -/

theorem headPrepared_short (short : blocksBytesToData bdef.blockType.code = 32)
    (enough : 32 ≤ blockHeadSize) :
    HeadPrepared blockHeadSize bdef (infoStores blockHeadSize bdef) where
  length := by
    rw [infoStores_long enough, List.length_append, InfoBlock.toBytes_length, List.length_replicate]
    omega
  info := by
    rw [infoStores_long enough, InfoBlock.ofBytes_append (InfoBlock.toBytes_length _),
      InfoBlock.ofBytes_toBytes (newInfoBlock_fits bdef)]
  table := fun longer => by
    rw [RndBlockDef.IncludesTable, short] at longer
    exact absurd longer (by decide)
  file := fun longer => by
    rw [RndBlockDef.IncludesFile, short] at longer
    exact absurd longer (by decide)
  zeros := fun index inside other =>
    infoStores_zero inside (Nat.le_of_not_lt fun front => other (.inl front))

/-- The prepared header of a file block is read as its structure. -/
theorem headPrepared_file (type : bdef.blockType = .file) (enough : 72 ≤ blockHeadSize) :
    HeadPrepared blockHeadSize bdef (fileStores bdef (infoStores blockHeadSize bdef)) := by
  have tableSize : bdef.IncludesTable := by
    rw [RndBlockDef.IncludesTable, type]
    decide
  have fileSize : bdef.IncludesFile := by
    rw [RndBlockDef.IncludesFile, type]
    decide
  have head : newHead bdef = (newFileHead bdef).toBytes := by
    rw [newHead, if_pos type]
    rfl
  have long : (newHead bdef).length = 72 := by
    rw [newHead, if_pos type, List.length_append, InfoBlock.toBytes_length, newFileTail_length]
  have read : RndHeadFile.ofBytes (newHead bdef) = newFileHead bdef := by
    have chain : InfoChain.ofBytes (InfoChain.mk 0 0 0).toBytes = InfoChain.mk 0 0 0 := by decide
    rw [head]
    exact RndHeadFile.ofBytes_toBytes (newInfoBlock_fits bdef) chain rfl
  constructor
  · rw [fileStores_long type enough, List.length_append, long, List.length_replicate]
    omega
  · rw [fileStores_long type enough, ← InfoBlock.ofBytes_front, slice_append_left _ (by omega)]
    exact congrArg RndHeadFile.bhead read
  · intro _
    rw [fileStores_long type enough, slice_append_left _ (by omega)]
    exact congrArg RndHeadFile.thead read
  · intro _
    rw [fileStores_long type enough, slice_append_left _ (by omega)]
    exact congrArg RndHeadFile.fhead read
  · intro index inside other
    have behind : 8 ≤ index := Nat.le_of_not_lt fun front => other (.inl front)
    have apart : index < 56 ∨ 60 ≤ index := by
      by_contra among
      exact other (.inr (.inl ⟨tableSize, by omega⟩))
    have before : index < 64 ∨ 72 ≤ index := by
      by_contra among
      exact other (.inr (.inr ⟨fileSize, by omega⟩))
    exact fileStores_byte (infoStores_zero inside behind) apart before

/-- The preparation of a table header leaves the magic of a file header behind its end. -/
theorem not_headPrepared_table (type : bdef.blockType = .table) (info : List UInt8) :
    ¬ HeadPrepared blockHeadSize bdef (fileStores bdef info) := by
  intro prepared
  have magic : (fileStores bdef info)[64]? = some 0x52 := by
    rw [fileStores, patch_getElem?_inside _ (Nat.le_refl 64) (by decide)]
    rfl
  have inside : 64 < blockHeadSize := by
    rw [← prepared.length]
    exact (List.getElem?_eq_some_iff.mp magic).1
  have other : ¬ bdef.Stored 64 := by
    rintro (front | ⟨-, -, table⟩ | ⟨file, -, -⟩)
    · exact absurd front (by decide)
    · exact absurd table (by decide)
    · rw [RndBlockDef.IncludesFile, type] at file
      exact absurd file (by decide)
  rw [prepared.zeros 64 inside other] at magic
  exact absurd magic (by decide)

/-! ## The preparation and the append -/

theorem creates_settable (settable : bdef.Settable)
    (large : (blocksBytesToData bdef.blockType.code).toNat ≤ bdef.blockSize.toNat) :
    Creates bdef := by
  intro memory handle world valid aligned inRange room
  have size := headSize_ge bdef.blockType.code
  have stored : storedHead bdef = newHead bdef := by
    rw [storedHead, headBuffer_settable settable, ← newHead_length bdef settable, List.take_length]
  have same : created world.file bdef = appended world.file bdef := by
    rw [created, stored, appended]
  have appendable : Appendable handle world.file bdef := by
    refine ⟨valid, aligned, settable.preparable, by omega, ?_⟩
    rw [created_length, storedHead_length]
    omega
  obtain ⟨value, after, completed, rfl, file⟩ :=
    blocksAppendBlock_sound appendable inRange world ⟨rfl, rfl⟩
  refine ⟨after, completed, ?_⟩
  rw [file, same]
  exact blockAppended_appended settable large

theorem not_preparationSafe_table (table : bdef.blockType = .table)
    (enough : (blocksBytesToData bdef.blockType.code).toNat ≤ blockHeadSize) :
    ¬ PreparationSafe blockHeadSize bdef := by
  rintro ⟨⟨buffer, prepared, safe⟩, -⟩
  rw [blocksSetInfoBlock_long (by rw [table]; decide) enough] at prepared
  split at prepared
  · rw [← Program.ret.inj prepared] at safe
    exact not_headPrepared_table table _ safe
  · cases prepared

/-- The preparation is safe for every type but tables. -/
theorem headPreparation_safe (enough : (blocksBytesToData bdef.blockType.code).toNat ≤ blockHeadSize)
    (given : bdef.blockType = .file → bdef.chunkSize ≠ 0) :
    PreparationSafe blockHeadSize bdef ↔ bdef.blockType ≠ .table := by
  refine ⟨fun safe table => not_preparationSafe_table table enough safe, fun other => ?_⟩
  refine ⟨?_, creates_settable ⟨other, given⟩⟩
  by_cases file : bdef.blockType = .file
  · have long : (blocksBytesToData bdef.blockType.code).toNat = 72 := by
      rw [file]
      rfl
    rw [blocksSetInfoBlock_long (by omega) enough, if_pos (given file)]
    exact ⟨_, rfl, headPrepared_file file (by omega)⟩
  · have short : blocksBytesToData bdef.blockType.code = 32 := by
      cases type : bdef.blockType with
      | table => exact absurd type other
      | file => exact absurd type file
      | _ => rfl
    rw [short] at enough
    exact ⟨_, blocksSetInfoBlock_short short enough, headPrepared_short short enough⟩

/-- The header of a data block fits a buffer of its own length. -/
theorem headPreparation_safe_data :
    PreparationSafe 32 oneChunk ↔ oneChunk.blockType ≠ .table :=
  headPreparation_safe (by decide) (by decide)

/-- A table block of one chunk. -/
def oneTable : RndBlockDef := { blockType := .table, blockSize := 80, recSize := 3, chunkSize := 80 }

/-- In a buffer of the length of a table header the preparation reaches beyond the end. -/
theorem headPreparation_not_safe : ¬ PreparationSafe 64 oneTable :=
  not_preparationSafe_table rfl (by decide)

end Recnodb
