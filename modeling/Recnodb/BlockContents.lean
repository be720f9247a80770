import Recnodb.BlockRuns

/-!
# What the blocks of a run hold

A block that was appended keeps the header it was made with, aside from its link, and
zeros behind it. The root differs in both respects. Its first chunk is reserved by
writing the character zero over its last byte, which is a byte of the payload unless the
header ends there. And its header is that of a table with the length of a file header.
-/

namespace Recnodb

open Interaction Octets Program Extents

/-- The offset of the payload of a block from its start. -/
def dataStart (file : List UInt8) (extent : Extent) : Nat :=
  (headAt file extent.start).bytesToData.toNat

/-- Every byte of the payload is zero, and so is the prefix byte of every record slot in it. -/
structure ZeroPayload (recSize : UInt32) (file : List UInt8) (extent : Extent) : Prop where
  bytes : ∀ index, extent.start + dataStart file extent ≤ index → index < extent.stop →
    file[index]? = some 0
  prefixes : ∀ slot, dataStart file extent + (slot + 1) * (recSize.toNat + 1) ≤ extent.size →
    file[extent.start + dataStart file extent + slot * (recSize.toNat + 1)]? = some 0

/-- The payload of every block is zero. -/
def UnusedZero (recSize : UInt32) (blocks : List Extent) (file : List UInt8) : Prop :=
  ∀ extent ∈ blocks, ZeroPayload recSize file extent

/-- The stored length of a header is that of its type. -/
def LengthMatches (file : List UInt8) (extent : Extent) : Prop :=
  (headAt file extent.start).bytesToData = blocksBytesToData (headAt file extent.start).blockType

/-- The stored length of every header is that of its type. -/
def LengthsMatch (blocks : List Extent) (file : List UInt8) : Prop :=
  ∀ extent ∈ blocks, LengthMatches file extent

/-! ## Headers of blocks -/

section Headers

variable {file after : List UInt8} {extent : Extent}

/-- The header of a block keeps its type and its length. -/
theorem KeptAside.head (kept : KeptAside extent file after) (long : sizeofHeadFile ≤ extent.size) :
    (headAt after extent.start).blockType = (headAt file extent.start).blockType ∧
      (headAt after extent.start).bytesToData = (headAt file extent.start).bytesToData := by
  have front (start count : Nat) (within : start + count ≤ 16) :
      slice (slice after extent.start 32) start count =
        slice (slice file extent.start 32) start count := by
    rw [slice_slice _ _ _ _ _ (by omega), slice_slice _ _ _ _ _ (by omega)]
    apply slice_congr
    intro index above below
    have size : 72 ≤ extent.size := long
    exact kept index (by omega) (by rw [Extent.stop]; omega) (.inl (by omega))
  constructor
  · simp only [headAt, InfoBlock.ofBytes, front 0 2 (by omega)]
  · simp only [headAt, InfoBlock.ofBytes, front 2 2 (by omega)]

theorem KeptAside.dataStart (kept : KeptAside extent file after)
    (long : sizeofHeadFile ≤ extent.size) :
    dataStart after extent = Recnodb.dataStart file extent :=
  congrArg UInt16.toNat (kept.head long).2

/-- The link of a block lies in front of its payload. -/
theorem KeptAside.zeros (kept : KeptAside extent file after) (long : sizeofHeadFile ≤ extent.size)
    (behind : 32 ≤ Recnodb.dataStart file extent)
    (zeros : ∀ index, extent.start + Recnodb.dataStart file extent ≤ index → index < extent.stop →
      file[index]? = some 0) :
    ∀ index, extent.start + Recnodb.dataStart after extent ≤ index → index < extent.stop →
      after[index]? = some 0 := by
  rw [kept.dataStart long]
  intro index above below
  rw [kept index (by omega) below (.inr (by omega))]
  exact zeros index above below

/-- The prefix bytes of the record slots are bytes of the payload. -/
theorem zeroPayload_of_zeros {recSize : UInt32}
    (zeros : ∀ index, extent.start + dataStart file extent ≤ index → index < extent.stop →
      file[index]? = some 0) : ZeroPayload recSize file extent := by
  refine ⟨zeros, fun slot fits => zeros _ (by omega) ?_⟩
  rw [Nat.succ_mul] at fits
  rw [Extent.stop]
  omega

end Headers

/-! ## Runs -/

section Runs

variable {platform : Platform} {flags chunkSize recSize : UInt32} {handle : Rndh}
variable {blocks : List Extent} {world : World}

/-- The last byte of a new file is the character zero, behind its header. -/
theorem freshFile_last (larger : sizeofHeadFile < chunkSize.toNat) :
    (freshFile chunkSize recSize)[chunkSize.toNat - 1]? = some 0x30 := by
  have behind : 72 < chunkSize.toNat := larger
  rw [freshFile, patch_getElem?_outside]
  · rw [patch_getElem?_inside _ (Nat.le_refl _) (by simp), Nat.sub_self]
    rfl
  · rw [patch_length _ _ _ (List.cons_ne_nil _ _)]
    exact Nat.lt_of_lt_of_le (by simp) (Nat.le_max_right _ _)
  · right
    rw [freshHead_length]
    omega

/-- The data of the root starts behind a file header, and the byte that reserves the block is
there. -/
theorem BlockRun.root (large : sizeofHeadFile ≤ chunkSize.toNat)
    (made : BlockRun platform flags chunkSize recSize handle blocks world) :
    dataStart world.file ⟨0, chunkSize.toNat⟩ = 72 ∧
      (headAt world.file 0).blockType = BType.table.code ∧
      (sizeofHeadFile < chunkSize.toNat → world.file[chunkSize.toNat - 1]? = some 0x30) := by
  have holds := made.each (P := fun file extent => extent = ⟨0, chunkSize.toNat⟩ →
    dataStart file ⟨0, chunkSize.toNat⟩ = 72 ∧ (headAt file 0).blockType = BType.table.code ∧
      (sizeofHeadFile < chunkSize.toNat → file[chunkSize.toNat - 1]? = some 0x30)) large ?_ ?_ ?_
  · exact holds _ made.root_mem rfl
  · rintro file after extent long kept holds rfl
    obtain ⟨data, type, last⟩ := holds rfl
    refine ⟨(kept.dataStart long).trans data, (kept.head long).1.trans type, fun larger => ?_⟩
    have behind : 72 < chunkSize.toNat := larger
    rw [kept _ (Nat.zero_le _) (by rw [Extent.stop]; dsimp only; omega) (.inr (by dsimp only; omega))]
    exact last larger
  · intro _
    rw [dataStart, headAt_fresh]
    exact ⟨rfl, rfl, freshFile_last⟩
  · intro file bdef allotted settable longer same
    have here := congrArg Extent.start same
    dsimp only at here
    exact absurd (here ▸ longer) (by decide)

/-- Every block but the root has zeros behind its header, which holds an `INFO_BLOCK` at least. -/
theorem BlockRun.zeros (large : sizeofHeadFile ≤ chunkSize.toNat)
    (made : BlockRun platform flags chunkSize recSize handle blocks world) :
    ∀ extent ∈ blocks, extent.start ≠ 0 ∨ chunkSize.toNat = sizeofHeadFile →
      ∀ index, extent.start + dataStart world.file extent ≤ index → index < extent.stop →
        world.file[index]? = some 0 := by
  have holds := made.each (P := fun file extent => 32 ≤ dataStart file extent ∧
    (extent.start ≠ 0 ∨ chunkSize.toNat = sizeofHeadFile →
      ∀ index, extent.start + dataStart file extent ≤ index → index < extent.stop →
        file[index]? = some 0)) large ?_ ?_ ?_
  · exact fun extent among => (holds extent among).2
  · rintro file after extent long kept ⟨behind, zeros⟩
    refine ⟨by rw [kept.dataStart long]; exact behind, fun other => ?_⟩
    exact kept.zeros long behind (zeros other)
  · have data : dataStart (freshFile chunkSize recSize) ⟨0, chunkSize.toNat⟩ = 72 := by
      rw [dataStart, headAt_fresh]
      rfl
    rw [data]
    refine ⟨by decide, ?_⟩
    rintro (other | same) index above below
    · exact absurd rfl other
    · have size : chunkSize.toNat = 72 := same
      rw [Extent.stop] at below
      dsimp only at above below
      omega
  · intro file bdef allotted settable longer
    have data : dataStart (appended file bdef) ⟨file.length, bdef.blockSize.toNat⟩ =
        (blocksBytesToData bdef.blockType.code).toNat := by
      rw [dataStart, headAt_appended, newInfoBlock]
    rw [data]
    refine ⟨headSize_ge _, fun _ index above below => appended_zeros settable above ?_⟩
    rw [appended_length]
    exact Nat.lt_of_lt_of_le below (Nat.le_max_left _ _)

/-- Every block but the root has the length of its type. The root is of the type of a table, and
its length is that of a file header. -/
theorem BlockRun.lengths (large : sizeofHeadFile ≤ chunkSize.toNat)
    (made : BlockRun platform flags chunkSize recSize handle blocks world) :
    ∀ extent ∈ blocks, LengthMatches world.file extent ↔ extent.start ≠ 0 := by
  have holds := made.each (P := fun file extent => LengthMatches file extent ↔ extent.start ≠ 0)
    large ?_ ?_ ?_
  · exact holds
  · rintro file after extent long kept holds
    rw [← holds, LengthMatches, LengthMatches, (kept.head long).1, (kept.head long).2]
  · rw [LengthMatches, headAt_fresh]
    have differ : (72 : UInt16) ≠ blocksBytesToData BType.table.code := by decide
    exact iff_of_false differ fun other => other rfl
  · intro file bdef allotted settable longer
    have long : 72 ≤ file.length := longer
    refine iff_of_true ?_ (by dsimp only; omega)
    rw [LengthMatches, headAt_appended, newInfoBlock]

/-- Unused space is zero in exactly the runs whose first chunk ends with its header. -/
theorem unusedZero_iff (large : sizeofHeadFile ≤ chunkSize.toNat)
    (made : BlockRun platform flags chunkSize recSize handle blocks world) :
    UnusedZero recSize blocks world.file ↔ chunkSize.toNat = sizeofHeadFile := by
  constructor
  · intro unused
    obtain ⟨data, -, last⟩ := made.root large
    by_contra other
    have larger : 72 < chunkSize.toNat := Nat.lt_of_le_of_ne large (Ne.symm other)
    have zero := (unused _ made.root_mem).bytes (chunkSize.toNat - 1)
      (by rw [data]; dsimp only; omega) (by rw [Extent.stop]; dsimp only; omega)
    rw [last larger] at zero
    exact absurd zero (by decide)
  · intro same extent among
    exact zeroPayload_of_zeros (made.zeros large extent among (.inr same))

/-- In every run the header of the root has another length than its type, and it is the only one. -/
theorem lengthsMatch_never (large : sizeofHeadFile ≤ chunkSize.toNat)
    (made : BlockRun platform flags chunkSize recSize handle blocks world) :
    ¬ LengthsMatch blocks world.file ∧
      ∀ extent ∈ blocks, extent.start ≠ 0 → LengthMatches world.file extent := by
  have lengths := made.lengths large
  refine ⟨fun all => ?_, fun extent among => (lengths extent among).mpr⟩
  exact (lengths _ made.root_mem).mp (all _ made.root_mem) rfl

end Runs

/-! ## Two blocks -/

/-- The process behind an append to a new file. -/
def grownStore : World :=
  (run (posix soundPlatform) (blocksAppendBlock (freshHandle 0 80 3) chunkBlock) newStore).2

/-- The process behind the link to the appended block. -/
def linkedStore : World :=
  (run (posix soundPlatform) (chainsAddLink (0 : Nat) ⟨80, 80⟩) grownStore).2

theorem newStore_run :
    BlockRun soundPlatform rndCreateFlag 80 3 (freshHandle 0 80 3) [⟨0, 80⟩] newStore := by
  have created : run (posix soundPlatform) (blocksFileOpen rndCreateFlag 80 3) { disk := [] } =
      (.ok (.success, freshHandle 0 80 3), newStore) := run_eq_of_value _ (by decide +kernel)
  exact .create (by decide) created

theorem linkedStore_run :
    BlockRun soundPlatform rndCreateFlag 80 3
      (freshHandle 0 80 3) [⟨0, 80⟩, ⟨80, 80⟩] linkedStore := by
  have placed : run (posix soundPlatform) (blocksAppendBlock (freshHandle 0 80 3) chunkBlock)
      newStore = (.ok (.success, { chunkBlock with newBlock := ⟨80, 80⟩ }), grownStore) :=
    run_eq_of_value _ (by decide +kernel)
  have linked : run (posix soundPlatform) (chainsAddLink (0 : Nat) ⟨80, 80⟩) grownStore =
      (.ok RndError.success, linkedStore) := run_eq_of_value _ (by decide +kernel)
  have root : (⟨0, 80⟩ : Extent) ∈ [(⟨0, 80⟩ : Extent), ⟨80, 80⟩] := List.mem_cons_self
  have lossless := (Platform.durable_sound fun _ _ => 0).lossless
  have grown := BlockRun.append newStore_run ⟨.inl rfl, by decide, by decide⟩ placed (lossless _)
  exact grown.link root linked (lossless _)

theorem unusedZero_iff_two :
    UnusedZero 3 [⟨0, 80⟩, ⟨80, 80⟩] linkedStore.file ↔ (80 : UInt32).toNat = sizeofHeadFile :=
  unusedZero_iff (by decide) linkedStore_run

theorem lengthsMatch_never_two :
    ¬ LengthsMatch [⟨0, 80⟩, ⟨80, 80⟩] linkedStore.file ∧
      ∀ extent ∈ [(⟨0, 80⟩ : Extent), ⟨80, 80⟩], extent.start ≠ 0 →
        LengthMatches linkedStore.file extent :=
  lengthsMatch_never (by decide) linkedStore_run

/-- The last byte of a new file of eighty bytes is not zero. -/
theorem new_file_not_zero :
    BlockRun soundPlatform rndCreateFlag 80 3 (freshHandle 0 80 3) [⟨0, 80⟩] newStore ∧
      ¬ UnusedZero 3 [⟨0, 80⟩] newStore.file := by
  refine ⟨newStore_run, fun unused => ?_⟩
  have last := (unused ⟨0, 80⟩ List.mem_cons_self).bytes 79 (by decide +kernel) (by decide)
  exact absurd last (by decide +kernel)

/-- The root of a new file is of the type of a table. -/
theorem new_file_mismatch :
    BlockRun soundPlatform rndCreateFlag 80 3 (freshHandle 0 80 3) [⟨0, 80⟩] newStore ∧
      ¬ LengthsMatch [⟨0, 80⟩] newStore.file := by
  refine ⟨newStore_run, fun all => ?_⟩
  exact absurd (all ⟨0, 80⟩ List.mem_cons_self) (by unfold LengthMatches; decide +kernel)

end Recnodb
