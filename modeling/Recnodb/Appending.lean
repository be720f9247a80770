import Recnodb.Growth
import Recnodb.Restoration

/-!
# An append from end to end

What `blocks_append_block` does when no file operation fails. At a multiple of the
chunk size the file grows by exactly the block: the old bytes stay, the header stands at
the old end, and everything behind the header is zero. Elsewhere nothing is changed. In
both cases the stream is left where it stood.
-/

namespace Recnodb

open Interaction Octets Program

variable {platform : Platform} {world : World} {handle : Rndh} {bdef : RndBlockDef}

/-- The header of a new file block, as its structure. -/
def newFileHead (bdef : RndBlockDef) : RndHeadFile where
  bhead := newInfoBlock bdef
  chead := ⟨0, 0, 0⟩
  thead := ⟨bdef.recSize, 0⟩
  fhead := ⟨rndb, bdef.chunkSize⟩

/-- A block stands behind the old bytes of a file: its header at the old end, and zeros
up to the new one. -/
structure BlockAppended (file : List UInt8) (bdef : RndBlockDef) (after : List UInt8) : Prop where
  kept : file <+: after
  length : after.length = file.length + bdef.blockSize.toNat
  type : (headAt after file.length).blockType = bdef.blockType.code
  data : (headAt after file.length).bytesToData = blocksBytesToData bdef.blockType.code
  size : (headAt after file.length).blockSize = bdef.blockSize
  childless : (headAt after file.length).nextBlock = ⟨0, 0⟩
  unnumbered : (headAt after file.length).firstRecno = 0
  fileHead : bdef.blockType = .file →
    RndHeadFile.ofBytes (slice after file.length sizeofHeadFile) = newFileHead bdef
  zeros : ∀ index, file.length + (blocksBytesToData bdef.blockType.code).toNat ≤ index →
    index < after.length → after[index]? = some 0

/-- What an append on which nothing fails does: it appends the block, or refuses. -/
structure AppendsOrRefuses (world : World) (handle : Rndh) (bdef : RndBlockDef)
    (outcome : Except Stop (RndError × RndBlockDef)) (after : World) : Prop where
  placed : Aligned handle world.file → outcome = .ok (.success,
    { bdef with newBlock := ⟨world.file.length, bdef.blockSize.toNat⟩ }) ∧
      BlockAppended world.file bdef after.file
  refused : ¬ Aligned handle world.file →
    outcome = .ok (.invalidBlockLocation, bdef) ∧ after.file = world.file
  back : after.position = world.position

/-! ## The appended block -/

section Bytes

variable {file : List UInt8}

theorem prefix_appended (some : 0 < bdef.blockSize.toNat) : file <+: appended file bdef := by
  refine prefix_patch (prefix_patch List.prefix_rfl ?_ _) (Nat.le_refl _) _
  omega

/-- The bytes behind the header of an appended block. -/
theorem appended_zeros (settable : bdef.Settable) {index : Nat}
    (behind : file.length + (blocksBytesToData bdef.blockType.code).toNat ≤ index)
    (inside : index < (appended file bdef).length) : (appended file bdef)[index]? = some 0 := by
  have header := newHead_length bdef settable
  rw [appended_length] at inside
  rw [appended, patch_getElem?_outside ?_ (.inr (by omega)),
    patch_getElem? _ _ _ (List.cons_ne_nil _ _)]
  · split
    · rename_i last
      obtain rfl : index = file.length + bdef.blockSize.toNat - 1 := by
        rw [List.length_singleton] at last
        omega
      rw [Nat.sub_self]
      rfl
    · rename_i before
      rw [List.length_singleton] at before
      rw [if_neg (by omega), if_pos (by omega)]
  · rw [patch_length _ _ _ (List.cons_ne_nil _ _), List.length_singleton]
    omega

/-- The header of an appended file block. -/
theorem appended_fileHead (type : bdef.blockType = .file) :
    RndHeadFile.ofBytes (slice (appended file bdef) file.length sizeofHeadFile) =
      newFileHead bdef := by
  have head : newHead bdef = (newFileHead bdef).toBytes := by
    rw [newHead, if_pos type]
    rfl
  have length : (newHead bdef).length = sizeofHeadFile := by
    rw [newHead, if_pos type, List.length_append, InfoBlock.toBytes_length, newFileTail_length]
  rw [appended, ← length, slice_patch_same, head]
  have chain : InfoChain.ofBytes (InfoChain.mk 0 0 0).toBytes = InfoChain.mk 0 0 0 := by decide
  exact RndHeadFile.ofBytes_toBytes (newInfoBlock_fits bdef) chain rfl

theorem blockAppended_appended (settable : bdef.Settable)
    (large : (blocksBytesToData bdef.blockType.code).toNat ≤ bdef.blockSize.toNat) :
    BlockAppended file bdef (appended file bdef) := by
  have some : 0 < bdef.blockSize.toNat :=
    Nat.lt_of_lt_of_le (by decide) ((headSize_ge _).trans large)
  have header := newHead_length bdef settable
  have head := headAt_appended bdef file
  constructor
  · exact prefix_appended some
  · rw [appended_length]
    omega
  · rw [head, newInfoBlock]
  · rw [head, newInfoBlock]
  · rw [head, newInfoBlock]
  · rw [head, newInfoBlock]
  · rw [head, newInfoBlock]
  · exact appended_fileHead
  · exact fun index => appended_zeros settable

end Bytes

/-! ## The call -/

/-- An append on which nothing fails leaves the stream where it stood. -/
theorem blocksAppendBlock_back (valid : blocksValidateHandle (some handle) = .success)
    (positive : 0 < bdef.blockSize.toNat)
    (calm : (run (posix platform) (blocksAppendBlock handle bdef) world).2.failures =
      world.failures)
    (answers : ∃ code made, (run (posix platform) (blocksAppendBlock handle bdef) world).1 =
      .ok (code, made) ∧ code ≠ .systemError) :
    (run (posix platform) (blocksAppendBlock handle bdef) world).2.position = world.position := by
  have unfailed := calm_unfailed calm
  have told : platform.faults world.clock = none := by
    by_contra untold
    rw [(untold_ends valid untold).2.1] at unfailed
    exact absurd unfailed Bool.true_eq_false.mp
  have ended : Ends (posix platform) world (blocksAppendBlock handle bdef)
      fun outcome past after => someFailed past = false →
        (∃ code made, outcome = .ok (code, made) ∧ code ≠ .systemError) →
          after.position = world.position := by
    refine ends_note (Ends.bind (appendBlock_ends valid positive told) ?_ ?_)
    · rintro ⟨code, made⟩ past between ends
      refine ends_note (ends_ret ?_)
      rintro unfailed ⟨_, _, same, other⟩
      cases ends with
      | @restored _ front before _ reply left =>
        have found : someFailed front = false ∧ reply = true := by
          simpa [failedCall] using unfailed
        exact left.back found.2
      | unsaved start file held back => exact absurd (Prod.mk.inj (Except.ok.inj same)).1.symm other
    · rintro reason past after ends unfailed ⟨_, _, impossible, -⟩
      cases impossible
  exact ended unfailed answers

/-- An append on which nothing fails appends the block at a multiple of the chunk size,
is refused elsewhere, and leaves the stream where it stood. -/
theorem blocksAppendBlock_appendsOrRefuses
    (valid : blocksValidateHandle (some handle) = .success)
    (type : bdef.blockType = .generic ∨ bdef.blockType = .data ∨ bdef.blockType = .file)
    (chunk : bdef.blockType = .file → bdef.chunkSize ≠ 0)
    (large : (blocksBytesToData bdef.blockType.code).toNat ≤ bdef.blockSize.toNat)
    (calm : (run (posix platform) (blocksAppendBlock handle bdef) world).2.failures =
      world.failures) :
    AppendsOrRefuses world handle bdef (run (posix platform) (blocksAppendBlock handle bdef) world).1
      (run (posix platform) (blocksAppendBlock handle bdef) world).2 := by
  have settable : bdef.Settable := by
    refine ⟨fun table => ?_, chunk⟩
    rcases type with type | type | type <;> exact absurd (type.symm.trans table) BType.noConfusion
  have positive : 0 < bdef.blockSize.toNat :=
    Nat.lt_of_lt_of_le (by decide) ((headSize_ge _).trans large)
  have back := blocksAppendBlock_back valid positive calm
  by_cases aligned : Aligned handle world.file
  · obtain ⟨value, after, completed, rfl, file, -⟩ :=
      @blocksAppendBlock_aligned platform.memory _ _ _ valid settable aligned world rfl
    rw [← (run_calm calm).1] at completed
    rw [completed] at back ⊢
    refine ⟨fun _ => ⟨rfl, ?_⟩, fun off => absurd aligned off,
      back ⟨_, _, rfl, RndError.noConfusion⟩⟩
    rw [file]
    exact blockAppended_appended settable large
  · obtain ⟨value, after, completed, rfl, file, -⟩ :=
      @blocksAppendBlock_misaligned platform.memory _ _ bdef valid aligned world rfl
    rw [← (run_calm calm).1] at completed
    rw [completed] at back ⊢
    exact ⟨fun on => absurd on aligned, fun _ => ⟨rfl, file⟩,
      back ⟨_, _, rfl, RndError.noConfusion⟩⟩

/-- A block of one chunk behind the first one. -/
theorem blocksAppendBlock_appendsOrRefuses_second :
    AppendsOrRefuses (freshWorld 80 3) (freshHandle 0 80 3) oneChunk
      (run (posix (Platform.sound fun _ _ => 0))
        (blocksAppendBlock (freshHandle 0 80 3) oneChunk) (freshWorld 80 3)).1
      (run (posix (Platform.sound fun _ _ => 0))
        (blocksAppendBlock (freshHandle 0 80 3) oneChunk) (freshWorld 80 3)).2 :=
  blocksAppendBlock_appendsOrRefuses (by decide) (by decide) (by decide) (by decide)
    (by decide +kernel)

end Recnodb
