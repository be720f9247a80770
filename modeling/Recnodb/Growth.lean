import Recnodb.TableChain

/-!
# Growth of a chain by the record search

At the end of its chain the search asks for one more block. At a multiple of the
chunk size the block is appended and linked, and the search goes on with it;
elsewhere the attempt is refused, nothing is written, and the search goes on with
the block it stood at. Neither touches a header other than the extended one.
-/

namespace Recnodb

open Interaction Octets Program

/-- Headers with the same first 24 bytes are alike. -/
theorem headAt_alike {first second : List UInt8} {offset offset' : Nat}
    (same : slice first offset 24 = slice second offset' 24) :
    (headAt first offset).Alike (headAt second offset') := by
  have field (start count : Nat) (within : start + count ≤ 24) :
      slice (slice first offset 32) start count = slice (slice second offset' 32) start count := by
    rw [slice_slice _ _ _ _ _ (by omega), slice_slice _ _ _ _ _ (by omega),
      ← slice_slice first offset 24 start count within,
      ← slice_slice second offset' 24 start count within, same]
  have next : slice (slice (slice first offset 32) 16 16) 0 8 =
      slice (slice (slice second offset' 32) 16 16) 0 8 := by
    rw [slice_slice (slice first offset 32) 16 16 0 8 (by omega),
      slice_slice (slice second offset' 32) 16 16 0 8 (by omega)]
    exact field 16 8 (by omega)
  constructor
  · simp only [InfoBlock.ofBytes, field 0 2 (by omega)]
  · simp only [InfoBlock.ofBytes, field 2 2 (by omega)]
  · simp only [InfoBlock.ofBytes, field 4 4 (by omega)]
  · simp only [InfoBlock.ofBytes, BlockLoc.ofBytes, next]

section Appended

variable {file : List UInt8} {bdef : RndBlockDef}

/-- An append grows the file by the block, and at least by its header. -/
theorem appended_length : (appended file bdef).length =
    max (file.length + bdef.blockSize.toNat) (file.length + (newHead bdef).length) := by
  have header : newHead bdef ≠ [] := by
    refine List.ne_nil_of_length_pos ?_
    simp [newHead]
  have long : 0 < (newHead bdef).length := List.length_pos_iff.mpr header
  rw [appended, patch_length _ _ _ header, patch_length _ _ _ (by simp)]
  simp only [List.length_singleton]
  omega

/-- The header of an appended block. -/
theorem headAt_appended (bdef : RndBlockDef) (file : List UInt8) :
    headAt (appended file bdef) file.length = newInfoBlock bdef := by
  rw [headAt, appended, slice_patch_inside _ (Nat.le_refl _) (by simp [newHead]), Nat.sub_self,
    newHead, slice_field_first (InfoBlock.toBytes_length _),
    InfoBlock.ofBytes_toBytes (newInfoBlock_fits bdef)]

/-- An append of a block of some size changes no byte before it. -/
theorem appended_below {index : Nat} (some : 0 < bdef.blockSize.toNat)
    (below : index < file.length) : (appended file bdef)[index]? = file[index]? := by
  have grown := length_le_patch file (file.length + bdef.blockSize.toNat - 1) [0]
  rw [appended, patch_getElem?_outside (by omega) (by omega),
    patch_getElem?_outside below (by omega)]

/-- An append changes no header before it. The last byte of an empty block is the
last byte of the file, behind the link of any header. -/
theorem appended_alike {offset : Nat} (inside : offset + 32 ≤ file.length) :
    (headAt (appended file bdef) offset).Alike (headAt file offset) := by
  apply headAt_alike
  have grown := length_le_patch file (file.length + bdef.blockSize.toNat - 1) [0]
  rw [appended, slice_patch_disjoint (by omega) (by omega),
    slice_patch_disjoint (by omega) (by omega)]

end Appended

section Linked

variable {file : List UInt8} {offset : Nat} {newBlock : BlockLoc} {beyond : List UInt8}

theorem linked_length (inside : offset + 32 + beyond.length ≤ file.length) :
    (linked file offset newBlock beyond).length = file.length := by
  refine patch_length_inside ?_
  simp only [List.length_append, InfoBlock.toBytes_length]
  omega

/-- The linked header names the new block. -/
theorem headAt_linked (fits : newBlock.Fits) :
    headAt (linked file offset newBlock beyond) offset =
      { headAt file offset with nextBlock := newBlock } := by
  rw [headAt, linked, slice_patch_inside _ (Nat.le_refl _) (by simp), Nat.sub_self,
    slice_field_first (InfoBlock.toBytes_length _), InfoBlock.ofBytes_toBytes fits]

/-- A header apart from the written one stays. -/
theorem headAt_linked_other {other : Nat} (inside : other + 32 ≤ file.length)
    (apart : other + 32 ≤ offset ∨ offset + 32 + beyond.length ≤ other) :
    headAt (linked file offset newBlock beyond) other = headAt file other := by
  rw [headAt, linked, slice_patch_disjoint (by omega), headAt]
  simp only [List.length_append, InfoBlock.toBytes_length]
  omega

theorem linked_alike {other : Nat} (inside : other + 32 ≤ file.length)
    (apart : other + 32 ≤ offset ∨ offset + 32 + beyond.length ≤ other) :
    (headAt (linked file offset newBlock beyond) other).Alike (headAt file other) := by
  rw [headAt_linked_other inside apart]
  exact InfoBlock.Alike.refl _

end Linked

/-! ## One extension -/

section Extend

variable {memory : Nat → Nat → UInt8} {file : List UInt8} {handle : Rndh} {bloc : BlockLoc}
variable {htable : RndHeadTable} {recno : UInt32} {offset : Nat} {bdef : RndBlockDef}

/-- An extension at the end of a chain, at a multiple of the chunk size. -/
theorem blocksExtendChain_aligned (valid : blocksValidateHandle (some handle) = .success)
    (short : bdef.Short) (aligned : Aligned handle file) (bounded : file.length < 2 ^ 63)
    (inside : offset + 32 ≤ file.length) (free : (headAt file offset).nextBlock.offset = 0) :
    OnFile memory file (blocksExtendChain handle offset bdef) fun result after past =>
      result = (.success, bdef.placed file) ∧
        past = [.appendEntered, .appendLeft .success ⟨file.length, bdef.blockSize.toNat⟩] ∧
        ∃ beyond : List UInt8, beyond.length = overrun (headAt file offset).blockType ∧
          after = linked (appended file bdef) offset ⟨file.length, bdef.blockSize.toNat⟩ beyond := by
  have alike : (headAt (appended file bdef) offset).Alike (headAt file offset) :=
    appended_alike inside
  have grown : offset + 32 ≤ (appended file bdef).length := by
    rw [appended_length]
    omega
  have fits : (bdef.placed file).newBlock.Fits :=
    BlockLoc.fits_of_lt bounded (bdef.blockSize.toNat_lt.trans (by decide))
  refine OnFile.primeHandle_bind
    (OnFile.bind_eq (blocksAppendBlock_aligned valid short.settable aligned) ?_)
  dsimp only
  rw [if_neg (not_not_intro rfl)]
  refine OnFile.bind (linkNewBlock_free short fits grown (alike.next.trans free)) ?_
  rintro rval after past ⟨rfl, rfl, beyond, length, rfl⟩
  exact OnFile.ret ⟨rfl, rfl, beyond, by rw [length, alike.type], rfl⟩

/-- An extension elsewhere is refused. -/
theorem blocksExtendChain_misaligned (valid : blocksValidateHandle (some handle) = .success)
    (misaligned : ¬ Aligned handle file) {chainEnd : OffT} :
    OnFile memory file (blocksExtendChain handle chainEnd bdef) fun result after past =>
      result = (.invalidBlockLocation, bdef) ∧ after = file ∧
        past = [.appendEntered, .appendLeft .invalidBlockLocation bdef.newBlock] := by
  refine OnFile.primeHandle_bind
    (OnFile.bind_eq (blocksAppendBlock_misaligned valid misaligned) ?_)
  dsimp only
  rw [if_pos (by decide)]
  exact OnFile.ret ⟨rfl, rfl, rfl⟩

/-- The header of the block that was appended and linked. -/
theorem headAt_grown {beyond : List UInt8} {size : OffT}
    (inside : offset + 32 + beyond.length ≤ file.length) :
    headAt (linked (appended file bdef) offset ⟨file.length, size⟩ beyond) file.length =
      newInfoBlock bdef := by
  have grown : file.length + 32 ≤ (appended file bdef).length := by
    rw [appended_length, newHead, List.length_append, InfoBlock.toBytes_length]
    omega
  rw [← headAt_appended bdef file, headAt, headAt, linked, slice_patch_disjoint grown]
  simp only [List.length_append, InfoBlock.toBytes_length]
  omega

/-- A round at the end of the chain, at a multiple of the chunk size: the block is
appended and linked, and the search stands at it. -/
theorem searchRound_grows {search : Search} (valid : blocksValidateHandle (some handle) = .success)
    (aligned : Aligned handle file) (bounded : file.length < 2 ^ 63)
    (here : search.iblockOffset = offset) (beyond : ¬ search.Covers htable recno)
    (last : search.iblock.nextBlock.offset = 0)
    (free : (headAt file offset).nextBlock.offset = 0)
    (inside : offset + 32 + overrun (headAt file offset).blockType ≤ file.length) :
    OnFile memory file (searchRound handle bloc htable recno search) fun outcome after past =>
      let asked := requestedBlock handle htable recno (search.advanced htable)
      let place : BlockLoc := ⟨file.length, asked.blockSize.toNat⟩
      outcome = .inl ⟨newInfoBlock asked, file.length, (search.advanced htable).startRec⟩ ∧
        past = [.requested offset asked, .appendEntered, .appendLeft .success place,
          .extended offset .success place] ∧
        ∃ extra : List UInt8, extra.length = overrun (headAt file offset).blockType ∧
          after = linked (appended file asked) offset place extra := by
  have short : (requestedBlock handle htable recno (search.advanced htable)).Short := .inl rfl
  rw [searchRound_end beyond last]
  refine OnFile.note_bind ?_
  have place : (search.advanced htable).iblockOffset = offset := here
  rw [place]
  refine OnFile.bind (blocksExtendChain_aligned valid short aligned bounded (by omega) free) ?_
  rintro result after past ⟨rfl, rfl, extra, length, rfl⟩
  refine OnFile.note_bind ?_
  dsimp only
  rw [if_pos rfl]
  have within : file.length + 32 ≤ (linked (appended file
      (requestedBlock handle htable recno (search.advanced htable))) offset
        ⟨file.length, (requestedBlock handle htable recno
          (search.advanced htable)).blockSize.toNat⟩ extra).length := by
    rw [linked_length, appended_length, newHead, List.length_append, InfoBlock.toBytes_length]
    · omega
    · rw [appended_length]
      omega
  refine OnFile.bind_eq (blocksReadBlockHead_spec (by simp) within) ?_
  dsimp only
  rw [if_neg (not_not_intro rfl)]
  have room : offset + 32 + extra.length ≤ file.length := by omega
  have head := @headAt_grown file offset
    (requestedBlock handle htable recno (search.advanced htable)) extra
    (requestedBlock handle htable recno (search.advanced htable)).blockSize.toNat room
  refine OnFile.ret ⟨?_, rfl, extra, length, rfl⟩
  exact congrArg (fun block => Sum.inl
    (Search.mk block file.length (search.advanced htable).startRec)) head

/-- A round at the end of the chain elsewhere: nothing is written, and only the
record number moves on. -/
theorem searchRound_refused {search : Search}
    (valid : blocksValidateHandle (some handle) = .success) (misaligned : ¬ Aligned handle file)
    (beyond : ¬ search.Covers htable recno) (last : search.iblock.nextBlock.offset = 0) :
    OnFile memory file (searchRound handle bloc htable recno search) fun outcome after past =>
      outcome = .inl (search.advanced htable) ∧ after = file ∧
        past = [.requested search.iblockOffset
            (requestedBlock handle htable recno (search.advanced htable)),
          .appendEntered, .appendLeft .invalidBlockLocation ⟨0, 0⟩,
          .extended search.iblockOffset .invalidBlockLocation ⟨0, 0⟩] := by
  rw [searchRound_end beyond last]
  refine OnFile.note_bind ?_
  refine OnFile.bind_eq (blocksExtendChain_misaligned valid misaligned) (OnFile.note_bind ?_)
  dsimp only
  rw [if_neg (by decide)]
  exact OnFile.ret ⟨rfl, rfl, rfl⟩

end Extend

end Recnodb
