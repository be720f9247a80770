import Recnodb.Outcomes

/-!
# A new file

The file that `blocks_file_open` leaves with `RND_CREATE`: one block of one chunk,
whose header is that of a table without records and without a child. Every
completed call that answers success leaves this file and delivers this header,
whatever else fails.
-/

namespace Recnodb

open Interaction Octets Program

/-- `RND_CREATE`. -/
def rndCreateFlag : UInt32 := 1

/-- The header of a new file. -/
def freshHead (chunkSize recSize : UInt32) : RndHeadFile where
  bhead := ⟨BType.table.code, 72, chunkSize, 0, ⟨0, 0⟩⟩
  chead := ⟨0, 0, 0⟩
  thead := ⟨recSize, 0⟩
  fhead := ⟨rndb, chunkSize⟩

/-- The bytes of a new file: the reserved chunk, and the header over its start. -/
def freshFile (chunkSize recSize : UInt32) : List UInt8 :=
  patch (patch [] (chunkSize.toNat - 1) [0x30]) 0 (freshHead chunkSize recSize).toBytes

/-- The table header of a new file, as read. -/
def freshTable (chunkSize recSize : UInt32) : RndHeadTable where
  bhead := (freshHead chunkSize recSize).bhead
  chead := (freshHead chunkSize recSize).chead
  thead := (freshHead chunkSize recSize).thead

/-- The handle of a new file. -/
def freshHandle (stream : Nat) (chunkSize recSize : UInt32) : Rndh :=
  ⟨some stream, freshHead chunkSize recSize⟩

/-- The process that made a new file and holds it open, with all of it on the disk. -/
def freshWorld (chunkSize recSize : UInt32) : World :=
  { disk := freshFile chunkSize recSize, streams := 1, live := [0] }

@[simp] theorem freshHead_length (chunkSize recSize : UInt32) :
    (freshHead chunkSize recSize).toBytes.length = 72 := by
  simp [freshHead, RndHeadFile.toBytes, InfoFile.toBytes, rndb]

theorem freshFile_length {chunkSize : UInt32} (large : 72 ≤ chunkSize.toNat) (recSize : UInt32) :
    (freshFile chunkSize recSize).length = chunkSize.toNat := by
  have header : (freshHead chunkSize recSize).toBytes ≠ [] :=
    List.ne_nil_of_length_pos (by simp)
  rw [freshFile, patch_length _ _ _ header, patch_length _ _ _ (by simp), freshHead_length]
  simp only [List.length_nil, List.length_singleton]
  omega

/-- The first bytes of a new file are its header. -/
theorem freshFile_front {chunkSize recSize : UInt32} {start count : Nat}
    (inside : start + count ≤ 72) :
    slice (freshFile chunkSize recSize) start count =
      slice (freshHead chunkSize recSize).toBytes start count := by
  rw [freshFile, slice_patch_inside _ (Nat.zero_le _) (by simpa using inside), Nat.sub_zero]

/-- The header of a new file is read as it was made. -/
theorem freshFile_head {chunkSize recSize : UInt32} :
    RndHeadFile.ofBytes (slice (freshFile chunkSize recSize) 0 sizeofHeadFile) =
      freshHead chunkSize recSize := by
  have whole := slice_all (freshHead chunkSize recSize).toBytes
  rw [freshHead_length] at whole
  have fits : BlockLoc.Fits ⟨0, 0⟩ := by simp [BlockLoc.Fits]
  have chain : InfoChain.ofBytes (InfoChain.mk 0 0 0).toBytes = InfoChain.mk 0 0 0 := by decide
  rw [freshFile_front (by decide), whole]
  exact RndHeadFile.ofBytes_toBytes fits chain rfl

theorem blocksPrepHeadFile_eq {chunkSize recSize : UInt32} (positive : chunkSize > 0) :
    blocksPrepHeadFile chunkSize chunkSize recSize = .ret (freshHead chunkSize recSize) := by
  have asserted : cAssert (decide (chunkSize > 0)) = .ret () := by
    rw [cAssert, require, decide_eq_true positive]
    rfl
  rw [blocksPrepHeadFile, asserted, ret_bind]
  rfl

theorem freshHandle_valid {stream : Nat} {chunkSize : UInt32} (positive : chunkSize ≠ 0)
    (recSize : UInt32) :
    blocksValidateHandle (some (freshHandle stream chunkSize recSize)) = .success := by
  simp [blocksValidateHandle, blocksValidateHeadFile, freshHandle, freshHead, positive, BType.code]

/-- The position of the byte that reserves the first block. -/
theorem reserved_position {chunkSize : UInt32} (positive : chunkSize > 0) :
    (chunkSize - 1).toNat = chunkSize.toNat - 1 := by
  have one : (1 : UInt32) ≤ chunkSize :=
    UInt32.le_iff_toNat_le.mpr (Nat.succ_le_of_lt (UInt32.lt_iff_toNat_lt.mp positive))
  rw [UInt32.toNat_sub_of_le _ _ one]
  rfl

/-- The header of a file that was just emptied: an answer other than success, or all of it is there. -/
theorem headOfOpenedFile_create {platform : Platform} {world : World} {chunkSize recSize : UInt32}
    {handle : Rndh} (positive : chunkSize > 0) (emptied : world.file = []) :
    Ends (posix platform) world (headOfOpenedFile true chunkSize recSize handle)
      fun outcome _ after => ∀ rval made, outcome = .ok (rval, made) → rval = .success →
        after.file = freshFile chunkSize recSize ∧
          made = { handle with headFile := freshHead chunkSize recSize } := by
  have failed {before : World} {handle' : Rndh} {first : List (Moment Call Answer World)} :
      Ends (posix platform) before
        (keepErrno >>= fun _ => pure (.systemError, handle') : Prog (RndError × Rndh))
        fun outcome _ after => ∀ rval made, outcome = .ok (rval, made) → rval = .success →
          after.file = freshFile chunkSize recSize ∧
            made = { handle with headFile := freshHead chunkSize recSize } := by
    refine Ends.call posix_keepErrno ?_
    rintro _ _ ⟨⟩ success
    exact absurd success RndError.noConfusion
  rw [headOfOpenedFile, if_pos rfl]
  refine ends_fseek fun found sought seek _ => ?_
  cases found with
  | false => exact @failed _ _ []
  | true =>
    refine ends_fwrite fun wrote reserved write _ => ?_
    cases wrote with
    | false => exact @failed _ _ []
    | true =>
      refine ends_fseek fun found back seek' _ => ?_
      cases found with
      | false => exact @failed _ _ []
      | true =>
        have place : sought.position = chunkSize.toNat - 1 := by
          rw [← reserved_position positive]
          exact Int.natCast_inj.mp (seek.found rfl)
        have start : back.position = 0 := Int.natCast_inj.mp (seek'.found rfl)
        dsimp only
        rw [if_pos rfl, blocksPrepHeadFile_eq positive, ret_bind]
        refine ends_fwrite fun wrote left write' _ => ?_
        cases wrote with
        | false => exact @failed _ _ []
        | true =>
          rintro _ _ ⟨⟩ -
          refine ⟨?_, rfl⟩
          change left.file = freshFile chunkSize recSize
          rw [write'.file, seek'.file rfl, write.file, seek.file rfl, emptied, place, start]
          rfl

/-- A call that answers success leaves a new file. -/
theorem blocksFileOpen_create {platform : Platform} {world created : World} {handle : Rndh}
    {flags chunkSize recSize : UInt32} (create : rndCreate flags = true) (positive : chunkSize > 0)
    (completed : run (posix platform) (blocksFileOpen flags chunkSize recSize) world =
      (.ok (.success, handle), created)) :
    created.file = freshFile chunkSize recSize ∧
      ∃ stream, handle = freshHandle stream chunkSize recSize := by
  have nonzero : chunkSize ≠ 0 := by
    rintro rfl
    exact absurd positive (by decide)
  have ends : Ends (posix platform) world (blocksFileOpen flags chunkSize recSize)
      fun outcome _ after => ∀ handle, outcome = .ok (.success, handle) →
        after.file = freshFile chunkSize recSize ∧
          ∃ stream, handle = freshHandle stream chunkSize recSize := by
    rw [blocksFileOpen, create]
    refine ends_primeHandle (ends_issue ?_)
    rcases @FromPosition.posix_cases platform (.fopen true) { world with sysErrno := 0 } with
      sound | ⟨fault, broken⟩
    · rw [sound]
      refine Ends.bind (headOfOpenedFile_create positive rfl) ?_ ?_
      · rintro ⟨rval, made⟩ past between head
        dsimp only
        by_cases success : rval = .success
        · obtain ⟨file, rfl⟩ := head rval made rfl success
          have valid := @freshHandle_valid world.streams _ nonzero recSize
          rw [if_neg (not_not_intro success)]
          split
          · rename_i refused
            exact absurd valid refused
          · rintro _ ⟨⟩
            exact ⟨file, _, rfl⟩
        · rw [if_pos success]
          refine ends_issue ?_
          rintro _ ⟨⟩
          exact absurd rfl success
      · rintro reason past after _ handle ⟨⟩
    · rw [broken]
      refine Ends.call posix_keepErrno ?_
      rintro _ ⟨⟩
  unfold Ends at ends
  rw [completed] at ends
  exact ends handle rfl

end Recnodb
