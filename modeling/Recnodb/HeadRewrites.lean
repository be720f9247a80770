import Recnodb.BlockLaws
import Recnodb.Creation
import Recnodb.Outcomes

/-!
# Headers read and written back

A header is read into a buffer and written back from it. The read takes the bytes of an
`INFO_BLOCK`, but the write takes the whole buffer, or the header of the type if that is
longer. What it finds behind the `INFO_BLOCK` is what the buffer held before, and behind
the buffer whatever is there.
-/

namespace Recnodb

open Interaction Octets Program

/-- Read a header into a buffer and, if that succeeds, write it back. -/
def rewriteHead (offset : OffT) (buffer : List UInt8) (infoLen : Nat) : Prog RndError := do
  let (rval, buffer) ← blocksReadBlockHead offset buffer infoLen
  if rval = .success then blocksWriteBlockHead offset buffer infoLen else pure rval

/-- The numbers of bytes that some calls ask for from behind a buffer. -/
def beyondReads (past : List (Moment Call Answer World)) : List Nat :=
  past.filterMap fun moment => match moment with
    | ⟨_, .adjacent count, _⟩ => some count
    | _ => none

/-- Whatever the file operations do, the file is as it was, but for what the stream held before
and loses, and no byte from behind the buffer is used. -/
structure RewriteKeeps (file : List UInt8) (offset : Nat) (buffer : List UInt8) (infoLen : Nat) :
    Prop where
  kept : ∀ platform world, world.file = file →
    SameFile world (run (posix platform) (rewriteHead offset buffer infoLen) world).2
  inside : ∀ platform world, world.file = file →
    beyondReads (log (posix platform) (rewriteHead offset buffer infoLen) world) = []

/-- The buffer holds the header of the stored type, and behind the `INFO_BLOCK` the bytes that
the file holds there, as far as a file reaches. -/
def Rewritable (file : List UInt8) (offset : Nat) (buffer : List UInt8) (infoLen : Nat) : Prop :=
  (blocksBytesToData (headAt file offset).blockType).toNat ≤ infoLen ∧
    ∀ index, 32 ≤ index → index < infoLen → offset + index < offMax →
      file[offset + index]? = buffer[index]?

/-- A write of what is there already changes nothing. -/
theorem patch_agrees {bytes written : List UInt8} {start : Nat}
    (agrees : ∀ index, index < written.length → bytes[start + index]? = written[index]?) :
    patch bytes start written = bytes := by
  by_cases empty : written = []
  · rw [empty, patch_nil]
  have positive := List.length_pos_iff.mpr empty
  have inside : start + written.length ≤ bytes.length := by
    have last := agrees (written.length - 1) (by omega)
    rw [List.getElem?_eq_getElem (by omega : written.length - 1 < written.length)] at last
    have reached := (List.getElem?_eq_some_iff.mp last).1
    omega
  have same : slice bytes start written.length = written := by
    apply List.ext_getElem?
    intro index
    rw [slice_getElem?]
    split
    · exact agrees index (by assumption)
    · exact (List.getElem?_eq_none (by omega)).symm
  calc patch bytes start written
      = patch bytes start (slice bytes start written.length) := by rw [same]
    _ = bytes := patch_slice_self inside

section Rewrite

variable {platform : Platform} {world : World} {file buffer : List UInt8} {offset infoLen : Nat}

/-- The buffer behind the read. -/
def readBuffer (file : List UInt8) (offset : Nat) (buffer : List UInt8) : List UInt8 :=
  patch buffer 0 (slice file offset 32)

theorem readBuffer_length (inside : offset + 32 ≤ file.length) (long : 32 ≤ buffer.length) :
    (readBuffer file offset buffer).length = buffer.length := by
  apply patch_length_inside
  rw [slice_length_inside inside]
  omega

/-- The header in the buffer is the one that was read. -/
theorem ofBytes_readBuffer (inside : offset + 32 ≤ file.length) :
    InfoBlock.ofBytes (readBuffer file offset buffer) = headAt file offset := by
  have length := slice_length_inside inside
  have front := slice_patch_same buffer 0 (slice file offset 32)
  rw [length] at front
  rw [← InfoBlock.ofBytes_front, readBuffer, front]

/-- A byte of the buffer is read or was there before. -/
theorem readBuffer_getElem? (inside : offset + 32 ≤ file.length) {index : Nat}
    (among : index < buffer.length) : (readBuffer file offset buffer)[index]? =
      if index < 32 then file[offset + index]? else buffer[index]? := by
  have length := slice_length_inside inside
  split
  · rw [readBuffer, patch_getElem?_inside _ (Nat.zero_le _) (by omega), Nat.sub_zero, slice_getElem?,
      if_pos (by assumption)]
  · exact patch_getElem?_outside among (.inr (by omega))

/-- A rewritable buffer agrees with the file as far as a file reaches. -/
theorem Rewritable.agrees (rewritable : Rewritable file offset buffer infoLen)
    (inside : offset + 32 ≤ file.length) (length : buffer.length = infoLen) {index : Nat}
    (among : index < infoLen) (reached : offset + index < offMax) :
    file[offset + index]? = (readBuffer file offset buffer)[index]? := by
  rw [readBuffer_getElem? inside (length ▸ among)]
  split
  · rfl
  · exact rewritable.2 index (by omega) among reached

/-! ## A write of the buffer -/

/-- A header that its buffer holds is written as the buffer. -/
theorem blocksWriteBlockHead_fits {block : List UInt8}
    (fits : (blocksBytesToData (InfoBlock.ofBytes block).blockType).toNat ≤ block.length) :
    blocksWriteBlockHead offset block block.length = (do
      if ← seekWrite offset block then pure .success
      else
        keepErrno
        pure .systemError) := by
  have length : (if (blocksBytesToData (InfoBlock.ofBytes block).blockType).toNat < block.length then
      block.length else (blocksBytesToData (InfoBlock.ofBytes block).blockType).toNat) =
        block.length := by
    split <;> omega
  rw [blocksWriteBlockHead, length, seekWrite, bufferBytes, if_pos (Nat.le_refl _), List.take_length,
    bind_assoc]
  refine congrArg _ (funext fun found => ?_)
  cases found with
  | false => rfl
  | true => rfl

@[simp] theorem beyondReads_append (first second : List (Moment Call Answer World)) :
    beyondReads (first ++ second) = beyondReads first ++ beyondReads second := List.filterMap_append

/-- A read that fails leaves the file; one that succeeds delivers the header as well. -/
theorem blocksReadBlockHead_ends (long : 32 ≤ infoLen) :
    Ends (posix platform) world (blocksReadBlockHead offset buffer infoLen)
      fun outcome past after => SameFile world after ∧ beyondReads past = [] ∧ ∃ rval block,
        outcome = .ok (rval, block) ∧ (rval = .success → after.held = [] ∧
          after.file = world.file ∧ offset + 32 ≤ world.file.length ∧
          block = readBuffer world.file offset buffer) := by
  rw [blocksReadBlockHead, Nat.min_eq_left long, seekRead, bind_assoc]
  apply ends_fseek
  intro found sought moved _
  cases found with
  | false =>
    exact Ends.call posix_keepErrno ⟨moved.drained.same, rfl, _, _, rfl, RndError.noConfusion⟩
  | true =>
    rw [if_pos rfl]
    apply ends_fread
    intro reply read effect _
    have same : SameFile world read := moved.drained.same.trans moved.drained.held effect.drained.same
    cases reply with
    | none =>
      exact Ends.call posix_keepErrno ⟨same, rfl, _, _, rfl, RndError.noConfusion⟩
    | some bytes =>
      obtain ⟨delivered, inside, file⟩ := effect.read bytes rfl
      have start : sought.position = offset := Int.natCast_inj.mp (moved.found rfl)
      rw [moved.file rfl, start] at delivered inside
      refine ⟨same, rfl, _, _, rfl, fun _ =>
        ⟨effect.drained.held, file.trans (moved.file rfl), inside,
        ?_⟩⟩
      rw [delivered, readBuffer]

/-- A write that would change nothing as far as a file reaches changes nothing. -/
theorem seekWrite_ends {bytes : List UInt8} (bounded : world.file.length ≤ offMax)
    (agrees : ∀ index, index < bytes.length → offset + index < offMax →
      world.file[offset + index]? = bytes[index]?) :
    Ends (posix platform) world (do
      if ← seekWrite offset bytes then pure .success
      else
        keepErrno
        pure .systemError : Prog RndError)
      fun _ past after => SameFile world after ∧ beyondReads past = [] := by
  rw [seekWrite, bind_assoc]
  apply ends_fseek
  intro found sought moved _
  cases found with
  | false =>
    exact Ends.call posix_keepErrno ⟨moved.drained.same, rfl⟩
  | true =>
    rw [if_pos rfl]
    apply ends_fwrite
    intro wrote written effect called
    have start : sought.position = offset := Int.natCast_inj.mp (moved.found rfl)
    have file : written.file = world.file := by
      obtain ⟨count, part⟩ := effect.cut moved.drained.held
      have short : written.file.length ≤ offMax := by
        have kept := posix_bounded platform (.fwrite bytes) sought
          (by rw [moved.file rfl]; exact bounded)
        rw [called] at kept
        exact kept
      rw [part, start, moved.file rfl] at short ⊢
      apply patch_agrees
      intro index among
      have taken : index < count ∧ index < bytes.length := by
        rw [List.length_take] at among
        omega
      have some : bytes.take count ≠ [] := List.ne_nil_of_length_pos (by omega)
      rw [patch_length _ _ _ some] at short
      rw [List.getElem?_take_of_lt taken.1]
      exact agrees index taken.2 (by omega)
    cases wrote with
    | false =>
      exact Ends.call posix_keepErrno ⟨.of_eq file, rfl⟩
    | true =>
      exact ⟨.of_eq file, rfl⟩

theorem rewriteHead_ends (bounded : world.file.length ≤ offMax)
    (inside : offset + 32 ≤ world.file.length) (long : 32 ≤ infoLen)
    (length : buffer.length = infoLen) (rewritable : Rewritable world.file offset buffer infoLen) :
    Ends (posix platform) world (rewriteHead offset buffer infoLen)
      fun _ past after => SameFile world after ∧ beyondReads past = [] := by
  apply Ends.bind (blocksReadBlockHead_ends long)
  · rintro ⟨rval, block⟩ past between ⟨kept, quiet, rval', block', same, read⟩
    obtain ⟨rfl, rfl⟩ := Prod.mk.inj (Except.ok.inj same)
    dsimp only
    by_cases success : rval = .success
    · obtain ⟨empty, file, -, rfl⟩ := read success
      have size := @readBuffer_length world.file buffer offset inside (length ▸ long)
      have fits : (blocksBytesToData (InfoBlock.ofBytes
          (readBuffer world.file offset buffer)).blockType).toNat ≤
            (readBuffer world.file offset buffer).length := by
        rw [ofBytes_readBuffer inside, size, length]
        exact rewritable.1
      have written := @blocksWriteBlockHead_fits offset _ fits
      rw [size, length] at written
      rw [if_pos success, written]
      refine Ends.mono (seekWrite_ends (by rw [file]; exact bounded) ?_) ?_
      · intro index among reached
        rw [file]
        exact rewritable.agrees inside length (by omega) reached
      · rintro outcome later after ⟨same, still⟩
        rw [beyondReads_append, quiet, still]
        exact ⟨kept.trans empty same, rfl⟩
    · rw [if_neg success]
      refine ⟨kept, ?_⟩
      rw [beyondReads_append, quiet]
      rfl
  · rintro reason past after ⟨kept, quiet, -⟩
    exact ⟨kept, quiet⟩

/-! ## A write that is cut short -/

/-- A platform whose fourth call fails. If it is a write, that many bytes of it are written. -/
def tornWrite (written : Nat) : Platform where
  faults time := if time = 3 then some { errno := 5, written := written } else none
  memory _ _ := 0

theorem posix_fseek_torn {written time position : Nat} (early : time ≠ 3)
    (inRange : offset ≤ offMax) : posix (tornWrite written) (.fseek offset .seekSet)
      { disk := file, position := position, clock := time } =
        (true, { disk := file, position := offset, clock := time + 1 }) := by
  have place : (0 : Int) ≤ offset ∧ (offset : Int) ≤ offMax := by omega
  simp [posix, tornWrite, unfaulted, World.target, World.flush, World.tick, World.file, early, place]

/-- A read on which nothing fails delivers the header. -/
theorem blocksReadBlockHead_torn {written : Nat} (inRange : offset ≤ offMax)
    (inside : offset + 32 ≤ file.length) (long : 32 ≤ infoLen) :
    Ends (posix (tornWrite written)) { disk := file } (blocksReadBlockHead offset buffer infoLen)
      fun outcome _ after => outcome = .ok (.success, readBuffer file offset buffer) ∧
        after = { disk := file, position := offset + 32, clock := 2 } := by
  have read : posix (tornWrite written) (.fread 32) { disk := file, position := offset, clock := 1 } =
      (some ⟨slice file offset 32, slice_length_inside inside⟩,
        { disk := file, position := offset + 32, clock := 2 }) := by
    simp [posix, tornWrite, unfaulted, World.flush, World.tick, World.file, inside]
  rw [blocksReadBlockHead, Nat.min_eq_left long, seekRead, bind_assoc]
  refine Ends.call (posix_fseek_torn (by decide) inRange) ?_
  exact Ends.call read ⟨rfl, rfl⟩

/-- A longer header is written from behind the buffer as well. -/
theorem rewriteHead_beyond {written : Nat} (inRange : offset ≤ offMax)
    (inside : offset + 32 ≤ file.length) (long : 32 ≤ infoLen) (length : buffer.length = infoLen)
    (longer : infoLen < (blocksBytesToData (headAt file offset).blockType).toNat) :
    Ends (posix (tornWrite written)) { disk := file } (rewriteHead offset buffer infoLen)
      fun _ past _ => beyondReads past ≠ [] := by
  have size := @readBuffer_length file buffer offset inside (length ▸ long)
  apply Ends.bind (blocksReadBlockHead_torn inRange inside long)
  · rintro ⟨rval, block⟩ past between ⟨same, rfl⟩
    obtain ⟨rfl, rfl⟩ := Prod.mk.inj (Except.ok.inj same)
    dsimp only
    rw [if_pos rfl, blocksWriteBlockHead, ofBytes_readBuffer inside, if_neg (by omega)]
    apply ends_fseek
    intro found sought _ called
    rw [posix_fseek_torn (by decide) inRange] at called
    obtain ⟨rfl, rfl⟩ := Prod.mk.inj called
    rw [if_pos rfl, bufferBytes, if_neg (by omega), bind_assoc]
    apply @ends_aside _ _ _ _ (.adjacent _) _ trivial
    intro beyond next _ _
    unfold Ends
    dsimp only
    rw [beyondReads_append]
    exact List.append_ne_nil_of_right_ne_nil _ (List.cons_ne_nil _ _)
  · rintro reason past after ⟨same, -⟩
    cases same

theorem rewriteHead_torn (inRange : offset ≤ offMax) (inside : offset + 32 ≤ file.length)
    (long : 32 ≤ infoLen) (length : buffer.length = infoLen)
    (fits : (blocksBytesToData (headAt file offset).blockType).toNat ≤ infoLen) :
    Ends (posix (tornWrite infoLen)) { disk := file } (rewriteHead offset buffer infoLen)
      fun _ _ after => after.file =
        patch file offset ((readBuffer file offset buffer).take (min infoLen (offMax - offset))) := by
  have size := @readBuffer_length file buffer offset inside (length ▸ long)
  apply Ends.bind (blocksReadBlockHead_torn inRange inside long)
  · rintro ⟨rval, block⟩ past between ⟨same, rfl⟩
    obtain ⟨rfl, rfl⟩ := Prod.mk.inj (Except.ok.inj same)
    have whole := @blocksWriteBlockHead_fits offset (readBuffer file offset buffer)
      (by rw [ofBytes_readBuffer inside, size, length]; exact fits)
    rw [size, length] at whole
    dsimp only
    rw [if_pos rfl, whole, seekWrite, bind_assoc]
    refine Ends.call (posix_fseek_torn (by decide) inRange) ?_
    rfl
  · rintro reason past after ⟨same, -⟩
    cases same

/-! ## Both directions -/

/-- Rewriting a header changes nothing exactly where the buffer holds the header of the type and
behind the `INFO_BLOCK` what the file holds. -/
theorem rewriteHead_keeps (bounded : file.length ≤ offMax) (inside : offset + 32 ≤ file.length)
    (long : 32 ≤ infoLen) (length : buffer.length = infoLen) :
    RewriteKeeps file offset buffer infoLen ↔ Rewritable file offset buffer infoLen := by
  have inRange : offset ≤ offMax := by omega
  constructor
  · rintro ⟨kept, within⟩
    have fits : (blocksBytesToData (headAt file offset).blockType).toNat ≤ infoLen := by
      by_contra longer
      exact rewriteHead_beyond inRange inside long length (Nat.lt_of_not_le longer)
        (within (tornWrite 0) { disk := file } rfl)
    refine ⟨fits, fun index behind among reached => ?_⟩
    have torn : (run (posix (tornWrite infoLen)) (rewriteHead offset buffer infoLen)
        { disk := file }).2.file = _ := rewriteHead_torn inRange inside long length fits
    have same : _ = file := torn.symm.trans ((kept (tornWrite infoLen) { disk := file } rfl).file rfl)
    have size := @readBuffer_length file buffer offset inside (length ▸ long)
    -- The byte lies in the part that was written, which is the file as it was.
    have taken : index < ((readBuffer file offset buffer).take
      (min infoLen (offMax - offset))).length := by
      rw [List.length_take, size]
      omega
    rw [← same, patch_getElem?_inside _ (by omega) (by omega), Nat.add_sub_cancel_left,
      List.getElem?_take_of_lt (by rw [List.length_take] at taken; omega),
      readBuffer_getElem? inside (by omega), if_neg (by omega)]
  · intro rewritable
    have ends (platform : Platform) (world : World) (same : world.file = file) :
        Ends (posix platform) world (rewriteHead offset buffer infoLen)
          fun _ past after => SameFile world after ∧ beyondReads past = [] := by
      subst same
      exact rewriteHead_ends bounded inside long length rewritable
    exact ⟨fun platform world same => (ends platform world same).1,
      fun platform world same => (ends platform world same).2⟩

end Rewrite

/-- The root of a new file, read into a buffer that holds its header. -/
theorem rewriteHead_keeps_root : RewriteKeeps (freshFile 80 3) 0 (freshFile 80 3) 80 ↔
    Rewritable (freshFile 80 3) 0 (freshFile 80 3) 80 :=
  rewriteHead_keeps (by decide +kernel) (by decide +kernel) (by decide) (by decide +kernel)

/-- The root of a new file, read into a buffer for an `INFO_BLOCK`. -/
theorem rewriteHead_not_keeps :
    ¬ RewriteKeeps (freshFile 80 3) 0 (List.replicate 32 0) 32 := by
  rintro ⟨-, within⟩
  exact absurd (within (Platform.sound fun _ _ => 0) (freshWorld 80 3) rfl) (by decide +kernel)

end Recnodb
