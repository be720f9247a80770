import Recnodb.Creation
import Recnodb.Growth

/-!
# A new file, opened again

What creation leaves is what a later opening reads: the same header, whatever sizes the
later call names. Whether the file can grow afterwards is another matter. It reserves one
chunk and writes a header of 72 bytes, so the larger of the two is its length, and an
append asks for a multiple of the chunk size.
-/

namespace Recnodb

open Interaction Octets Program

variable {platform : Platform} {memory : Nat → Nat → UInt8} {file : List UInt8}
variable {flags chunkSize recSize : UInt32}

/-- The length of a new file: the header may be longer than the chunk. -/
theorem freshFile_length_max (positive : chunkSize > 0) :
    (freshFile chunkSize recSize).length = max chunkSize.toNat 72 := by
  have some : 0 < chunkSize.toNat := UInt32.lt_iff_toNat_lt.mp positive
  have header : (freshHead chunkSize recSize).toBytes ≠ [] :=
    List.ne_nil_of_length_pos (by simp)
  rw [freshFile, patch_length _ _ _ header, patch_length _ _ _ (List.cons_ne_nil _ _),
    freshHead_length]
  simp only [List.length_nil, List.length_singleton]
  omega

/-- The opening of a file with a valid header. -/
theorem blocksFileOpen_read (read : rndCreate flags = false)
    (long : sizeofHeadFile ≤ file.length)
    (valid : blocksValidateHeadFile (some (RndHeadFile.ofBytes (slice file 0 sizeofHeadFile))) =
      .success) :
    OnFile memory file (blocksFileOpen flags chunkSize recSize) fun result after _ =>
      after = file ∧ ∃ stream, result = (.success,
        ⟨some stream, RndHeadFile.ofBytes (slice file 0 sizeofHeadFile)⟩) := by
  rw [blocksFileOpen, read]
  apply OnFile.primeHandle_bind
  apply OnFile.fopen_bind
  intro stream
  have inside : 0 + sizeofHeadFile ≤ file.length := by rwa [Nat.zero_add]
  apply OnStream.fread_bind inside
  have accepted : blocksValidateHandle
      (some ⟨some stream, RndHeadFile.ofBytes (slice file 0 sizeofHeadFile)⟩) = .success := by
    rw [blocksValidateHandle, if_neg (Option.some_ne_none _), valid]
  dsimp only [Program.bind, Bind.bind, Pure.pure]
  rw [if_neg (not_not_intro rfl), if_neg (not_not_intro accepted)]
  exact OnStream.of_file (OnFile.ret ⟨rfl, stream, rfl⟩)

/-- Closing leaves the file. -/
theorem blocksFileClose_keeps {handle : Rndh} :
    UnderFaults platform file (blocksFileClose handle) fun _ after _ => after = file := by
  unfold blocksFileClose
  split
  · exact UnderFaults.ret rfl
  · exact UnderFaults.fclose_bind fun _ => (UnderFaults.ret rfl)

/-! ## What creation makes, opening accepts -/

/-- A file that was created and closed can be used again: its length is a multiple of the
chunk size, every later opening on which nothing fails delivers the header of the creation,
and every append behind it, of a data block of some chunks, finds its place. -/
structure Reusable (platform : Platform) (chunkSize recSize : UInt32) (handle : Rndh)
    (closed : World) : Prop where
  multiple : chunkSize.toNat ∣ closed.file.length
  opens : ∀ flags chunkSize' recSize', rndCreate flags = false →
    (run (posix platform) (blocksFileOpen flags chunkSize' recSize') closed).2.failures =
      closed.failures →
    ∃ again reopened, run (posix platform) (blocksFileOpen flags chunkSize' recSize') closed =
        (.ok (.success, again), reopened) ∧
      again.headFile.toBytes = handle.headFile.toBytes ∧
      again.headFile.thead.recSize = recSize ∧ again.headFile.fhead.chunkSize = chunkSize ∧
      again.headFile.bhead.blockSize = chunkSize
  appends : ∀ flags chunkSize' recSize' again reopened bdef, rndCreate flags = false →
    run (posix platform) (blocksFileOpen flags chunkSize' recSize') closed =
      (.ok (.success, again), reopened) → reopened.failures = closed.failures →
    bdef.blockType = .data → 0 < bdef.blockSize.toNat → chunkSize.toNat ∣ bdef.blockSize.toNat →
    (run (posix platform) (blocksAppendBlock again bdef) reopened).2.failures =
      reopened.failures →
    ∃ code made after, run (posix platform) (blocksAppendBlock again bdef) reopened =
      (.ok (code, made), after) ∧ code ≠ .invalidBlockLocation

section Again

variable {closed reopened : World} {again : Rndh} {chunkSize' recSize' : UInt32}

/-- A new file that was closed is opened with its header. -/
theorem opens_again (positive : chunkSize > 0) (fresh : closed.file = freshFile chunkSize recSize)
    (read : rndCreate flags = false)
    (calm : (run (posix platform) (blocksFileOpen flags chunkSize' recSize') closed).2.failures =
      closed.failures) :
    ∃ stream reopened, run (posix platform) (blocksFileOpen flags chunkSize' recSize') closed =
        (.ok (.success, freshHandle stream chunkSize recSize), reopened) ∧
      reopened.file = freshFile chunkSize recSize := by
  have length := @freshFile_length_max _ recSize positive
  have long : sizeofHeadFile ≤ (freshFile chunkSize recSize).length := by
    rw [length]
    exact Nat.le_max_right _ _
  have nonzero : chunkSize ≠ 0 := by
    rintro rfl
    exact absurd positive (by decide)
  have valid : blocksValidateHeadFile (some (RndHeadFile.ofBytes
      (slice (freshFile chunkSize recSize) 0 sizeofHeadFile))) = .success := by
    rw [freshFile_head]
    exact @freshHandle_valid 0 _ nonzero recSize
  obtain ⟨result, reopened, completed, same, stream, rfl⟩ :=
    @blocksFileOpen_read platform.memory _ _ chunkSize' recSize'
      read long valid closed fresh
  rw [freshFile_head] at completed
  rw [(run_calm calm).1]
  exact ⟨stream, reopened, completed, same⟩

/-- A new file whose length is a multiple of its chunk size can be used again. -/
theorem reusable_of_multiple {stream : Nat} (positive : chunkSize > 0)
    (fresh : closed.file = freshFile chunkSize recSize)
    (multiple : chunkSize.toNat ∣ (freshFile chunkSize recSize).length) :
    Reusable platform chunkSize recSize (freshHandle stream chunkSize recSize) closed := by
  constructor
  · rw [fresh]
    exact multiple
  · intro flags chunkSize' recSize' read calm
    obtain ⟨stream', reopened, completed, -⟩ := opens_again positive fresh read calm
    exact ⟨_, _, completed, rfl, rfl, rfl, rfl⟩
  · intro flags chunkSize' recSize' again reopened bdef read completed calm data some whole calm'
    have here : (run (posix platform) (blocksFileOpen flags chunkSize' recSize') closed).2.failures =
        closed.failures := by
      rw [completed]
      exact calm
    obtain ⟨stream', reopened', completed', same⟩ := opens_again positive fresh read here
    obtain ⟨delivered, rfl⟩ := Prod.mk.inj (completed.symm.trans completed')
    obtain rfl := (Prod.mk.inj (Except.ok.inj delivered)).2
    have nonzero : chunkSize ≠ 0 := by
      rintro rfl
      exact absurd positive (by decide)
    have settable : bdef.Settable := RndBlockDef.Short.settable (.inl data)
    have aligned : Aligned (freshHandle stream' chunkSize recSize) (freshFile chunkSize recSize) :=
      Nat.mod_eq_zero_of_dvd multiple
    obtain ⟨result, after, appended, rfl, -, -⟩ := @blocksAppendBlock_aligned
      platform.memory _ _ _ (freshHandle_valid nonzero recSize) settable aligned reopened same
    rw [(run_calm calm').1]
    exact ⟨_, _, _, appended, RndError.noConfusion⟩

end Again

/-- A created and closed file can be used again if and only if the chunk size is at least
the length of a file header or divides it. -/
theorem reusable_iff_chunkCovers {world opened closed : World} {handle closedHandle : Rndh}
    (positive : chunkSize > 0) (create : rndCreate flags = true)
    (created : run (posix platform) (blocksFileOpen flags chunkSize recSize) world =
      (.ok (.success, handle), opened))
    (closing : run (posix platform) (blocksFileClose handle) opened = (.ok closedHandle, closed))
    (kept : Lossless platform (log (posix platform) (blocksFileClose handle) opened)) :
    Reusable platform chunkSize recSize handle closed ↔
      sizeofHeadFile ≤ chunkSize.toNat ∨ chunkSize.toNat ∣ sizeofHeadFile := by
  obtain ⟨fresh, stream, rfl⟩ := blocksFileOpen_create create positive created
  have same : closed.file = freshFile chunkSize recSize := by
    rw [← fresh]
    exact blocksFileClose_keeps opened rfl _ _ closing kept
  have length := @freshFile_length_max _ recSize positive
  constructor
  · intro reusable
    have multiple := reusable.multiple
    rw [same, length] at multiple
    rcases Nat.le_total sizeofHeadFile chunkSize.toNat with large | small
    · exact .inl large
    · rw [Nat.max_eq_right small] at multiple
      exact .inr multiple
  · intro covers
    apply reusable_of_multiple positive same
    rw [length]
    rcases covers with large | divides
    · rw [Nat.max_eq_left large]
    · rw [Nat.max_eq_right (Nat.le_of_dvd (by decide) divides)]
      exact divides

/-! ## Two chunk sizes -/

/-- A file of this chunk size, just created. -/
def createdTable (chunkSize : UInt32) : World :=
  (run (posix (Platform.sound fun _ _ => 0)) (blocksFileOpen rndCreateFlag chunkSize 3)
    { disk := [] }).2

/-- The same, closed. -/
def closedTable (chunkSize : UInt32) : World :=
  (run (posix (Platform.sound fun _ _ => 0)) (blocksFileClose (freshHandle 0 chunkSize 3))
    (createdTable chunkSize)).2

theorem reusable_iff_chunkCovers_eighty :
    Reusable (Platform.sound fun _ _ => 0) 80 3 (freshHandle 0 80 3) (closedTable 80) :=
  (@reusable_iff_chunkCovers _ _ _ _ { disk := [] } (createdTable 80) (closedTable 80) _
    ⟨none, freshHead 80 3⟩ (by decide) (by decide) (run_eq_of_value _ (by decide +kernel))
    (run_eq_of_value _ rfl)
    (Platform.durable_sound _ |>.lossless _)).mpr (.inl (by decide))

/-- The header of a file of fifty-byte chunks ends in the middle of the second one. -/
theorem fifty_byte_chunks_not_reusable :
    ¬ ∀ platform world opened closed handle closedHandle,
      run (posix platform) (blocksFileOpen rndCreateFlag 50 3) world =
        (.ok (.success, handle), opened) →
      run (posix platform) (blocksFileClose handle) opened = (.ok closedHandle, closed) →
      Reusable platform 50 3 handle closed := by
  intro always
  have reusable := always (Platform.sound fun _ _ => 0) { disk := [] } (createdTable 50)
    (closedTable 50) (freshHandle 0 50 3) _ (run_eq_of_value _ (by decide +kernel))
    (run_eq_of_value _ rfl)
  exact absurd reusable.multiple (by decide +kernel)

end Recnodb
