import Recnodb.ChainWalk
import Recnodb.Outcomes

/-!
# The search for the last link

A search for the end of a chain follows the links that the file holds and copies the
header it stops at, as many bytes as that header says. Neither is bounded by the
code: links that come back to a block never end, and a header may claim to be longer
than the buffer it is copied from. The search is safe exactly where the links lead,
after finitely many blocks, to an offset that cannot be read or to a last block whose
header fits.
-/

namespace Recnodb

open Interaction Octets Program

variable {platform : Platform} {file : List UInt8} {world : World} {offset : OffT} {size : Nat}

/-! ## Reads of a range -/

/-- At this time the range can be read: neither the seek nor the read fails, and the range
lies inside the file. -/
structure ReadsAt (platform : Platform) (file : List UInt8) (clock : Nat) (offset : OffT)
    (size : Nat) : Prop where
  sought : platform.faults clock = none
  read : platform.faults (clock + 1) = none
  placed : 0 ≤ offset ∧ offset ≤ offMax
  inside : offset.toNat + size ≤ file.length

/-- A read behind its seek, by the outcome of the seek. -/
theorem run_seekRead : run (posix platform) (seekRead offset size) world =
    match posix platform (.fseek offset .seekSet) world with
    | (true, between) =>
        (.ok (posix platform (.fread size) between).1, (posix platform (.fread size) between).2)
    | (false, between) => (.ok none, between) := by
  change run (posix platform) (if (posix platform (.fseek offset .seekSet) world).1 then fread size
    else pure none) (posix platform (.fseek offset .seekSet) world).2 = _
  cases posix platform (.fseek offset .seekSet) world with
  | mk found between =>
    cases found with
    | true => rfl
    | false => rfl

/-- The seek in front of a read. -/
theorem posix_fseek_placed (sought : platform.faults world.clock = none)
    (placed : 0 ≤ offset ∧ offset ≤ offMax) : posix platform (.fseek offset .seekSet) world =
      (true, { world.flush.tick with position := offset.toNat }) := by
  rw [posix, sought]
  exact if_pos placed

/-- A range that can be read is delivered. -/
theorem run_seekRead_reads (some : 0 < size)
    (reads : ReadsAt platform world.file world.clock offset size) :
    run (posix platform) (seekRead offset size) world =
      (.ok (.some ⟨slice world.file offset.toNat size, slice_length_inside reads.inside⟩),
        { world.flush with clock := world.clock + 1 + 1, position := offset.toNat + size }) := by
  have delivered : posix platform (.fread size) { world.flush.tick with position := offset.toNat } =
      (.some ⟨slice world.file offset.toNat size, slice_length_inside reads.inside⟩,
        { world.flush with clock := world.clock + 1 + 1, position := offset.toNat + size }) := by
    have sound : platform.faults ({ world.flush.tick with position := offset.toNat } : World).clock =
        none := reads.read
    rw [posix, sound]
    exact dif_pos ⟨some, reads.inside⟩
  rw [run_seekRead, posix_fseek_placed reads.sought reads.placed]
  dsimp only
  rw [delivered]

/-- A range that cannot be read is not. -/
theorem run_seekRead_lost (lost : ¬ ReadsAt platform world.file world.clock offset size) :
    ∃ after, run (posix platform) (seekRead offset size) world = (.ok none, after) := by
  rw [run_seekRead]
  cases sought : platform.faults world.clock with
  | some fault =>
    have failed : posix platform (.fseek offset .seekSet) world =
        (false, (world.drain fault.lost).failed fault.errno) := by
      rw [posix, sought]
      rfl
    rw [failed]
    exact ⟨_, rfl⟩
  | none =>
    by_cases placed : 0 ≤ offset ∧ offset ≤ offMax
    · rw [posix_fseek_placed sought placed]
      cases read : platform.faults (world.clock + 1) with
      | some fault =>
        have failed : (posix platform (.fread size)
            { world.flush.tick with position := offset.toNat }).1 = none := by
          have broken : platform.faults
              ({ world.flush.tick with position := offset.toNat } : World).clock = some fault := read
          rw [posix, broken]
          rfl
        dsimp only
        rw [failed]
        exact ⟨_, rfl⟩
      | none =>
        have outside : ¬ (0 < size ∧ offset.toNat + size ≤ world.file.length) := fun inside =>
          lost ⟨sought, read, placed, inside.2⟩
        have short : (posix platform (.fread size)
            { world.flush.tick with position := offset.toNat }).1 = none := by
          have sound : platform.faults
              ({ world.flush.tick with position := offset.toNat } : World).clock = none := read
          rw [posix, sound]
          exact congrArg Prod.fst (dif_neg outside)
        dsimp only
        rw [short]
        exact ⟨_, rfl⟩
    · have failed : posix platform (.fseek offset .seekSet) world =
          (false, world.flush.failed einval) := by
        rw [posix, sought]
        exact if_neg placed
      rw [failed]
      exact ⟨_, rfl⟩

/-! ## Links that end -/

/-- The links from an offset lead to an end that the search survives. The times at which
the headers are read are those of a search that starts at the first one. -/
inductive ChainEnds (platform : Platform) (file : List UInt8) : Nat → OffT → Prop where
  | unread {clock : Nat} {offset : OffT}
      (lost : ¬ ReadsAt platform file clock offset sizeofHeadFile) :
      ChainEnds platform file clock offset
  | last {clock : Nat} {offset : OffT}
      (reads : ReadsAt platform file clock offset sizeofHeadFile)
      (childless : (headAt file offset.toNat).nextBlock.offset = 0)
      (fits : (headAt file offset.toNat).bytesToData.toNat ≤ sizeofHeadFile) :
      ChainEnds platform file clock offset
  | linked {clock : Nat} {offset : OffT}
      (reads : ReadsAt platform file clock offset sizeofHeadFile)
      (child : (headAt file offset.toNat).nextBlock.offset ≠ 0)
      (rest : ChainEnds platform file (clock + 2) (headAt file offset.toNat).nextBlock.offset) :
      ChainEnds platform file clock offset

/-- The search returns, and copies no more bytes than the buffer holds. -/
def SearchReturns (platform : Platform) (world : World) (link : OffT) : Prop :=
  ∃ fuel rval found after,
    run (posix platform) (chainsLastLink fuel link) world = (.ok (rval, found), after) ∧
    ∀ header offset, found = some (header, offset) → header.length ≤ sizeofHeadFile

section Rounds

variable {fuel : Nat} {link : OffT}

/-- The process behind a header that was read. -/
def World.shown (world : World) (offset : OffT) : World :=
  { world.flush with clock := world.clock + 1 + 1, position := offset.toNat + sizeofHeadFile }

/-- Copying a header takes as many bytes as it says. -/
theorem bufferBytes_copies {block : List UInt8} {count : Nat} :
    ∃ bytes after, run (posix platform) (bufferBytes block count) world = (.ok bytes, after) ∧
      bytes.length = count := by
  unfold bufferBytes
  split
  · rename_i covered
    exact ⟨_, _, rfl, List.length_take_of_le covered⟩
  · rename_i uncovered
    refine ⟨_, _, rfl, ?_⟩
    have beyond := (posix platform (.adjacent (count - block.length)) world).1.property
    change (block ++ (posix platform (.adjacent (count - block.length)) world).1.val).length = count
    rw [List.length_append, beyond]
    omega

/-- A search that cannot read its first header returns without one. -/
theorem lastLink_lost (lost : ¬ ReadsAt platform world.file world.clock link sizeofHeadFile) :
    ∃ after, run (posix platform) (chainsLastLink fuel link) world =
      (.ok (.systemError, none), after) := by
  obtain ⟨between, read⟩ := run_seekRead_lost lost
  rw [chainsLastLink, chainsWalk, run_bind_ok _ read]
  exact ⟨_, rfl⟩

/-- A search that has read a header goes on with that block. -/
theorem lastLink_reads (reads : ReadsAt platform world.file world.clock link sizeofHeadFile) :
    run (posix platform) (chainsLastLink (fuel + 1) link) world =
      run (posix platform) (viewBlock fuel chainsLastLinkViewer
        (slice world.file link.toNat sizeofHeadFile) link none) (world.shown link) := by
  rw [chainsLastLink, chainsWalk_succ, run_bind_ok _ (run_seekRead_reads (by decide) reads)]
  rfl

/-- The last block is copied. -/
theorem lastLink_last (reads : ReadsAt platform world.file world.clock link sizeofHeadFile)
    (childless : (headAt world.file link.toNat).nextBlock.offset = 0) :
    ∃ header after, run (posix platform) (chainsLastLink (fuel + 1) link) world =
        (.ok (.success, some (header, link)), after) ∧
      header.length = (headAt world.file link.toNat).bytesToData.toNat := by
  obtain ⟨header, after, copied, length⟩ := @bufferBytes_copies platform (world.shown link)
    (slice world.file link.toNat sizeofHeadFile)
    (headAt world.file link.toNat).bytesToData.toNat
  refine ⟨header, after, ?_, length⟩
  rw [lastLink_reads reads, viewBlock, chainsLastLinkViewer]
  dsimp only
  rw [ofBytes_shown, if_pos childless, bind_assoc, run_bind_ok _ copied]
  rfl

/-- A block with a child leaves the search to the child. -/
theorem lastLink_linked (reads : ReadsAt platform world.file world.clock link sizeofHeadFile)
    (child : (headAt world.file link.toNat).nextBlock.offset ≠ 0) :
    run (posix platform) (chainsLastLink (fuel + 1) link) world =
      run (posix platform) (chainsLastLink fuel (headAt world.file link.toNat).nextBlock.offset)
        (world.shown link) := by
  rw [lastLink_reads reads, viewBlock, chainsLastLinkViewer]
  dsimp only
  rw [ofBytes_shown, if_neg child, pure_eq_ret, ret_bind]
  dsimp only
  rw [if_pos rfl, ofBytes_shown, if_neg child]
  rfl

/-- Without fuel a search that has read a header is not finished. -/
theorem lastLink_unfinished (reads : ReadsAt platform world.file world.clock link sizeofHeadFile) :
    (run (posix platform) (chainsLastLink 0 link) world).1 = .error .fuel := by
  rw [chainsLastLink, chainsWalk, run_bind_ok _ (run_seekRead_reads (by decide) reads)]
  rfl

end Rounds

/-- Links that end are searched, by induction on the links. -/
theorem searchReturns_of_chainEnds {clock : Nat} (ends : ChainEnds platform file clock offset)
    (same : world.file = file) (now : world.clock = clock) :
    SearchReturns platform world offset := by
  induction ends generalizing world with
  | unread lost =>
    subst same now
    obtain ⟨after, returned⟩ := @lastLink_lost _ _ 0 _ lost
    exact ⟨0, _, _, after, returned, fun _ _ found => absurd found.symm (Option.some_ne_none _)⟩
  | last reads childless fits =>
    subst same now
    obtain ⟨header, after, returned, length⟩ := @lastLink_last _ _ 0 _ reads childless
    refine ⟨1, _, _, after, returned, fun copied place found => ?_⟩
    obtain ⟨rfl, -⟩ := Prod.mk.inj (Option.some.inj found)
    rw [length]
    exact fits
  | linked reads child rest ih =>
    subst same now
    obtain ⟨fuel, rval, found, after, returned, bounded⟩ := @ih (world.shown _) rfl rfl
    exact ⟨fuel + 1, rval, found, after, (lastLink_linked reads child).trans returned, bounded⟩

/-- A search that returns has followed links that end, by induction on its fuel. -/
theorem chainEnds_of_returned {fuel : Nat} {rval : RndError} {found : Option (List UInt8 × OffT)}
    {after : World}
    (returned : run (posix platform) (chainsLastLink fuel offset) world = (.ok (rval, found), after))
    (bounded : ∀ header place, found = some (header, place) → header.length ≤ sizeofHeadFile) :
    ChainEnds platform world.file world.clock offset := by
  induction fuel generalizing world offset with
  | zero =>
    by_cases reads : ReadsAt platform world.file world.clock offset sizeofHeadFile
    · have unfinished := lastLink_unfinished reads
      rw [returned] at unfinished
      exact absurd unfinished (fun same => by cases same)
    · exact .unread reads
  | succ fuel ih =>
    by_cases reads : ReadsAt platform world.file world.clock offset sizeofHeadFile
    · by_cases childless : (headAt world.file offset.toNat).nextBlock.offset = 0
      · obtain ⟨header, final, last, length⟩ := @lastLink_last _ _ fuel _ reads childless
        obtain ⟨delivered, -⟩ := Prod.mk.inj (last.symm.trans returned)
        obtain ⟨-, same⟩ := Prod.mk.inj (Except.ok.inj delivered)
        refine .last reads childless ?_
        rw [← length]
        exact bounded header offset same.symm
      · exact .linked reads childless
          (@ih (world.shown offset) _ ((lastLink_linked reads childless).symm.trans returned))
    · exact .unread reads

/-- The search for the last link returns, and stays within its buffer, if and only if the
links end. -/
theorem searchReturns_iff_chainEnds (platform : Platform) (world : World) (link : OffT) :
    SearchReturns platform world link ↔ ChainEnds platform world.file world.clock link := by
  constructor
  · rintro ⟨fuel, rval, found, after, returned, bounded⟩
    exact chainEnds_of_returned returned bounded
  · intro ends
    exact searchReturns_of_chainEnds ends rfl rfl

/-- A file of one block whose header says that it is a hundred bytes long. -/
def longHeaded : List UInt8 :=
  (InfoBlock.mk 2 100 160 0 ⟨0, 0⟩).toBytes ++ List.replicate 128 0

theorem long_header_overcopied : ¬ ∀ platform world link, SearchReturns platform world link := by
  intro always
  obtain ⟨fuel, rval, found, after, returned, bounded⟩ :=
    always (Platform.sound fun _ _ => 0) { disk := longHeaded } 0
  cases chainEnds_of_returned returned bounded with
  | unread lost => exact lost ⟨rfl, rfl, by decide, by decide +kernel⟩
  | last reads childless fits => exact absurd fits (by decide +kernel)
  | linked reads child rest => exact child (by decide +kernel)

end Recnodb
