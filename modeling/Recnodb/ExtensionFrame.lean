import Recnodb.BlockFaults
import Recnodb.Restoration

/-!
# What an extension of a chain rewrites

`blocks_extend_chain` is to change one field of the old file, the link of the last
block. It reads the old header into a buffer of the new header's length and
writes back as many bytes as the longer of the two headers has. A longer old
header is completed from the memory next to the buffer; a longer new one is
completed from the new header.
-/

namespace Recnodb

open Interaction Octets Program

/-- The link of a header is set, and no other byte of the old file differs. -/
structure FrameKept (file after : List UInt8) (chainEnd : Nat) (newBlock : BlockLoc) : Prop where
  link : slice after (chainEnd + 16) 16 = newBlock.toBytes
  others : ∀ index, index < file.length → index < chainEnd + 16 ∨ chainEnd + 32 ≤ index →
    after[index]? = file[index]?

/-- The same failures, with other memory next to local buffers. -/
def Platform.remembering (platform : Platform) (memory : Nat → Nat → UInt8) : Platform :=
  { platform with memory := memory }

/-- An extension that answers success sets the link and nothing else, and goes the
same way whatever the memory next to its buffers holds. -/
def LinksOnly (platform : Platform) (world : World) (handle : Rndh) (chainEnd : Nat)
    (bdef : RndBlockDef) : Prop :=
  ∀ linked final, run (posix platform) (blocksExtendChain handle chainEnd bdef) world =
      (.ok (.success, linked), final) →
    FrameKept world.file final.file chainEnd linked.newBlock ∧
    ∀ memory, run (posix (platform.remembering memory)) (blocksExtendChain handle chainEnd bdef)
      world = (.ok (.success, linked), final)

/-- The old header is no longer than the new one, and what the new one has behind
its `INFO_BLOCK` is what the old file holds there. -/
def LinkKeeps (file : List UInt8) (chainEnd : Nat) (bdef : RndBlockDef) : Prop :=
  (blocksBytesToData (headAt file chainEnd).blockType).toNat ≤
      (blocksBytesToData bdef.blockType.code).toNat ∧
    ∀ index, index < (linkTail bdef).length → chainEnd + 32 + index < file.length →
      file[chainEnd + 32 + index]? = (linkTail bdef)[index]?

/-! ## Memory next to buffers -/

section Memory

variable {platform : Platform} {memory : Nat → Nat → UInt8} {file : List UInt8} {handle : Rndh}
variable {bdef : RndBlockDef}

/-- Every call but a read of the memory next to a buffer. -/
def Call.Owned : Call → Prop
  | .adjacent _ => False
  | _ => True

theorem Call.Direct.owned {request : Call} (direct : request.Direct) : request.Owned := by
  cases request with
  | adjacent count => exact direct
  | _ => trivial

theorem owned_of_direct {α : Type} {program : Prog α} (direct : program.Only Call.Direct) :
    program.Only Call.Owned :=
  only_mono (fun _ => Call.Direct.owned) direct

theorem posix_remembering {request : Call} {world : World} (owned : request.Owned) :
    posix platform request world = posix (platform.remembering memory) request world := by
  have same : (platform.remembering memory).faults world.clock = platform.faults world.clock := rfl
  unfold posix
  rw [same]
  cases request with
  | adjacent count => exact owned.elim
  | _ => cases platform.faults world.clock <;> rfl

/-- A program of owned calls goes the same way whatever that memory holds. -/
theorem run_owned {α : Type} {program : Prog α} (owned : program.Only Call.Owned) (world : World) :
    run (posix (platform.remembering memory)) program world = run (posix platform) program world :=
  run_only_agree (fun _ _ => posix_remembering) owned world

/-- The header of a new block is written from its own buffer. -/
theorem direct_writeNewHead {position : OffT} (settable : bdef.Settable) :
    (writeNewHead position bdef).Only Call.Direct := by
  have length := newHead_length bdef settable
  rw [writeNewHead, blocksSetInfoBlockStruct_eq bdef settable, ret_bind]
  apply direct_blocksWriteBlockHead
  · rw [ofBytes_newHead, newInfoBlock, length]
  · rw [length]

theorem owned_blocksAppendBlock (settable : bdef.Settable) :
    (blocksAppendBlock handle bdef).Only Call.Owned := by
  have append : (appendBlock handle bdef).Only Call.Owned :=
    only_appendBlock (fun _ => Call.Direct.owned) fun _ =>
      owned_of_direct (direct_writeNewHead settable)
  exact only_bind (only_perform trivial) fun _ => only_bind append fun _ =>
    only_bind (only_perform trivial) fun _ => trivial

/-- The read of a header keeps the file. -/
theorem keeping_blocksReadBlockHead {offset : OffT} {block : List UInt8} {infoLen : Nat} :
    (blocksReadBlockHead offset block infoLen).Only Call.Keeping := by
  refine only_bind (only_bind (only_perform trivial) fun found => ?_) fun read => ?_
  · cases found with
    | false => trivial
    | true => exact only_perform trivial
  · cases read with
    | none => exact only_bind (only_perform trivial) fun _ => trivial
    | some bytes => trivial

/-- Writing a header from a stream that holds nothing loses nothing. -/
theorem lossless_blocksWriteBlockHead {world : World} {offset : OffT} {block : List UInt8}
    {infoLen : Nat} (empty : world.held = []) :
    Lossless platform (log (posix platform) (blocksWriteBlockHead offset block infoLen) world) := by
  rw [blocksWriteBlockHead]
  refine lossless_bind_keeping (only_perform trivial) empty fun found sought idle => ?_
  cases found with
  | false =>
    change Lossless platform
      (log (posix platform) (keepErrno >>= fun _ => pure RndError.systemError) sought)
    exact lossless_of_undrained (only_bind (only_perform id) fun _ => trivial)
  | true =>
    rw [if_pos rfl]
    have buffer (count : Nat) : (bufferBytes block count).Only Call.Keeping := by
      unfold bufferBytes
      split
      · trivial
      · exact only_bind (only_perform trivial) fun _ => trivial
    refine lossless_bind_keeping (buffer _) idle fun bytes between still => ?_
    refine lossless_cons.mpr ⟨spared_of_empty still _, lossless_of_undrained ?_⟩
    change (if (posix platform (.fwrite bytes) between).1 then pure RndError.success
      else keepErrno >>= fun _ => pure .systemError).Only _
    split
    · trivial
    · exact only_bind (only_perform id) fun _ => trivial

/-- Linking from a stream that holds nothing loses nothing. -/
theorem lossless_linkNewBlock {world : World} {chainEnd : OffT} (preparable : bdef.Preparable)
    (empty : world.held = []) :
    Lossless platform (log (posix platform) (linkNewBlock chainEnd bdef) world) := by
  rw [linkNewBlock, blocksSetInfoBlockStruct_prepared preparable, ret_bind]
  refine lossless_bind_keeping keeping_blocksReadBlockHead empty fun read between idle => ?_
  dsimp only
  split
  · exact lossless_nil
  · split
    · exact lossless_nil
    · exact lossless_blocksWriteBlockHead idle

/-- Behind the read of a header that is not longer than the buffer, linking stays
inside the buffer. -/
theorem run_linkNewBlock_remembering {chainEnd : Nat} {world : World} (settable : bdef.Settable)
    (fits : bdef.newBlock.Fits) (empty : world.held = [])
    (within : (blocksBytesToData (headAt world.file chainEnd).blockType).toNat ≤
      (blocksBytesToData bdef.blockType.code).toNat) :
    run (posix (platform.remembering memory)) (linkNewBlock chainEnd bdef) world =
      run (posix platform) (linkNewBlock chainEnd bdef) world := by
  have tail := linkTail_length settable
  rw [linkNewBlock, blocksSetInfoBlockStruct_eq bdef settable, ret_bind, run_bind, run_bind,
    run_owned (owned_of_direct direct_blocksReadBlockHead)]
  have read := @blocksReadBlockHead_faults platform world.file chainEnd
    (blocksBytesToData bdef.blockType.code).toNat (newHead bdef) (by omega) world rfl
  rcases readRun : run (posix platform) (blocksReadBlockHead chainEnd (newHead bdef)
    (blocksBytesToData bdef.blockType.code).toNat) world with ⟨reason | ⟨rval, ib⟩, after⟩
  · rfl
  obtain ⟨-, -, delivered⟩ := read _ _ readRun (idle_of_keeping keeping_blocksReadBlockHead empty).1
  dsimp only at delivered ⊢
  by_cases success : rval = .success
  · obtain ⟨inside, rfl⟩ := delivered success
    rw [if_neg (not_not_intro success), readOver inside, linkOver inside]
    split
    · rfl
    · -- the buffer holds the whole old header
      have length : ({ headAt world.file chainEnd with nextBlock := bdef.newBlock }.toBytes ++
          linkTail bdef).length = (blocksBytesToData bdef.blockType.code).toNat := by
        rw [List.length_append, InfoBlock.toBytes_length, tail]
      have type : (InfoBlock.ofBytes ({ headAt world.file chainEnd with
          nextBlock := bdef.newBlock }.toBytes ++ linkTail bdef)).blockType =
            (headAt world.file chainEnd).blockType := by
        rw [InfoBlock.ofBytes_append (InfoBlock.toBytes_length _), InfoBlock.ofBytes_toBytes fits]
      apply run_owned
      apply owned_of_direct
      apply direct_blocksWriteBlockHead
      · rw [type, length]
        exact within
      · rw [length]
  · rw [if_pos success]
    rfl

/-- The block that an extension appends, behind the old bytes. -/
theorem grown_of_success {world grown : World} {made : RndBlockDef} (some : 0 < bdef.blockSize.toNat)
    (appended : run (posix platform) (primeHandle >>= fun _ => blocksAppendBlock handle bdef) world =
      (.ok (.success, made), grown)) :
    made = bdef.placed world.file ∧ world.file <+: grown.file ∧ world.file.length ≤ offMax ∧
      grown.held = [] := by
  rw [primeHandle, run_bind_ok _ (run_issue posix_primeHandle)] at appended
  have answers := @appendAnswers_of_run _ { world with sysErrno := 0 } _ _ some _ _ appended
  obtain ⟨placed, kept, bounded⟩ := answers.whole rfl
  exact ⟨placed, kept, bounded, answers.held⟩

/-- A block behind a file that a stream can measure has a link that fits its fields. -/
theorem placed_fits {file : List UInt8} (bound : file.length ≤ offMax) :
    (bdef.placed file).newBlock.Fits := by
  apply BlockLoc.fits_of_lt
  · rw [offMax] at bound
    omega
  · exact bdef.blockSize.toNat_lt.trans (by decide)

/-- A header among the old bytes is the old one. -/
theorem headAt_kept {file grown : List UInt8} {offset : Nat} (kept : file <+: grown)
    (inside : offset + 32 ≤ file.length) : headAt grown offset = headAt file offset := by
  have same : slice grown offset 32 = slice file offset 32 := by
    apply slice_congr
    intro index above below
    rw [List.prefix_iff_getElem?.mp kept index (by omega), List.getElem?_eq_getElem]
  rw [headAt, headAt, same]

/-- An extension goes the same way whatever that memory holds, if the header it
links is not longer than the new one. -/
theorem run_blocksExtendChain_remembering {chainEnd : Nat} {world : World}
    (settable : bdef.Settable) (some : 0 < bdef.blockSize.toNat)
    (inside : chainEnd + 32 ≤ world.file.length)
    (within : (blocksBytesToData (headAt world.file chainEnd).blockType).toNat ≤
      (blocksBytesToData bdef.blockType.code).toNat) :
    run (posix (platform.remembering memory)) (blocksExtendChain handle chainEnd bdef) world =
      run (posix platform) (blocksExtendChain handle chainEnd bdef) world := by
  have front : (primeHandle >>= fun _ => blocksAppendBlock handle bdef).Only Call.Owned :=
    only_bind (only_perform trivial) fun _ => owned_blocksAppendBlock settable
  rw [blocksExtendChain, ← bind_assoc,
    run_bind _ (primeHandle >>= fun _ => blocksAppendBlock handle bdef),
    run_bind _ (primeHandle >>= fun _ => blocksAppendBlock handle bdef), run_owned front]
  rcases appendRun : run (posix platform) (primeHandle >>= fun _ => blocksAppendBlock handle bdef)
    world with ⟨reason | ⟨rval, made⟩, grown⟩
  · rfl
  dsimp only
  by_cases success : rval = .success
  · subst success
    obtain ⟨rfl, kept, bound, empty⟩ := grown_of_success some appendRun
    have fits : (bdef.placed world.file).newBlock.Fits := placed_fits bound
    have link := @run_linkNewBlock_remembering platform memory (bdef.placed world.file) chainEnd
      grown settable fits empty (by rw [headAt_kept kept inside]; exact within)
    rw [if_neg (not_not_intro rfl), run_bind, run_bind, link]
    rfl
  · rw [if_pos success]
    rfl

end Memory

/-! ## The rewritten header -/

section Frame

variable {platform : Platform} {world final : World} {handle : Rndh} {bdef linked : RndBlockDef}
variable {chainEnd : Nat}

/-- The bytes that a completed extension writes over the old header. -/
def relinked (file : List UInt8) (chainEnd : Nat) (bdef : RndBlockDef) (beyond : List UInt8) :
    List UInt8 :=
  { headAt file chainEnd with nextBlock := ⟨file.length, bdef.blockSize.toNat⟩ }.toBytes ++
    linkTail bdef ++ beyond

/-- The file behind a completed extension: the header of the old end is written over, in the file
with the block behind the old bytes. -/
theorem extended_file (settable : bdef.Settable) (some : 0 < bdef.blockSize.toNat)
    (inside : chainEnd + 32 ≤ world.file.length)
    (completed : run (posix platform) (blocksExtendChain handle chainEnd bdef) world =
      (.ok (.success, linked), final)) :
    linked = bdef.placed world.file ∧ ∃ grown time, world.file <+: grown ∧ final.file =
      patch grown chainEnd (relinked world.file chainEnd bdef
        (adjacentBytes (platform.memory time)
          ((blocksBytesToData (headAt world.file chainEnd).blockType).toNat -
            (blocksBytesToData bdef.blockType.code).toNat))) := by
  rw [blocksExtendChain, ← bind_assoc] at completed
  obtain ⟨⟨rval, made⟩, between, appended, rest⟩ := run_bind_inv _ completed
  by_cases success : rval = .success
  · subst success
    obtain ⟨rfl, kept, bound, empty⟩ := grown_of_success some appended
    obtain ⟨code, after, linking, same⟩ := run_bind_inv _ rest
    obtain ⟨outcome, rfl⟩ := Prod.mk.inj same
    obtain ⟨rfl, rfl⟩ := Prod.mk.inj (Except.ok.inj outcome)
    have written := linkNewBlock_faults (by exact settable)
      (placed_fits bound) between rfl _ _ linking
      (lossless_linkNewBlock (by exact settable.preparable) empty)
    obtain ⟨start, time, here, -, -, left⟩ := written.whole rfl
    obtain rfl : chainEnd = start := Int.natCast_inj.mp here
    have head := headAt_kept kept inside
    have excess : linkLength between.file chainEnd (bdef.placed world.file) -
        (blocksBytesToData (bdef.placed world.file).blockType.code).toNat =
          (blocksBytesToData (headAt world.file chainEnd).blockType).toNat -
            (blocksBytesToData bdef.blockType.code).toNat := by
      have type : (bdef.placed world.file).blockType = bdef.blockType := rfl
      rw [linkLength, head, type]
      omega
    refine ⟨rfl, between.file, time, kept, ?_⟩
    rw [left, linkBytes, excess, head]
    rfl
  · dsimp only at rest
    rw [if_pos success] at rest
    obtain ⟨outcome, -⟩ := Prod.mk.inj rest
    exact absurd (Prod.mk.inj (Except.ok.inj outcome)).1 success

section Rewritten

variable {file grown : List UInt8}

/-- Behind the link, a completed extension writes the tail of the new header. -/
theorem extended_tail {beyond : List UInt8} {index : Nat} (among : index < (linkTail bdef).length) :
    (patch grown chainEnd (relinked file chainEnd bdef beyond))[chainEnd + 32 + index]? =
      (linkTail bdef)[index]? := by
  have place : chainEnd + 32 + index - chainEnd = 32 + index := by omega
  rw [patch_getElem?_inside _ (by omega) (by simp [relinked]; omega), place, relinked,
    List.append_assoc, List.getElem?_append_right (by simp), InfoBlock.toBytes_length,
    List.getElem?_append_left (by omega), Nat.add_sub_cancel_left]

/-- Behind that, it writes the memory next to its buffer. -/
theorem extended_beyond {memory : Nat → UInt8} {count : Nat} (exceeds : 0 < count) :
    (patch grown chainEnd (relinked file chainEnd bdef (adjacentBytes memory count)))[
        chainEnd + (32 + (linkTail bdef).length)]? = some (memory 0) := by
  have place : chainEnd + (32 + (linkTail bdef).length) - chainEnd =
      32 + (linkTail bdef).length := by omega
  rw [patch_getElem?_inside _ (by omega) (by simp [relinked]; omega), place, relinked,
    List.getElem?_append_right (by simp)]
  simp [adjacentBytes, exceeds]

end Rewritten

/-- A completed extension that writes memory goes another way on other memory. -/
theorem not_longer_of_memory (settable : bdef.Settable) (some : 0 < bdef.blockSize.toNat)
    (inside : chainEnd + 32 ≤ world.file.length)
    (free : ∀ memory, run (posix (platform.remembering memory))
      (blocksExtendChain handle chainEnd bdef) world = (.ok (.success, linked), final)) :
    (blocksBytesToData (headAt world.file chainEnd).blockType).toNat ≤
      (blocksBytesToData bdef.blockType.code).toNat := by
  by_contra longer
  obtain ⟨-, grown, time, -, zeros⟩ := extended_file settable some inside (free fun _ _ => 0)
  obtain ⟨-, grown', time', -, ones⟩ := extended_file settable some inside (free fun _ _ => 1)
  have exceeds : 0 < (blocksBytesToData (headAt world.file chainEnd).blockType).toNat -
      (blocksBytesToData bdef.blockType.code).toNat := by omega
  have zero := congrArg (·[chainEnd + (32 + (linkTail bdef).length)]?) zeros
  have one := congrArg (·[chainEnd + (32 + (linkTail bdef).length)]?) ones
  rw [extended_beyond exceeds] at zero one
  rw [zero] at one
  have distinct : ¬ (0 : UInt8) = 1 := by decide
  exact distinct (Option.some.inj one)

/-- Without memory, a completed extension sets the link and writes the tail of the
new header behind it. -/
theorem frameKept_of_tail {file grown : List UInt8} (kept : file <+: grown)
    (inside : chainEnd + 32 ≤ file.length)
    (tail : ∀ index, index < (linkTail bdef).length → chainEnd + 32 + index < file.length →
      file[chainEnd + 32 + index]? = (linkTail bdef)[index]?) :
    FrameKept file (patch grown chainEnd (relinked file chainEnd bdef [])) chainEnd
      (bdef.placed file).newBlock := by
  have length : (relinked file chainEnd bdef []).length = 32 + (linkTail bdef).length := by
    simp [relinked]
  have header : relinked file chainEnd bdef [] =
      patch (slice file chainEnd 32) 16 (bdef.placed file).newBlock.toBytes ++ linkTail bdef := by
    rw [relinked, List.append_nil, ← toBytes_headAt inside, InfoBlock.toBytes_link]
    rfl
  have sliced : (slice file chainEnd 32).length = 32 := slice_length_inside inside
  constructor
  · rw [slice_patch_inside _ (by omega) (by omega), Nat.add_sub_cancel_left, header,
      slice_append_left _ (by rw [patch_length_inside] <;> simp [sliced]),
      slice_patch_inside _ (by omega) (by simp)]
    simpa using slice_all (bdef.placed file).newBlock.toBytes
  · intro index below apart
    by_cases written : chainEnd ≤ index ∧ index < chainEnd + (32 + (linkTail bdef).length)
    · by_cases before : index < chainEnd + 16
      · -- the fields before the link
        rw [patch_getElem?_inside _ written.1 (by omega), header,
          List.getElem?_append_left (by rw [patch_length_inside] <;> simp [sliced]; omega),
          patch_getElem?_outside (by omega) (by omega), slice_getElem?, if_pos (by omega)]
        congr 1
        omega
      · -- the tail of the new header
        obtain ⟨place, rfl⟩ : ∃ place, index = chainEnd + 32 + place :=
          ⟨index - (chainEnd + 32), by omega⟩
        rw [extended_tail (by omega), tail place (by omega) below]
    · have reached : index < grown.length := Nat.lt_of_lt_of_le below kept.length_le
      rw [patch_getElem?_outside reached (by omega), List.prefix_iff_getElem?.mp kept index below,
        List.getElem?_eq_getElem]

/-- A completed extension sets the link and nothing else, independently of memory,
if and only if the old header is no longer than the new one and already ends like
it. -/
theorem linksOnly_iff_linkKeeps (settable : bdef.Settable)
    (header : (newHead bdef).length ≤ bdef.blockSize.toNat)
    (inside : chainEnd + 32 ≤ world.file.length)
    (completed : run (posix platform) (blocksExtendChain handle chainEnd bdef) world =
      (.ok (.success, linked), final)) :
    LinksOnly platform world handle chainEnd bdef ↔ LinkKeeps world.file chainEnd bdef := by
  have some : 0 < bdef.blockSize.toNat := by
    have long := newHead_ge bdef
    omega
  obtain ⟨rfl, grown, time, kept, written⟩ := extended_file settable some inside completed
  constructor
  · intro links
    obtain ⟨frame, free⟩ := links _ _ completed
    constructor
    · exact not_longer_of_memory settable some inside free
    · intro index among below
      rw [← frame.others _ below (.inr (by omega)), written, extended_tail among]
  · rintro ⟨within, tail⟩ linked' final' completed'
    obtain ⟨made, rfl⟩ := Prod.mk.inj (completed.symm.trans completed')
    obtain rfl := (Prod.mk.inj (Except.ok.inj made)).2
    rw [Nat.sub_eq_zero_of_le within] at written
    constructor
    · rw [written]
      exact frameKept_of_tail kept inside tail
    · intro memory
      rw [run_blocksExtendChain_remembering settable some inside within, completed]

end Frame

/-! ## Two old ends -/

/-- A file of one data block, the end of a chain. -/
def oneDataBlock : World :=
  { disk := (newInfoBlock { blockType := .data, blockSize := 80 }).toBytes ++
      List.replicate 48 0 }

/-- A data block behind a data block is linked and nothing else changes. -/
theorem linksOnly_iff_linkKeeps_data :
    LinksOnly (Platform.sound fun _ _ => 0) oneDataBlock (freshHandle 0 80 3) 0
        { blockType := .data, blockSize := 80 } ↔
      LinkKeeps oneDataBlock.file 0 { blockType := .data, blockSize := 80 } := by
  have settable : RndBlockDef.Settable { blockType := .data, blockSize := 80 } := by
    constructor <;> decide
  have completed : (run (posix (Platform.sound fun _ _ => 0)) (blocksExtendChain
      (freshHandle 0 80 3) (0 : Nat) { blockType := .data, blockSize := 80 }) oneDataBlock).1 =
        .ok (.success, { blockType := .data, blockSize := 80, newBlock := ⟨80, 80⟩ }) := by
    decide +kernel
  exact linksOnly_iff_linkKeeps settable (by decide +kernel) (by decide +kernel)
    (run_eq_of_value _ completed)

/-- A data block behind the root of a table: the memory next to a buffer of 32
bytes overwrites the record size of the table, which was three. -/
theorem table_root_overwritten :
    ¬ LinksOnly (Platform.sound fun _ _ => 0) (freshWorld 80 3) (freshHandle 0 80 3) 0
      { blockType := .data, blockSize := 80 } := by
  intro links
  have completed : (run (posix (Platform.sound fun _ _ => 0)) (blocksExtendChain
      (freshHandle 0 80 3) (0 : Nat) { blockType := .data, blockSize := 80 }) (freshWorld 80 3)).1 =
        .ok (.success, { blockType := .data, blockSize := 80, newBlock := ⟨80, 80⟩ }) := by
    decide +kernel
  obtain ⟨frame, -⟩ := links _ _ (run_eq_of_value _ completed)
  have before : (freshWorld 80 3).file[56]? = some 3 := by decide +kernel
  have after : (run (posix (Platform.sound fun _ _ => 0)) (blocksExtendChain (freshHandle 0 80 3)
      (0 : Nat) { blockType := .data, blockSize := 80 }) (freshWorld 80 3)).2.file[56]? = some 0 := by
    decide +kernel
  have kept := frame.others 56 (by decide +kernel) (.inr (by decide))
  rw [before, after] at kept
  exact absurd kept (by decide)

end Recnodb
