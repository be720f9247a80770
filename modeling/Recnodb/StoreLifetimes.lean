import Recnodb.Handles
import Recnodb.SearchEnds
import Recnodb.StoreContents
import Recnodb.TableLifetimes

/-!
# The lifetimes of a store

A file of chained blocks is used by processes one after another. Each opens the file, looks
at it, and allocates, links and writes blocks until it goes away: between two calls of the
library, or at any single call to the platform inside one, and whatever calls failed before
without losing what the stream held.
The file as its stream knows it stores contents that the changes make of the contents of a
new file: no block is lost or moved, what was acknowledged was done, and what was not was
done or not. The stream may still hold what the last change has written. Until a further
call passes it on, that change is not acknowledged as far as the disk goes, which is all
that the next process finds.
-/

namespace Recnodb

open Interaction Octets Program

/-! ## Appends that fail -/

section Appends

variable {platform : Platform} {file : List UInt8} {handle : Rndh} {bdef : RndBlockDef}

/-- A file as it was, or with the length of a block behind it. -/
def Lengthened (file : List UInt8) (bdef : RndBlockDef) (after : List UInt8) : Prop :=
  after = file ∨ after.length = file.length + bdef.blockSize.toNat ∧
    ∀ index, index < file.length → after[index]? = file[index]?

/-- The end of a block is written behind the file. -/
theorem lengthened_end (some : 0 < bdef.blockSize.toNat) :
    Lengthened file bdef (patch file (file.length + bdef.blockSize.toNat - 1) [0]) := by
  refine .inr ⟨?_, fun index below => patch_getElem?_outside below (.inl (by omega))⟩
  rw [patch_length _ _ _ (List.cons_ne_nil _ _), List.length_singleton]
  omega

/-- A part of a header behind the old end keeps the length. -/
theorem lengthened_head {part : List UInt8} (some : 0 < bdef.blockSize.toNat)
    (fits : part.length ≤ bdef.blockSize.toNat) :
    Lengthened file bdef
      (patch (patch file (file.length + bdef.blockSize.toNat - 1) [0]) file.length part) := by
  obtain ⟨length, front⟩ := (@lengthened_end file bdef some).resolve_left (by
    intro same
    have length := congrArg List.length same
    rw [patch_length _ _ _ (List.cons_ne_nil _ _), List.length_singleton] at length
    omega)
  refine .inr ⟨?_, fun index below => ?_⟩
  · rw [patch_length_inside (by omega), length]
  · rw [patch_getElem?_outside (by omega) (.inl below), front index below]

/-- The end of a block is written or not. -/
theorem writeEndOfBlock_lengthened {position : Nat} {location : OffT}
    (some : 0 < bdef.blockSize.toNat) :
    FromPosition platform file position (writeEndOfBlock bdef.blockSize.toUInt64 location)
      fun _ after _ => Lengthened file bdef after := by
  have failed (after : List UInt8) (lengthened : Lengthened file bdef after) :
      UnderFaults platform after (keepErrno >>= fun _ => pure .systemError : Prog RndError)
        fun _ after _ => Lengthened file bdef after :=
    UnderFaults.kept_error lengthened
  refine FromPosition.fseek_end_bind (fun target same _ => ?_)
    (FromPosition.of_file (failed _ (.inl rfl)))
  have place : target = file.length + bdef.blockSize.toNat - 1 := by
    rw [← endByte, same]
    exact (Int.toNat_natCast target).symm
  have written := @lengthened_end file bdef some
  rw [← place] at written
  refine FromPosition.fwrite_bind (fun _ => ?_) fun count => failed _ ?_
  · refine FromPosition.fseek_bind (fun _ _ _ => FromPosition.of_file (UnderFaults.ret written))
      (FromPosition.of_file (failed _ written))
  · cases count with
    | zero =>
      rw [List.take_zero, patch_nil]
      exact .inl rfl
    | succ count =>
      rw [List.take_of_length_le (by simp)]
      exact written

/-- Whatever fails without a loss, an extension adds the length of the block, or nothing. -/
theorem blocksExtendFile_lengthened (some : 0 < bdef.blockSize.toNat) :
    UnderFaults platform file (blocksExtendFile handle bdef.blockSize.toUInt64)
      fun _ after _ => Lengthened file bdef after := by
  refine UnderFaults.assert_bind fun _ => UnderFaults.primeHandle_bind
    (UnderFaults.of_positions fun position => ?_)
  refine FromPosition.fseek_end_bind (fun target _ _ => ?_)
    (FromPosition.of_file (UnderFaults.kept_error (.inl rfl)))
  refine FromPosition.ftell_saved fun location => ?_
  split
  · exact writeEndOfBlock_lengthened some
  · exact FromPosition.of_file (UnderFaults.ret (.inl rfl))

/-- The header of a new block, or a part of it. -/
theorem writeNewHead_part {position : Nat} (settable : bdef.Settable) :
    UnderFaults platform file (writeNewHead position bdef) fun _ after _ =>
      ∃ part, part.length ≤ (newHead bdef).length ∧ after = patch file position part := by
  rw [writeNewHead, blocksSetInfoBlockStruct_eq bdef settable, ret_bind]
  have bytes (time : Nat) : (writtenBytes platform time (newHead bdef)
      (blocksBytesToData bdef.blockType.code).toNat).length = (newHead bdef).length := by
    rw [writtenBytes, writeLength_newHead settable, Nat.sub_self, List.take_length,
      List.length_append, adjacentBytes_length, Nat.add_zero]
  refine blocksWriteBlockHead_faults.mono fun rval after past written => ?_
  by_cases success : rval = .success
  · obtain ⟨start, time, same, -, rfl⟩ := written.whole success
    obtain rfl : position = start := Int.natCast_inj.mp same
    exact ⟨_, Nat.le_of_eq (bytes time), rfl⟩
  · obtain ⟨time, count, rfl⟩ := written.part success
    refine ⟨_, ?_, by rw [Int.toNat_natCast]⟩
    rw [List.length_take, bytes time]
    exact Nat.min_le_right _ _

/-- The same of the body of an append. -/
theorem appendBlock_lengthened (settable : bdef.Settable)
    (large : (newHead bdef).length ≤ bdef.blockSize.toNat) :
    UnderFaults platform file (appendBlock handle bdef)
      fun _ after _ => Lengthened file bdef after := by
  have some : 0 < bdef.blockSize.toNat :=
    Nat.lt_of_lt_of_le (by decide) ((newHead_ge bdef).trans large)
  refine UnderFaults.assert_bind fun _ => UnderFaults.primeHandle_bind
    (UnderFaults.bind measureEnd_faults ?_)
  rintro ⟨original, place⟩ after _ ⟨rfl, rfl, measured⟩
  dsimp only at measured ⊢
  by_cases lost : place = -1
  · rw [if_pos lost]
    refine UnderFaults.keepErrno_bind ?_
    split
    · exact UnderFaults.fseek_bind fun _ => UnderFaults.ret (.inl rfl)
    · exact UnderFaults.ret (.inl rfl)
  obtain rfl := measured.resolve_left lost
  rw [if_neg lost]
  refine UnderFaults.bind (blocksExtendFile_faults.both (blocksExtendFile_lengthened some)) ?_
  rintro rval grown _ ⟨⟨⟨rfl, -, whole⟩, -⟩, lengthened⟩
  have answered {final : List UInt8} {code : RndError} (holds : Lengthened after bdef final) :
      UnderFaults platform final (fseek original .seekSet >>= fun _ =>
        if code = .success then pure (.success, { bdef with
          newBlock := ⟨after.length, bdef.blockSize.toUInt64.toNat⟩ })
        else pure (code, bdef) : Prog (RndError × RndBlockDef))
        fun _ last _ => Lengthened after bdef last := by
    refine UnderFaults.fseek_bind fun _ => ?_
    split
    · exact UnderFaults.ret holds
    · exact UnderFaults.ret holds
  by_cases success : rval = .success
  · subst success
    obtain rfl := whole rfl
    refine UnderFaults.bind (writeNewHead_part settable) ?_
    rintro code final _ ⟨part, fits, rfl⟩
    exact answered (lengthened_head some (fits.trans large))
  · cases rval with
    | success => exact absurd rfl success
    | _ => exact answered lengthened

/-- Whatever fails without a loss, an append adds the length of its block to the file, or nothing. -/
theorem blocksAppendBlock_lengthened (settable : bdef.Settable)
    (large : (newHead bdef).length ≤ bdef.blockSize.toNat) :
    UnderFaults platform file (blocksAppendBlock handle bdef)
      fun _ after _ => Lengthened file bdef after := by
  refine UnderFaults.note_bind (UnderFaults.bind (appendBlock_lengthened settable large) ?_)
  exact fun _ _ _ holds => UnderFaults.note_bind (UnderFaults.ret holds)

end Appends

/-! ## Links that fail -/

/-- Neither a failed write nor a loss of what a stream held ends inside the link of a header. -/
def Platform.WholeLinks (platform : Platform) : Prop :=
  ∀ time fault, platform.faults time = some fault → (fault.written ≤ 16 ∨ 32 ≤ fault.written) ∧
    ∀ count, fault.lost = some count → count ≤ 16 ∨ 32 ≤ count

/-- A write of a header is cut in front of its link or behind it. -/
theorem Platform.WholeLinks.cuts {platform : Platform} (whole : platform.WholeLinks)
    {position count : Nat} (room : position + 32 ≤ offMax) (cuts : platform.Cuts position count) :
    count ≤ 16 ∨ 32 ≤ count := by
  rcases cuts with rfl | ⟨time, fault, scheduled, rfl⟩
  · exact .inl (Nat.zero_le _)
  · have either := (whole time fault scheduled).1
    omega

/-- A crash cuts no write. -/
theorem Platform.WholeLinks.endedAt {platform : Platform} (whole : platform.WholeLinks)
    (time : Nat) : (platform.endedAt time).WholeLinks :=
  endedAt_faults whole ⟨.inl (Nat.zero_le _), nofun⟩

section Links

variable {platform : Platform} {file : List UInt8} {parent : Nat} {newLink : BlockLoc}

/-- A header that is written in front of its link only is the old one. -/
theorem torn_link (inside : parent + 32 ≤ file.length) {count : Nat} (short : count ≤ 16) :
    patch file parent ({ headAt file parent with nextBlock := newLink }.toBytes.take count) =
      file := by
  apply patch_agrees
  intro index among
  rw [List.length_take] at among
  rw [List.getElem?_take_of_lt (by omega), ← InfoBlock.toBytes_link, toBytes_headAt inside,
    patch_getElem?_outside _ (.inl (by omega)), slice_getElem?, if_pos (by omega)]
  rw [slice_length_inside inside]
  omega

/-- Whatever fails without a loss, a link is set behind a block without a child, or the file is
left. -/
theorem chainsAddLink_leaves (whole : platform.WholeLinks) (bounded : file.length ≤ offMax) :
    UnderFaults platform file (chainsAddLink parent newLink) fun rval after _ =>
      rval ≠ .success ∧ after = file ∨
        (headAt file parent).nextBlock.offset = 0 ∧ after = linked file parent newLink [] := by
  rw [chainsAddLink]
  refine UnderFaults.seekRead_bind (fun start inside same => ?_)
    (UnderFaults.kept_error (.inl ⟨RndError.noConfusion, rfl⟩))
  obtain rfl : parent = start := Int.natCast_inj.mp same
  have inside : parent + 32 ≤ file.length := inside
  dsimp only
  by_cases child : (headAt file parent).nextBlock.offset ≠ 0
  · rw [if_pos child]
    exact UnderFaults.ret (.inl ⟨RndError.noConfusion, rfl⟩)
  · rw [if_neg child]
    have childless := not_not.mp child
    refine UnderFaults.seekWrite_cut_bind (fun start same _ => ?_)
      (fun start count same cuts => ?_) ?_
    · obtain rfl : parent = start := Int.natCast_inj.mp same
      refine UnderFaults.ret (.inr ⟨childless, ?_⟩)
      rw [linked, List.append_nil]
    · obtain rfl : parent = start := Int.natCast_inj.mp same
      rcases whole.cuts (inside.trans bounded) cuts with short | long
      · exact UnderFaults.kept_error (.inl ⟨RndError.noConfusion, torn_link inside short⟩)
      · refine UnderFaults.kept_error (.inr ⟨childless, ?_⟩)
        rw [linked, List.append_nil, List.take_of_length_le (by rwa [InfoBlock.toBytes_length])]
    · exact UnderFaults.kept_error (.inl ⟨RndError.noConfusion, rfl⟩)

/-- Whatever fails without a loss, the front of a write reaches the file, and all of it if the write
succeeds. -/
theorem seekWrite_leaves {offset : Nat} {bytes : List UInt8} :
    UnderFaults platform file (seekWrite offset bytes) fun written after _ =>
      ∃ count, after = patch file offset (bytes.take count) ∧
        (written = true → bytes.length ≤ count) := by
  rw [← bind_pure (seekWrite offset bytes)]
  refine UnderFaults.seekWrite_bind (fun start same _ => ?_) (fun start count same => ?_) ?_
  · obtain rfl : offset = start := Int.natCast_inj.mp same
    exact UnderFaults.ret ⟨bytes.length, by rw [List.take_length], fun _ => Nat.le_refl _⟩
  · obtain rfl : offset = start := Int.natCast_inj.mp same
    exact UnderFaults.ret ⟨count, rfl, Bool.noConfusion⟩
  · exact UnderFaults.ret ⟨0, by rw [List.take_zero, patch_nil], Bool.noConfusion⟩

end Links

/-! ## Updates and crashes -/

/-- A block that users know: the first one of the file, or one whose allocation was acknowledged. -/
def Known (chunkSize : UInt32) (past : List Change) (start count : Nat) : Prop :=
  start = 0 ∧ count = chunkSize.toNat - 72 ∨ Change.allocate count (some start) ∈ past

/-- The links from the root lead to this offset. -/
def OnChain (file : List UInt8) (offset : Nat) : Prop :=
  ∃ rest, IsChain file (0 :: rest) ∧ offset ∈ 0 :: rest

/-- Where the block of an append is, if the append was acknowledged. -/
def allocatedAt : Option (RndError × RndBlockDef) → Option Nat
  | some (rval, bdef) => if rval = .success then some bdef.newBlock.offset.toNat else none
  | none => none

/-- The calls that change a store, and the change that a call is by its answer, if it completes. A
block is linked at most once, and behind a block that is linked; bytes are written inside a payload. -/
inductive Update (chunkSize : UInt32) (past : List Change) (file : List UInt8) (handle : Rndh) :
    {α : Type} → Prog α → (Option α → Change) → Prop where
  | allocate {bdef : RndBlockDef} (chunked : bdef.Chunked chunkSize) :
      Update chunkSize past file handle (blocksAppendBlock handle bdef)
        fun answer => .allocate (bdef.blockSize.toNat - 32) (allocatedAt answer)
  | link {parent child count : Nat} (known : Known chunkSize past child count)
      (linked : OnChain file parent) (loose : ¬ OnChain file child) :
      Update chunkSize past file handle
        (chainsAddLink parent ⟨child, (headSizeAt child + count : Nat)⟩)
        fun answer => .link parent child (answer = some .success)
  | write {start count place : Nat} {bytes : List UInt8} (known : Known chunkSize past start count)
      (inside : place + bytes.length ≤ count) :
      Update chunkSize past file handle (seekWrite (start + headSizeAt start + place : Nat) bytes)
        fun answer => .write start place bytes (answer = some true)

/-- The changes behind an update that the disk knows of: all of them, once the stream holds nothing;
the last one unacknowledged, if what was held before it was passed on; else those before. -/
def knownBehind (sure : Option (List Change)) (past : List Change) (begun done : Change)
    (calls : List (Moment Call Answer World)) (after : World) : Option (List Change) :=
  if after.held = [] then some (past ++ [done])
  else if passedOn calls = true then some (past ++ [begun])
  else sure

/-- Processes that use a store one after another, from the one that makes the file: the changes the
disk knows of, once the header of the file is on it; the changes that were asked for; the state of
the last process, and the handle it holds. A failing call may leave anything undone, but loses
nothing of what the stream holds; a process that goes away does, except at an exit. -/
inductive StoreLifetimes (chunkSize recSize : UInt32) :
    Option (List Change) → List Change → World → Option Rndh → Prop where
  | created {platform : Platform} {flags : UInt32} {world after : World} {handle : Rndh}
      (create : rndCreate flags = true)
      (completed : run (posix platform) (blocksFileOpen flags chunkSize recSize) world =
        (.ok (.success, handle), after)) :
      StoreLifetimes chunkSize recSize none [] after (some handle)
  | opened {sure : Option (List Change)} {past : List Change} {world after : World}
      {holder : Option Rndh} {platform : Platform} {flags chunkSize' recSize' : UInt32}
      {rval : RndError} {handle : Rndh}
      (earlier : StoreLifetimes chunkSize recSize sure past world holder) (idle : world.held = [])
      (existing : rndCreate flags = false)
      (completed : run (posix platform) (blocksFileOpen flags chunkSize' recSize') world =
        (.ok (rval, handle), after)) :
      StoreLifetimes chunkSize recSize sure past after (if rval = .success then some handle else none)
  | looked {sure : Option (List Change)} {past : List Change} {world after : World}
      {holder : Option Rndh} {platform : Platform} {α : Type} {program : Prog α}
      {outcome : Except Stop α}
      (earlier : StoreLifetimes chunkSize recSize sure past world holder)
      (durable : platform.Durable) (keeping : program.Only Call.Keeping)
      (ran : run (posix platform) program world = (outcome, after)) :
      StoreLifetimes chunkSize recSize (if after.held = [] then some past else sure) past after holder
  | updated {sure : Option (List Change)} {past : List Change} {world after : World} {handle : Rndh}
      {platform : Platform} {α : Type} {program : Prog α} {told : Option α → Change} {value : α}
      (earlier : StoreLifetimes chunkSize recSize sure past world (some handle))
      (durable : platform.Durable) (whole : platform.WholeLinks)
      (update : Update chunkSize past world.file handle program told)
      (completed : run (posix platform) program world = (.ok value, after)) :
      StoreLifetimes chunkSize recSize (knownBehind sure past (told none) (told (some value))
        (log (posix platform) program world) after) (past ++ [told (some value)]) after (some handle)
  | ended {sure : Option (List Change)} {past : List Change} {world next : World} {handle : Rndh}
      {platform : Platform} {α : Type} {program : Prog α} {told : Option α → Change}
      {front behind : List (Moment Call Answer World)} {moment : Moment Call Answer World}
      (earlier : StoreLifetimes chunkSize recSize sure past world (some handle))
      (durable : platform.Durable) (whole : platform.WholeLinks)
      (update : Update chunkSize past world.file handle program told)
      (among : log (posix platform) program world = front ++ moment :: behind)
      (passed : passedOn front = true) (takes : next.disk = moment.before.disk)
      (fresh : next.held = []) :
      StoreLifetimes chunkSize recSize (some (past ++ [told none])) (past ++ [told none]) next none
  | endedEarly {sure past : List Change} {world next : World} {handle : Rndh} {platform : Platform}
      {α : Type} {program : Prog α} {told : Option α → Change}
      {front behind : List (Moment Call Answer World)} {moment : Moment Call Answer World}
      (earlier : StoreLifetimes chunkSize recSize (some sure) past world (some handle))
      (update : Update chunkSize past world.file handle program told)
      (among : log (posix platform) program world = front ++ moment :: behind)
      (unpassed : passedOn front = false) (takes : next.disk = moment.before.disk)
      (fresh : next.held = []) : StoreLifetimes chunkSize recSize (some sure) sure next none
  | killed {sure past : List Change} {world next : World} {holder : Option Rndh}
      (earlier : StoreLifetimes chunkSize recSize (some sure) past world holder)
      (takes : next.disk = world.disk) (fresh : next.held = []) :
      StoreLifetimes chunkSize recSize (some sure) sure next none
  | exited {sure : Option (List Change)} {past : List Change} {world next : World}
      {holder : Option Rndh} (earlier : StoreLifetimes chunkSize recSize sure past world holder)
      (takes : next.disk = world.file) (fresh : next.held = []) :
      StoreLifetimes chunkSize recSize (some past) past next none

section Updates

variable {platform : Platform} {chunkSize recSize : UInt32} {past : List Change}
variable {contents : Contents} {file : List UInt8} {handle : Rndh}

/-- The blocks on the chain are the linked ones. -/
theorem Contents.Stored.linked_of_onChain (stored : contents.Stored chunkSize recSize file)
    {offset : Nat} (onChain : OnChain file offset) : ∃ block ∈ contents.linked, block.start =
      offset := by
  obtain ⟨rest, chain, among⟩ := onChain
  obtain ⟨root, later, same, zero⟩ := stored.first
  have old := stored.chain
  rw [same, List.map_cons, zero] at old
  rw [chain.unique old] at among
  rw [same]
  exact List.mem_map.mp (by rw [List.map_cons, zero]; exact among)

/-- A linked block is on the chain. -/
theorem Contents.Stored.onChain (stored : contents.Stored chunkSize recSize file) {block : Block}
    (linked : block ∈ contents.linked) : OnChain file block.start := by
  obtain ⟨root, later, same, zero⟩ := stored.first
  have old := stored.chain
  have among := List.mem_map_of_mem linked (f := Block.start)
  rw [same, List.map_cons, zero] at old among
  exact ⟨_, old, among⟩

/-- A known block is one of the contents. -/
theorem Known.has {start count : Nat} (known : Known chunkSize past start count)
    (large : sizeofHeadFile ≤ chunkSize.toNat)
    (reached : Reached (freshContents chunkSize recSize) past contents) :
      contents.Has start count := by
  apply reached.has
  refine known.imp_left ?_
  rintro ⟨rfl, rfl⟩
  refine ⟨_, List.mem_cons_self, rfl, slice_length_inside ?_⟩
  have chunk : 72 ≤ chunkSize.toNat := large
  rw [freshFile_length large]
  omega

/-- Whatever fails without a loss, an append allocates a block if it is acknowledged, and keeps the
contents if not. -/
theorem Contents.Stored.allocation {bdef : RndBlockDef}
    (stored : contents.Stored chunkSize recSize file) (large : sizeofHeadFile ≤ chunkSize.toNat)
    (chunked : bdef.Chunked chunkSize) :
    UnderFaults platform file (blocksAppendBlock handle bdef) fun answer after _ =>
      ∃ contents', Becomes contents
        (.allocate (bdef.blockSize.toNat - 32) (allocatedAt (some answer))) contents' ∧
          contents'.Stored chunkSize recSize after := by
  have settable := chunked.short.settable
  have size := Nat.le_of_dvd chunked.some chunked.whole
  have header : (newHead bdef).length ≤ bdef.blockSize.toNat := by
    rw [newHead_length bdef settable, chunked.short.headSize]
    have chunk : 72 ≤ chunkSize.toNat := large
    omega
  refine ((blocksAppendBlock_faults settable).both
    (blocksAppendBlock_lengthened settable header)).mono ?_
  rintro ⟨rval, placed⟩ after past ⟨⟨-, appended⟩, lengthened⟩
  by_cases success : rval = .success
  · obtain ⟨rfl, rfl, -⟩ := appended.whole success
    rw [allocatedAt, if_pos success]
    exact ⟨_, .allocated stored.behind _, stored.append large chunked⟩
  · rw [allocatedAt, if_neg success]
    refine ⟨contents, .unallocated _, ?_⟩
    rcases lengthened with rfl | ⟨length, front⟩
    · exact stored
    · refine stored.extended ?_ (by omega) front
      rw [length]
      exact Nat.dvd_add stored.whole chunked.whole

/-- Whatever fails without a loss, a link joins a loose block to the last one, or keeps the
contents. -/
theorem Contents.Stored.linking {parent child : Block}
    (stored : contents.Stored chunkSize recSize file) (bounded : file.length ≤ offMax)
    (whole : platform.WholeLinks) (linked : parent ∈ contents.linked)
    (loose : child ∈ contents.loose) :
    UnderFaults platform file (chainsAddLink parent.start ⟨child.start, child.size⟩)
      fun answer after _ => ∃ contents', Becomes contents
        (.link parent.start child.start (some answer = some .success)) contents' ∧
          contents'.Stored chunkSize recSize after := by
  refine (chainsAddLink_leaves whole bounded).mono fun rval after _ left => ?_
  rcases left with ⟨failed, rfl⟩ | ⟨childless, rfl⟩
  · rw [decide_eq_false fun success => failed (Option.some.inj success)]
    exact ⟨contents, .unlinked _ _, stored⟩
  · obtain ⟨before, behind, split⟩ := List.append_of_mem loose
    obtain ⟨front, last, ends⟩ : ∃ front last, contents.linked = front ++ [last] :=
      ⟨_, _, (List.dropLast_append_getLast (List.ne_nil_of_mem linked)).symm⟩
    have chain := stored.chain
    have among := List.mem_map_of_mem linked (f := Block.start)
    rw [ends, List.map_append] at chain among
    have lastAmong : last ∈ contents.linked := by
      rw [ends]
      exact List.mem_append_right _ (List.mem_singleton_self _)
    obtain rfl : parent = last := stored.alone (List.mem_append_left _ linked)
      (List.mem_append_left _ lastAmong) (chain.only_last among childless)
    exact ⟨_, .linked ends split _, stored.link bounded ends split⟩

/-- Whatever fails without a loss, a write stores the front of its bytes, and all of them if it is
acknowledged. -/
theorem Contents.Stored.writing {start place : Nat} {bytes : List UInt8}
    (stored : contents.Stored chunkSize recSize file)
    (room : contents.Room start (place + bytes.length)) :
    UnderFaults platform file (seekWrite (start + headSizeAt start + place : Nat) bytes)
      fun answer after _ => ∃ contents', Becomes contents
        (.write start place bytes (some answer = some true)) contents' ∧
          contents'.Stored chunkSize recSize after := by
  refine seekWrite_leaves.mono ?_
  rintro written _ _ ⟨count, rfl, all⟩
  cases written with
  | true =>
    rw [List.take_of_length_le (all rfl)]
    exact ⟨_, .written room, stored.write room⟩
  | false =>
    refine ⟨_, .cut room count, stored.write (room.less ?_)⟩
    rw [List.length_take]
    omega

/-- Whatever fails without a loss, a completed update makes of the contents what its change may. -/
theorem Update.leaves {α : Type} {program : Prog α} {told : Option α → Change}
    (update : Update chunkSize past file handle program told)
    (large : sizeofHeadFile ≤ chunkSize.toNat) (bounded : file.length ≤ offMax)
    (whole : platform.WholeLinks) (stored : contents.Stored chunkSize recSize file)
    (reached : Reached (freshContents chunkSize recSize) past contents) :
    UnderFaults platform file program fun value after _ => ∃ contents',
      Becomes contents (told (some value)) contents' ∧ contents'.Stored chunkSize recSize after := by
  cases update with
  | allocate chunked => exact stored.allocation large chunked
  | link known linked loose =>
    obtain ⟨parent, parentLinked, rfl⟩ := stored.linked_of_onChain linked
    obtain ⟨child, among, rfl, rfl⟩ := known.has large reached
    have childLoose := (List.mem_append.mp among).resolve_left fun onChain =>
      loose (stored.onChain onChain)
    exact stored.linking bounded whole parentLinked childLoose
  | write known inside => exact stored.writing (stored.room (known.has large reached) inside)

/-- What an update makes of the contents, it may make of them unacknowledged. -/
theorem Update.unacknowledged {α : Type} {program : Prog α} {told : Option α → Change}
    (update : Update chunkSize past file handle program told) {value : α} {after : List UInt8}
    {contents' : Contents} (becomes : Becomes contents (told (some value)) contents')
    (stored : contents'.Stored chunkSize recSize after) : ∃ contents'',
      Becomes contents (told none) contents'' ∧ contents''.Stored chunkSize recSize after := by
  cases update with
  | allocate chunked =>
    dsimp only at becomes
    generalize allocatedAt (some value) = answer at becomes
    cases becomes with
    | allocated behind => exact ⟨contents, .unallocated _, stored.forget⟩
    | unallocated => exact ⟨contents, .unallocated _, stored⟩
  | link known linked loose =>
    dsimp only at becomes
    generalize decide (some value = some RndError.success) = answer at becomes
    cases becomes with
    | linked ends split => exact ⟨_, .linked ends split _, stored⟩
    | unlinked => exact ⟨contents, .unlinked _ _, stored⟩
  | @write start count place bytes known inside =>
    dsimp only at becomes
    generalize decide (some value = some true) = answer at becomes
    cases becomes with
    | written room =>
      have whole := List.take_length (l := bytes)
      refine ⟨_, .cut room bytes.length, ?_⟩
      rw [whole]
      exact stored
    | cut room count => exact ⟨_, .cut room count, stored⟩

/-- A write at an offset delivers. -/
theorem delivers_seekWrite {offset : OffT} {bytes : List UInt8} :
    Delivers (seekWrite offset bytes) :=
  delivers_bind delivers_issue fun found => by
    cases found
    · trivial
    · exact delivers_issue

/-- A link delivers. -/
theorem delivers_chainsAddLink {parent : OffT} {newLink : BlockLoc} :
    Delivers (chainsAddLink parent newLink) := by
  apply delivers_bind delivers_seekRead
  intro read
  cases read with
  | none => exact delivers_kept
  | some bytes =>
    dsimp only
    split
    · trivial
    · exact delivers_bind delivers_seekWrite fun written => delivers_outcome

/-- An append delivers, with a valid handle and a header that can be set. -/
theorem delivers_blocksAppendBlock {bdef : RndBlockDef}
    (valid : blocksValidateHandle (some handle) = .success) (settable : bdef.Settable) :
    Delivers (blocksAppendBlock handle bdef) := by
  apply delivers_bind delivers_issue
  intro _
  apply answers_bind (appendBlock_places valid settable)
  exact fun _ _ => delivers_bind delivers_issue fun _ => trivial

/-- An update always comes to its end, if nothing ends it. -/
theorem Update.answers {α : Type} {program : Prog α} {told : Option α → Change}
    (update : Update chunkSize past file handle program told)
    (valid : blocksValidateHandle (some handle) = .success) : Delivers program := by
  cases update with
  | allocate chunked => exact delivers_blocksAppendBlock valid chunked.short.settable
  | link known linked loose => exact delivers_chainsAddLink
  | write known inside => exact delivers_seekWrite

/-- What an update may make of the contents, unacknowledged, and a file that stores it. -/
def Update.Leaves (contents : Contents) (begun : Change) (chunkSize recSize : UInt32)
    (file : List UInt8) : Prop :=
  ∃ contents', Becomes contents begun contents' ∧ contents'.Stored chunkSize recSize file

/-- In front of every call of an update and behind the last one, the file stores what its change may
make of the contents unacknowledged. -/
theorem Update.throughout {α : Type} {program : Prog α} {told : Option α → Change} {world : World}
    (update : Update chunkSize past world.file handle program told)
    (valid : blocksValidateHandle (some handle) = .success)
    (large : sizeofHeadFile ≤ chunkSize.toNat) (bounded : world.file.length ≤ offMax)
    (durable : platform.Durable) (whole : platform.WholeLinks)
    (stored : contents.Stored chunkSize recSize world.file)
    (reached : Reached (freshContents chunkSize recSize) past contents) :
    (∀ moment ∈ log (posix platform) program world,
      Update.Leaves contents (told none) chunkSize recSize moment.before.file) ∧
      Update.Leaves contents (told none) chunkSize recSize
        (run (posix platform) program world).2.file := by
  have leaves {platform : Platform} (whole : platform.WholeLinks) :
      UnderFaults platform world.file program fun _ after _ =>
        Update.Leaves contents (told none) chunkSize recSize after := by
    refine (update.leaves large bounded whole stored reached).mono ?_
    rintro value after _ ⟨contents', becomes, still⟩
    exact update.unacknowledged becomes still
  constructor
  · exact at_every_moment (Update.Leaves contents (told none) chunkSize recSize) durable
      (fun time => leaves (whole.endedAt time))
      (fun time position => CompletesFrom.of_answers (update.answers valid)) rfl
  · obtain ⟨value, after, completed, -⟩ := run_answers (posix platform) (update.answers valid) world
    rw [completed]
    exact leaves whole world rfl value after completed (durable.lossless _)

/-- An update passes on what the stream held before it writes anything. -/
theorem Update.seeksFirst {α : Type} {program : Prog α} {told : Option α → Change}
    (update : Update chunkSize past file handle program told) : SeeksFirst program := by
  cases update with
  | link => exact seeksFirst_fseek
  | write => exact seeksFirst_fseek
  | allocate chunked =>
    have asserted : SeeksFirst (cAssert (blocksValidateHandle (some handle) == .success)) := by
      cases blocksValidateHandle (some handle) == .success <;> trivial
    have aside {β : Type} {request : Call} {rest : Answer request → Prog β} (aside : request.Aside)
        (each : ∀ reply, SeeksFirst (rest reply)) : SeeksFirst (issue request >>= rest) :=
      .inr ⟨.inl aside, each⟩
    have measured : SeeksFirst measureEnd := by
      refine .inr ⟨.inr rfl, fun original => ?_⟩
      change SeeksFirst (if original = -1 then _ else _)
      split
      · trivial
      · exact seeksFirst_fseek
    refine aside trivial fun _ => seeksFirst_bind ?_ fun _ => aside trivial fun _ => trivial
    refine seeksFirst_bind asserted fun _ => aside trivial fun _ => seeksFirst_bind measured ?_
    rintro ⟨original, place⟩
    dsimp only
    split
    · refine aside trivial fun _ => ?_
      split
      · exact seeksFirst_fseek
      · trivial
    · refine seeksFirst_bind (seeksFirst_bind asserted fun _ => aside trivial fun _ => ?_) ?_
      · exact seeksFirst_fseek
      · intro rval
        cases rval <;> first | exact seeksFirst_fseek | skip
        rw [writeNewHead, blocksSetInfoBlockStruct_eq _ chunked.short.settable]
        exact seeksFirst_fseek

end Updates

/-! ## Whole lifetimes -/

section Lifetimes

variable {chunkSize recSize : UInt32} {sure : Option (List Change)} {past : List Change}
variable {world : World} {holder : Option Rndh}

/-- A successful opening delivers a handle that the library accepts. -/
theorem blocksFileOpen_valid {platform : Platform} {file : List UInt8} {flags : UInt32} :
    UnderFaults platform file (blocksFileOpen flags chunkSize recSize) fun result _ _ =>
      result.1 = .success → blocksValidateHandle (some result.2) = .success := by
  rw [blocksFileOpen_eq]
  refine UnderFaults.primeHandle_bind (UnderFaults.fopen_bind (fun stream => ?_)
    (UnderFaults.kept_error fun success => absurd success RndError.noConfusion))
  refine FromPosition.bind (FromPosition.of_file UnderFaults.nothing) fun result after _ _ => ?_
  unfold acceptHead
  dsimp only
  split
  · rename_i failed
    exact UnderFaults.fclose_bind fun _ => (UnderFaults.ret fun success => absurd success failed)
  · split
    · rename_i failed
      exact UnderFaults.fclose_bind fun _ => (UnderFaults.ret fun success => absurd success failed)
    · rename_i valid
      exact UnderFaults.ret fun _ => not_not.mp valid

/-- A program whose calls leave the file leaves the disk as well, or the stream holds nothing behind
it. -/
theorem run_keeping_disk {platform : Platform} {α : Type} {program : Prog α}
    (keeping : program.Only Call.Keeping) : (run (posix platform) program world).2.held = [] ∨
      (run (posix platform) program world).2.disk = world.disk := by
  refine run_only _ (fun after => after.held = [] ∨ after.disk = world.disk) ?_ keeping world
    (.inr rfl)
  rintro request before keeps (empty | same)
  · exact .inl (posix_keeping_held keeps empty)
  · rcases @FromPosition.posix_cases platform request before with sound | ⟨fault, broken⟩
    · rw [sound]
      cases request with
      | fwrite bytes => exact keeps.elim
      | fopen | fclose => exact .inl rfl
      | fseek | fread =>
        simp only [unfaulted]
        split_ifs <;> exact .inl rfl
      | fcntl =>
        simp only [unfaulted]
        split_ifs <;> exact .inr same
      | _ => exact .inr same
    · rw [broken]
      cases request with
      | fwrite bytes => exact keeps.elim
      | fclose | fseek | fread => exact .inl rfl
      | _ => exact .inr same

/-- The file stores contents that the changes make of those of a new file. -/
def StoresBehind (chunkSize recSize : UInt32) (past : List Change) (file : List UInt8) : Prop :=
  ∃ contents, Reached (freshContents chunkSize recSize) past contents ∧
    contents.Stored chunkSize recSize file

/-- What holds through the lifetimes of a store: of the file as its stream knows it, and of the
disk. -/
structure StoreKept (chunkSize recSize : UInt32) (sure : Option (List Change)) (past : List Change)
    (world : World) (holder : Option Rndh) : Prop where
  bounded : world.file.length ≤ offMax
  valid : ∀ handle, holder = some handle → blocksValidateHandle (some handle) = .success
  file : StoresBehind chunkSize recSize past world.file
  disk : ∀ known, sure = some known → StoresBehind chunkSize recSize known world.disk

/-- A process that takes over a disk knows what is on it. -/
theorem StoreKept.takes {next : World} (bounded : next.disk.length ≤ offMax) (fresh : next.held = [])
    (stores : StoresBehind chunkSize recSize past next.disk) :
    StoreKept chunkSize recSize (some past) past next none := by
  have file := World.file_of_empty fresh
  refine ⟨?_, nofun, ?_, fun known same => ?_⟩
  · rw [file]
    exact bounded
  · rw [file]
    exact stores
  · rw [← Option.some.inj same]
    exact stores

/-- A change more, as an update leaves it. -/
theorem Update.Leaves.behind {contents : Contents} {begun : Change} {file : List UInt8}
    (leaves : Update.Leaves contents begun chunkSize recSize file)
    (reached : Reached (freshContents chunkSize recSize) past contents) :
    StoresBehind chunkSize recSize (past ++ [begun]) file := by
  obtain ⟨contents', becomes, still⟩ := leaves
  exact ⟨contents', .next reached becomes, still⟩

section Steps

variable {platform : Platform} {after : World} {handle : Rndh}

/-- The process that makes the file. -/
theorem storeKept_created {flags : UInt32} (large : sizeofHeadFile ≤ chunkSize.toNat)
    (create : rndCreate flags = true)
    (completed : run (posix platform) (blocksFileOpen flags chunkSize recSize) world =
      (.ok (.success, handle), after)) :
    StoreKept chunkSize recSize none [] after (some handle) := by
  have positive : chunkSize > 0 :=
    UInt32.lt_iff_toNat_lt.mpr (Nat.lt_of_lt_of_le (by decide) large)
  obtain ⟨fresh, stream, rfl⟩ := blocksFileOpen_create create positive completed
  refine ⟨?_, fun other same => Option.some.inj same ▸ freshHandle_accepted large,
    ⟨_, .first, ?_⟩, nofun⟩
  · rw [fresh, freshFile_length large]
    exact Nat.le_trans (Nat.le_of_lt chunkSize.toNat_lt) (by decide)
  · rw [fresh]
    exact stored_fresh large

/-- The next process opens the file, or does not get it open. -/
theorem StoreKept.opened (kept : StoreKept chunkSize recSize sure past world holder)
    {flags chunkSize' recSize' : UInt32} {rval : RndError} (idle : world.held = [])
    (existing : rndCreate flags = false)
    (completed : run (posix platform) (blocksFileOpen flags chunkSize' recSize') world =
      (.ok (rval, handle), after)) :
    StoreKept chunkSize recSize sure past after (if rval = .success then some handle else none) := by
  obtain ⟨still, same⟩ :=
    @blocksFileOpen_keeps world platform flags chunkSize' recSize' existing idle
  have valid := blocksFileOpen_valid world rfl _ _ completed
    (idle_of_keeping (keeping_blocksFileOpen existing) idle).1
  rw [completed] at still same
  dsimp only at still same
  have disk : after.disk = world.disk := by
    rw [← World.file_of_empty still, same, World.file_of_empty idle]
  refine ⟨same ▸ kept.bounded, fun other is => ?_, same ▸ kept.file, disk ▸ kept.disk⟩
  split at is
  · rename_i success
    exact Option.some.inj is ▸ valid success
  · exact absurd is.symm (Option.some_ne_none _)

/-- Calls that leave the file may pass on what the stream holds. -/
theorem StoreKept.looked (kept : StoreKept chunkSize recSize sure past world holder) {α : Type}
    {program : Prog α} {outcome : Except Stop α} (durable : platform.Durable)
    (keeping : program.Only Call.Keeping)
    (ran : run (posix platform) program world = (outcome, after)) :
    StoreKept chunkSize recSize (if after.held = [] then some past else sure) past after holder := by
  have same := @run_keeping_spared platform world _ _ keeping (durable.lossless _)
  have left := @run_keeping_disk world platform _ _ keeping
  rw [ran] at same left
  dsimp only at same left
  refine ⟨same ▸ kept.bounded, kept.valid, same ▸ kept.file, fun known is => ?_⟩
  split at is
  · rename_i empty
    rw [← Option.some.inj is, ← World.file_of_empty empty, same]
    exact kept.file
  · rename_i held
    rw [left.resolve_left held]
    exact kept.disk known is

/-- An update that returns: the file stores what its change makes of the contents. The disk does so
once the stream holds nothing, or knows of its begin, or is not reached. -/
theorem StoreKept.updated (kept : StoreKept chunkSize recSize sure past world (some handle))
    {α : Type} {program : Prog α} {told : Option α → Change} {value : α}
    (large : sizeofHeadFile ≤ chunkSize.toNat) (durable : platform.Durable)
    (whole : platform.WholeLinks) (update : Update chunkSize past world.file handle program told)
    (completed : run (posix platform) program world = (.ok value, after)) :
    StoreKept chunkSize recSize (knownBehind sure past (told none) (told (some value))
      (log (posix platform) program world) after) (past ++ [told (some value)]) after
      (some handle) := by
  obtain ⟨contents, reached, stored⟩ := kept.file
  obtain ⟨contents', becomes, still⟩ :=
    update.leaves large kept.bounded whole stored reached world rfl _ _ completed
      (durable.lossless _)
  have limit := run_bounded platform program world kept.bounded
  obtain ⟨each, last⟩ :=
    update.throughout (kept.valid handle rfl) large kept.bounded durable whole stored reached
  have passed := (passed_disk each last).2
  have unpassed := (@unpassed_disk _ platform program world update.seeksFirst).2
  rw [completed] at limit passed unpassed
  have file : StoresBehind chunkSize recSize (past ++ [told (some value)]) after.file :=
    ⟨contents', .next reached becomes, still⟩
  refine ⟨limit, kept.valid, file, fun known is => ?_⟩
  unfold knownBehind at is
  split_ifs at is with empty passes
  · rw [← Option.some.inj is, ← World.file_of_empty empty]
    exact file
  · rw [← Option.some.inj is]
    exact (passed passes).behind reached
  · rw [unpassed (Bool.eq_false_iff.mpr passes)]
    exact kept.disk known is

/-- A process that goes away inside an update, behind a call that passed on what its stream held. -/
theorem StoreKept.ended (kept : StoreKept chunkSize recSize sure past world (some handle))
    {next : World} {α : Type} {program : Prog α} {told : Option α → Change}
    {front behind : List (Moment Call Answer World)} {moment : Moment Call Answer World}
    (large : sizeofHeadFile ≤ chunkSize.toNat) (durable : platform.Durable)
    (whole : platform.WholeLinks) (update : Update chunkSize past world.file handle program told)
    (among : log (posix platform) program world = front ++ moment :: behind)
    (passed : passedOn front = true) (takes : next.disk = moment.before.disk)
    (fresh : next.held = []) :
    StoreKept chunkSize recSize (some (past ++ [told none])) (past ++ [told none]) next none := by
  obtain ⟨contents, reached, stored⟩ := kept.file
  obtain ⟨each, last⟩ :=
    update.throughout (kept.valid handle rfl) large kept.bounded durable whole stored reached
  have disk := (passed_disk each last).1 front moment behind among passed
  have there : moment ∈ log (posix platform) program world :=
    among ▸ List.mem_append_right _ List.mem_cons_self
  have limit := run_bounded (platform.endedAt moment.before.clock) program world kept.bounded
  rw [run_endedAt there] at limit
  refine .takes ?_ fresh ?_
  · rw [takes]
    exact (length_le_puts _ _).trans limit
  · rw [takes]
    exact disk.behind reached

/-- A process that goes away with what its stream holds. -/
theorem StoreKept.left {sure past : List Change} {next : World}
    (kept : StoreKept chunkSize recSize (some sure) past world holder)
    (takes : next.disk = world.disk) (fresh : next.held = []) :
    StoreKept chunkSize recSize (some sure) sure next none := by
  have shorter : world.disk.length ≤ world.file.length := length_le_puts _ _
  refine .takes ?_ fresh ?_
  · rw [takes]
    exact shorter.trans kept.bounded
  · rw [takes]
    exact kept.disk sure rfl

end Steps

/-- Every step keeps what holds of a store, by induction over the lifetimes. -/
theorem StoreLifetimes.kept (lifetimes : StoreLifetimes chunkSize recSize sure past world holder)
    (large : sizeofHeadFile ≤ chunkSize.toNat) :
    StoreKept chunkSize recSize sure past world holder := by
  induction lifetimes with
  | created create completed => exact storeKept_created large create completed
  | opened earlier idle existing completed ih => exact ih.opened idle existing completed
  | looked earlier durable keeping ran ih => exact ih.looked durable keeping ran
  | updated earlier durable whole update completed ih =>
    exact ih.updated large durable whole update completed
  | ended earlier durable whole update among passed takes fresh ih =>
    exact ih.ended large durable whole update among passed takes fresh
  | endedEarly earlier update among unpassed takes fresh ih =>
    have same := (unpassed_disk update.seeksFirst).1 _ _ _ among unpassed
    exact ih.left (takes.trans same) fresh
  | killed earlier takes fresh ih => exact ih.left takes fresh
  | exited earlier takes fresh ih =>
    refine .takes ?_ fresh ?_
    · rw [takes]
      exact ih.bounded
    · rw [takes]
      exact ih.file

/-- The search for the end of a chain finds its last block. -/
theorem ChainAt.findsLast {platform : Platform} {world : World} {start : Nat} {blocks : List Nat}
    (at_ : ChainAt world.file start blocks) :
    ∃ last, blocks.getLast? = some last ∧ FindsLast platform world start blocks last := by
  obtain ⟨before, last, rfl⟩ := at_.chain.split_last
  refine ⟨last, List.getLast?_concat, fun fits fuel enough calm => ?_⟩
  obtain ⟨rest, same⟩ := at_.cons
  have isLast : (start :: rest).getLast? = some last := by
    rw [← same, List.getLast?_concat]
  have chain := at_.chain
  have inside := at_.inside
  rw [same] at chain inside enough
  obtain ⟨result, after, completed, kept, rfl⟩ :=
    calm_onFile (chainsLastLink_found chain inside isLast fits enough) calm
  exact ⟨after, completed, kept⟩

/-- The file of a store, as a process finds it: it stores contents that the changes make of those of
a new file, with every block that was allocated and every one that was linked, as far as that was
acknowledged; walks visit the linked blocks in their order, and the search for the last link finds
the last one; and an opening accepts the header. -/
structure StoreFound (chunkSize recSize : UInt32) (past : List Change) (world : World)
    (contents : Contents) : Prop where
  reached : Reached (freshContents chunkSize recSize) past contents
  stored : contents.Stored chunkSize recSize world.file
  allocated : ∀ start count, Change.allocate count (some start) ∈ past → contents.Has start count
  linked : ∀ parent child, Change.link parent child true ∈ past →
    ∃ block ∈ contents.linked, block.start = child
  walks : ∀ platform, WalksOver platform world 0 (contents.linked.map Block.start)
  last : ∀ platform, ∃ last, (contents.linked.map Block.start).getLast? = some last ∧
    FindsLast platform world 0 (contents.linked.map Block.start) last
  accepted : blocksValidateHeadFile (some (rootHead world.file)) = .success ∧
    (rootHead world.file).fhead.chunkSize = chunkSize

/-- What a file stores is found in it. -/
theorem StoresBehind.found (stores : StoresBehind chunkSize recSize past world.file)
    (large : sizeofHeadFile ≤ chunkSize.toNat) (bounded : world.file.length ≤ offMax) :
    ∃ contents, StoreFound chunkSize recSize past world contents := by
  obtain ⟨contents, reached, stored⟩ := stores
  have chain := stored.chainAt large bounded
  exact ⟨contents, reached, stored, fun start count known => reached.has (.inr known),
    fun parent child asked => reached.linked asked, fun platform => chain.walksOver,
    fun platform => chain.findsLast, stored.accepted large⟩

/-- Through all lifetimes, the file as its stream knows it stores what the changes make of a new
file, and what a process finds on the disk is what those make of it that the disk knows of. -/
theorem storeLifetimes_refine (lifetimes : StoreLifetimes chunkSize recSize sure past world holder)
    (large : sizeofHeadFile ≤ chunkSize.toNat) :
    (∃ contents, StoreFound chunkSize recSize past world contents) ∧
      ∀ known next, sure = some known → next.disk = world.disk → next.held = [] →
        ∃ contents, StoreFound chunkSize recSize known next contents := by
  have kept := lifetimes.kept large
  refine ⟨kept.file.found large kept.bounded, fun known next is takes fresh => ?_⟩
  have file : next.file = world.disk := (World.file_of_empty fresh).trans takes
  refine StoresBehind.found ?_ large ?_
  · rw [file]
    exact kept.disk known is
  · rw [file]
    exact (length_le_puts _ _).trans kept.bounded

end Lifetimes

/-! ## A link that is cut off -/

/-- The process that allocated a block behind the root of a new file. -/
def allocatedStore : World :=
  (run (posix soundPlatform) (blocksAppendBlock (freshHandle 0 80 3) chunkBlock) newStore).2

/-- The calls of the link to that block. -/
def linkPast : List (Moment Call Answer World) :=
  log (posix soundPlatform) (chainsAddLink (0 : Nat) ⟨(80 : Nat), (headSizeAt 80 + 48 : Nat)⟩)
    allocatedStore

/-- The next process, if this one ends at a call of the link. -/
def cutStore (call : Fin linkPast.length) : World := { disk := linkPast[call].before.disk }

theorem storeLifetimes_cut (call : Fin linkPast.length)
    (passed : passedOn (linkPast.take call) = true) :
    StoreLifetimes 80 3 (some [.allocate 48 (some 80), .link 0 80 false])
      [.allocate 48 (some 80), .link 0 80 false] (cutStore call) none := by
  have chunked : chunkBlock.Chunked 80 := ⟨.inl rfl, by decide, by decide⟩
  have made : run (posix soundPlatform) (blocksFileOpen rndCreateFlag 80 3) { disk := [] } =
      (.ok (.success, freshHandle 0 80 3), newStore) := run_eq_of_value _ (by decide +kernel)
  have added : run (posix soundPlatform)
    (blocksAppendBlock (freshHandle 0 80 3) chunkBlock) newStore =
      (.ok (.success, { chunkBlock with newBlock := ⟨80, 80⟩ }), allocatedStore) :=
    run_eq_of_value _ (by decide +kernel)
  have durable : soundPlatform.Durable := Platform.durable_sound _
  have whole : soundPlatform.WholeLinks := fun _ _ scheduled =>
    absurd scheduled.symm (Option.some_ne_none _)
  have root : IsChain allocatedStore.file [0] := ⟨by decide +kernel, by decide +kernel⟩
  have created : StoreLifetimes 80 3 none [] newStore (some (freshHandle 0 80 3)) :=
    .created (by decide) made
  have allocated := created.updated durable whole (.allocate chunked) added
  have known : Known 80 [.allocate 48 (some 80)] 80 48 := .inr List.mem_cons_self
  have split : linkPast = linkPast.take call ++ linkPast[call] :: linkPast.drop (call + 1) := by
    rw [Fin.getElem_fin, ← List.drop_eq_getElem_cons call.isLt, List.take_append_drop]
  refine allocated.ended durable whole (.link known ⟨[], root, List.mem_cons_self⟩ ?_) split passed
    rfl rfl
  rintro ⟨rest, chain, among⟩
  rw [chain.unique root] at among
  exact absurd among (by decide)

theorem storeLifetimes_refine_cut : ∃ last, StoreLifetimes 80 3
      (some [.allocate 48 (some 80), .link 0 80 false]) [.allocate 48 (some 80), .link 0 80 false]
        last
      none ∧ (∃ contents, StoreFound 80 3 [.allocate 48 (some 80), .link 0 80 false] last contents) ∧
      ∀ known next, some [.allocate 48 (some 80), .link 0 80 false] = some known →
        next.disk = last.disk → next.held = [] → ∃ contents, StoreFound 80 3 known next contents := by
  have ended := storeLifetimes_cut ⟨3, by decide +kernel⟩ (by decide +kernel)
  exact ⟨_, ended, storeLifetimes_refine ended (by decide)⟩

end Recnodb
