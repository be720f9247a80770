import Recnodb.Store

/-!
# The contents of a store

What the blocks of a file are for. A block is a byte string at an offset. Blocks are
allocated one behind the other, a block that was allocated can be linked behind the last
linked one, and bytes are written into any of them. The contents are stored in a file if
the headers say so: a walk over the links visits the linked blocks in their order, and the
bytes behind the header of a block are its own.
-/

namespace Recnodb

open Interaction Octets Program

/-- The length of the header of the first block of a file, and of a block that was appended. -/
def headSizeAt (start : Nat) : Nat := if start = 0 then 72 else 32

/-- A block for its users: its offset, and the bytes behind its header. -/
structure Block where
  start : Nat
  payload : List UInt8
deriving DecidableEq, Repr

namespace Block

/-- The header and the payload. -/
def size (block : Block) : Nat := headSizeAt block.start + block.payload.length

/-- Where the payload begins. -/
def dataStart (block : Block) : Nat := block.start + headSizeAt block.start

/-- Where the block ends. -/
def stop (block : Block) : Nat := block.start + block.size

/-- Two blocks do not meet. -/
def Apart (one other : Block) : Prop := one.stop ≤ other.start ∨ other.stop ≤ one.start

/-- Bytes are written at a place of the payload, if this is the block that starts there. -/
def write (block : Block) (start place : Nat) (bytes : List UInt8) : Block :=
  if block.start = start then { block with payload := patch block.payload place bytes } else block

/-- A block as it stands in a file of chunks. -/
structure Stored (chunkSize : UInt32) (block : Block) (file : List UInt8) : Prop where
  aligned : chunkSize.toNat ∣ block.start
  whole : chunkSize.toNat ∣ block.size
  inside : block.stop ≤ file.length
  size : (headAt file block.start).blockSize.toNat = block.size
  data : (headAt file block.start).bytesToData.toNat = headSizeAt block.start
  payload : slice file block.dataStart block.payload.length = block.payload

end Block

/-- The linked blocks in their order, and those that were allocated only. -/
structure Contents where
  linked : List Block
  loose : List Block
deriving DecidableEq, Repr

namespace Contents

/-- All blocks, the linked ones first. -/
def blocks (contents : Contents) : List Block := contents.linked ++ contents.loose

/-- One more block, of zeros. -/
def allocate (contents : Contents) (start count : Nat) : Contents :=
  { contents with loose := contents.loose ++ [⟨start, List.replicate count 0⟩] }

/-- A write inside the payload of the block that starts there. -/
def write (contents : Contents) (start place : Nat) (bytes : List UInt8) : Contents where
  linked := contents.linked.map fun block => block.write start place bytes
  loose := contents.loose.map fun block => block.write start place bytes

/-- There is a block of this payload at this offset. -/
def Has (contents : Contents) (start count : Nat) : Prop :=
  ∃ block ∈ contents.blocks, block.start = start ∧ block.payload.length = count

/-- There is a block at this offset whose payload reaches so far. -/
structure Room (contents : Contents) (start reach : Nat) : Prop where
  there : ∃ block ∈ contents.blocks, block.start = start
  fits : ∀ block ∈ contents.blocks, block.start = start → reach ≤ block.payload.length

/-- The contents as they stand in a file of chunks. -/
structure Stored (chunkSize recSize : UInt32) (contents : Contents) (file : List UInt8) : Prop where
  whole : chunkSize.toNat ∣ file.length
  each : ∀ block ∈ contents.blocks, block.Stored chunkSize file
  apart : contents.blocks.Pairwise Block.Apart
  first : ∃ root rest, contents.linked = root :: rest ∧ root.start = 0
  chain : IsChain file (contents.linked.map Block.start)
  names : (contents.linked.map Block.start).IsChain (NamesBlock file)
  childless : ∀ block ∈ contents.loose, (headAt file block.start).nextBlock.offset = 0
  type : (headAt file 0).blockType = BType.table.code
  head : (rootHead file).thead.recSize = recSize ∧ (rootHead file).fhead = ⟨rndb, chunkSize⟩

end Contents

/-! ## Changes -/

/-- What was asked of a store, and whether it was acknowledged. An allocation is acknowledged by the
offset of the block. -/
inductive Change where
  | allocate (count : Nat) (answer : Option Nat)
  | link (parent child : Nat) (acknowledged : Bool)
  | write (start place : Nat) (bytes : List UInt8) (acknowledged : Bool)
deriving DecidableEq, Repr

/-- What becomes of the contents. What was acknowledged was done. What was not may have been done
nevertheless, of a write any part, except that no user learns of a block that was not acknowledged. -/
inductive Becomes (contents : Contents) : Change → Contents → Prop where
  | allocated {start : Nat} (behind : ∀ block ∈ contents.blocks, block.stop ≤ start) (count : Nat) :
      Becomes contents (.allocate count (some start)) (contents.allocate start count)
  | unallocated (count : Nat) : Becomes contents (.allocate count none) contents
  | linked {front before after : List Block} {last block : Block}
      (ends : contents.linked = front ++ [last]) (loose : contents.loose = before ++ block :: after)
      (acknowledged : Bool) : Becomes contents (.link last.start block.start acknowledged)
        ⟨contents.linked ++ [block], before ++ after⟩
  | unlinked (parent child : Nat) : Becomes contents (.link parent child false) contents
  | written {start place : Nat} {bytes : List UInt8}
      (room : contents.Room start (place + bytes.length)) :
      Becomes contents (.write start place bytes true) (contents.write start place bytes)
  | cut {start place : Nat} {bytes : List UInt8} (room : contents.Room start (place + bytes.length))
      (count : Nat) : Becomes contents (.write start place bytes false)
        (contents.write start place (bytes.take count))

/-- What changes make of contents, one after another. -/
inductive Reached (first : Contents) : List Change → Contents → Prop where
  | first : Reached first [] first
  | next {past : List Change} {change : Change} {contents contents' : Contents}
      (earlier : Reached first past contents) (becomes : Becomes contents change contents') :
      Reached first (past ++ [change]) contents'

section Blocks

variable {block one other : Block} {start place count : Nat} {bytes : List UInt8}

/-- A header has at least 32 and at most 72 bytes. -/
theorem headSizeAt_bounds (start : Nat) : 32 ≤ headSizeAt start ∧ headSizeAt start ≤ 72 := by
  rw [headSizeAt]
  split <;> omega

instance : Std.Symm Block.Apart := ⟨fun _ _ => Or.symm⟩

/-- A block has at least its header. -/
theorem Block.size_ge (block : Block) : 32 ≤ block.size :=
  (headSizeAt_bounds block.start).1.trans (Nat.le_add_right _ _)

/-- A block meets itself. -/
theorem Block.Apart.start_ne (apart : one.Apart other) : one.start ≠ other.start := by
  have size := one.size_ge
  have size' := other.size_ge
  rw [Block.Apart, Block.stop, Block.stop] at apart
  omega

/-- A write moves no block. -/
@[simp] theorem Block.write_start : (block.write start place bytes).start = block.start := by
  rw [Block.write]
  split <;> rfl

/-- A write leaves the other blocks. -/
theorem Block.write_elsewhere (elsewhere : block.start ≠ start) :
    block.write start place bytes = block := if_neg elsewhere

/-- A write that ends inside the payload keeps its length. -/
theorem Block.write_length
    (fits : block.start = start → place + bytes.length ≤ block.payload.length) :
    (block.write start place bytes).payload.length = block.payload.length := by
  rw [Block.write]
  split
  · rename_i same
    exact patch_length_inside (fits same)
  · rfl

/-- A write inside a payload leaves the size. -/
theorem Block.write_size (fits : block.start = start → place + bytes.length ≤ block.payload.length) :
    (block.write start place bytes).size = block.size := by
  rw [Block.size, Block.size, Block.write_start, Block.write_length fits]

/-- A write inside a payload leaves the end. -/
theorem Block.write_stop (fits : block.start = start → place + bytes.length ≤ block.payload.length) :
    (block.write start place bytes).stop = block.stop := by
  rw [Block.stop, Block.stop, Block.write_start, Block.write_size fits]

variable {contents contents' first : Contents} {change : Change} {past : List Change}

/-- An allocated block is one block more. -/
theorem Contents.blocks_allocate : (contents.allocate start count).blocks =
    contents.blocks ++ [⟨start, List.replicate count 0⟩] :=
  (List.append_assoc ..).symm

/-- An allocated block is not linked yet. -/
theorem Contents.linked_allocate : (contents.allocate start count).linked = contents.linked := rfl

/-- A write changes at most one block. -/
theorem Contents.blocks_write : (contents.write start place bytes).blocks =
    contents.blocks.map fun block => block.write start place bytes :=
  (List.map_append ..).symm

/-- A write leaves the chain. -/
theorem Contents.write_starts : (contents.write start place bytes).linked.map Block.start =
    contents.linked.map Block.start := by
  rw [Contents.write, List.map_map]
  exact List.map_congr_left fun _ _ => Block.write_start

/-- A loose block that is linked is among the same blocks. -/
theorem Contents.blocks_linked {before after : List Block}
    (loose : contents.loose = before ++ block :: after) :
    contents.blocks.Perm (Contents.mk (contents.linked ++ [block]) (before ++ after)).blocks := by
  rw [Contents.blocks, Contents.blocks, loose, List.append_assoc]
  exact List.perm_middle.append_left _

/-- A write of no more bytes has room as well. -/
theorem Contents.Room.less {reach less : Nat} (room : contents.Room start reach)
    (fewer : less ≤ reach) : contents.Room start less :=
  ⟨room.there, fun block among same => fewer.trans (room.fits block among same)⟩

/-- A block of an offset and a length stays one through a write. -/
theorem Contents.Has.write {place' start' : Nat} (there : contents.Has start count)
    (room : contents.Room start' (place' + bytes.length)) :
    (contents.write start' place' bytes).Has start count := by
  obtain ⟨block, among, rfl, rfl⟩ := there
  refine ⟨block.write start' place' bytes, ?_, Block.write_start,
    Block.write_length (room.fits block among)⟩
  rw [Contents.blocks_write]
  exact List.mem_map_of_mem among

/-- No change takes a block away. -/
theorem Becomes.has (becomes : Becomes contents change contents') (there : contents.Has start count) :
    contents'.Has start count := by
  cases becomes with
  | allocated behind count' =>
    obtain ⟨block, among, same⟩ := there
    refine ⟨block, ?_, same⟩
    rw [Contents.blocks_allocate]
    exact List.mem_append_left _ among
  | unallocated => exact there
  | linked ends loose acknowledged =>
    obtain ⟨block, among, same⟩ := there
    exact ⟨block, (Contents.blocks_linked loose).subset among, same⟩
  | unlinked => exact there
  | written room => exact there.write room
  | cut room length =>
    refine there.write (room.less ?_)
    rw [List.length_take]
    omega

/-- A block whose allocation was acknowledged is there. -/
theorem Reached.has (reached : Reached first past contents)
    (known : first.Has start count ∨ Change.allocate count (some start) ∈ past) :
    contents.Has start count := by
  induction reached with
  | first => exact known.resolve_right List.not_mem_nil
  | next earlier becomes ih =>
    rcases known with there | among
    · exact becomes.has (ih (.inl there))
    · rcases List.mem_append.mp among with old | new
      · exact becomes.has (ih (.inr old))
      · obtain rfl := List.mem_singleton.mp new
        cases becomes with
        | allocated behind count =>
          refine ⟨⟨_, List.replicate count 0⟩, ?_, rfl, List.length_replicate⟩
          rw [Contents.blocks_allocate]
          exact List.mem_append_right _ (List.mem_singleton_self _)

/-- No change takes a block off the chain. -/
theorem Becomes.still_linked (becomes : Becomes contents change contents')
    (there : ∃ block ∈ contents.linked, block.start = start) :
    ∃ block ∈ contents'.linked, block.start = start := by
  obtain ⟨block, among, rfl⟩ := there
  cases becomes with
  | allocated => exact ⟨block, among, rfl⟩
  | unallocated => exact ⟨block, among, rfl⟩
  | linked ends loose => exact ⟨block, List.mem_append_left _ among, rfl⟩
  | unlinked => exact ⟨block, among, rfl⟩
  | written => exact ⟨_, List.mem_map_of_mem among, Block.write_start⟩
  | cut => exact ⟨_, List.mem_map_of_mem among, Block.write_start⟩

/-- A block whose link was acknowledged is on the chain. -/
theorem Reached.linked (reached : Reached first past contents) {parent child : Nat}
    (asked : Change.link parent child true ∈ past) :
    ∃ block ∈ contents.linked, block.start = child := by
  induction reached with
  | first => exact absurd asked List.not_mem_nil
  | next earlier becomes ih =>
    rcases List.mem_append.mp asked with old | new
    · exact becomes.still_linked (ih old)
    · obtain rfl := List.mem_singleton.mp new
      cases becomes with
      | linked ends loose =>
        exact ⟨_, List.mem_append_right _ (List.mem_singleton_self _), rfl⟩

end Blocks

/-! ## Files that keep what is stored -/

section Files

variable {chunkSize recSize : UInt32} {block : Block} {contents : Contents}
variable {file after : List UInt8}

/-- The root ends behind the header of the file. -/
theorem Block.root_stop {root : Block} (zero : root.start = 0) : 72 ≤ root.stop := by
  have size : headSizeAt root.start = 72 := if_pos zero
  rw [Block.stop, Block.size, size]
  omega

/-- The bytes of a block are the same in both files. -/
def Block.Same (block : Block) (file after : List UInt8) : Prop :=
  ∀ index, block.start ≤ index → index < block.stop → after[index]? = file[index]?

/-- A range of a block whose bytes are the same. -/
theorem Block.Same.slice (same : block.Same file after) {start count : Nat}
    (above : block.start ≤ start) (below : start + count ≤ block.stop) :
    slice after start count = slice file start count :=
  slice_congr fun index _ _ => same index (by omega) (by omega)

/-- The header of a block whose bytes are the same. -/
theorem Block.Same.head (same : block.Same file after) :
    headAt after block.start = headAt file block.start := by
  have size := block.size_ge
  exact congrArg InfoBlock.ofBytes (same.slice (Nat.le_refl _) (by rw [Block.stop]; omega))

/-- The payload of a block ends where the block does. -/
theorem Block.payload_stop (block : Block) :
    block.dataStart + block.payload.length = block.stop :=
  Nat.add_assoc ..

/-- A stored block stays stored where its bytes are the same. -/
theorem Block.Stored.kept (stored : block.Stored chunkSize file) (longer : file.length ≤ after.length)
    (same : block.Same file after) : block.Stored chunkSize after where
  aligned := stored.aligned
  whole := stored.whole
  inside := stored.inside.trans longer
  size := by
    rw [same.head]
    exact stored.size
  data := by
    rw [same.head]
    exact stored.data
  payload := by
    have above : block.start ≤ block.dataStart := Nat.le_add_right _ _
    rw [same.slice above (Nat.le_of_eq block.payload_stop)]
    exact stored.payload

namespace Contents

/-- The first linked block is the root of the file. -/
theorem Stored.root (stored : contents.Stored chunkSize recSize file) :
    ∃ root ∈ contents.blocks, root.start = 0 := by
  obtain ⟨root, rest, linked, zero⟩ := stored.first
  refine ⟨root, List.mem_append_left _ ?_, zero⟩
  rw [linked]
  exact List.mem_cons_self

/-- Blocks at the same offsets with the same headers are stored as well, if each of them is. -/
theorem Stored.transfer {contents' : Contents} (stored : contents.Stored chunkSize recSize file)
    (linked : contents'.linked.map Block.start = contents.linked.map Block.start)
    (loose : contents'.loose.map Block.start = contents.loose.map Block.start)
    (longer : file.length ≤ after.length) (whole : chunkSize.toNat ∣ after.length)
    (heads : ∀ block ∈ contents.blocks, headAt after block.start = headAt file block.start)
    (fields : slice after 56 16 = slice file 56 16)
    (each : ∀ block ∈ contents'.blocks, block.Stored chunkSize after)
    (apart : contents'.blocks.Pairwise Block.Apart) : contents'.Stored chunkSize recSize after := by
  have headsLinked {offset : Nat} (among : offset ∈ contents.linked.map Block.start) :
      headAt after offset = headAt file offset := by
    obtain ⟨block, there, rfl⟩ := List.mem_map.mp among
    exact heads block (List.mem_append_left _ there)
  refine ⟨whole, each, apart, ?_, ?_, ?_, ?_, ?_, ?_⟩
  · obtain ⟨root, rest, same, zero⟩ := stored.first
    rw [same] at linked
    obtain ⟨root', rest', same', start, -⟩ := List.map_eq_cons_iff.mp linked
    exact ⟨root', rest', same', start.trans zero⟩
  · rw [linked]
    exact stored.chain.kept longer fun offset => headsLinked
  · rw [linked]
    apply stored.names.imp_of_mem_imp
    intro one next oneAmong nextAmong names
    rw [NamesBlock, headsLinked oneAmong, headsLinked nextAmong]
    exact names
  · intro block among
    have start : block.start ∈ contents.loose.map Block.start := by
      rw [← loose]
      exact List.mem_map_of_mem among
    obtain ⟨old, there, same⟩ := List.mem_map.mp start
    rw [← same, heads old (List.mem_append_right _ there)]
    exact stored.childless old there
  · obtain ⟨root, rooted, zero⟩ := stored.root
    have head := heads root rooted
    rw [zero] at head
    rw [head]
    exact stored.type
  · rw [(rootHead_fields fields).1, (rootHead_fields fields).2]
    exact stored.head

/-- What is stored in a file is stored in any other one in which the blocks are the same. -/
theorem Stored.kept (stored : contents.Stored chunkSize recSize file)
    (longer : file.length ≤ after.length) (whole : chunkSize.toNat ∣ after.length)
    (same : ∀ block ∈ contents.blocks, block.Same file after) :
    contents.Stored chunkSize recSize after := by
  obtain ⟨root, rooted, zero⟩ := stored.root
  refine stored.transfer rfl rfl longer whole (fun block among => (same block among).head) ?_ ?_
    stored.apart
  · exact (same root rooted).slice (by omega) (Block.root_stop zero)
  · exact fun block among => (stored.each block among).kept longer (same block among)

/-- Blocks that are not the same one do not meet. -/
theorem Stored.disjoint (stored : contents.Stored chunkSize recSize file) {one other : Block}
    (oneAmong : one ∈ contents.blocks) (otherAmong : other ∈ contents.blocks)
    (different : one ≠ other) : one.Apart other :=
  stored.apart.forall oneAmong otherAmong different

/-- A block is known by its offset. -/
theorem Stored.alone (stored : contents.Stored chunkSize recSize file) {one other : Block}
    (oneAmong : one ∈ contents.blocks) (otherAmong : other ∈ contents.blocks)
    (same : one.start = other.start) : one = other := by
  by_contra different
  exact (stored.disjoint oneAmong otherAmong different).start_ne same

/-- A block has room for a write that ends inside its payload. -/
theorem Stored.room (stored : contents.Stored chunkSize recSize file) {start count reach : Nat}
    (there : contents.Has start count) (inside : reach ≤ count) : contents.Room start reach := by
  obtain ⟨block, among, rfl, rfl⟩ := there
  refine ⟨⟨block, among, rfl⟩, fun other otherAmong same => ?_⟩
  rw [stored.alone otherAmong among same]
  exact inside

/-! ## Files behind a change -/

variable {start count : Nat} {bdef : RndBlockDef}

/-- A block that was allocated last may be forgotten. -/
theorem Stored.forget (stored : (contents.allocate start count).Stored chunkSize recSize file) :
    contents.Stored chunkSize recSize file := by
  have among {block : Block} (there : block ∈ contents.blocks) :
      block ∈ (contents.allocate start count).blocks := by
    rw [blocks_allocate]
    exact List.mem_append_left _ there
  have apart := stored.apart
  rw [blocks_allocate] at apart
  exact ⟨stored.whole, fun block there => stored.each block (among there),
    (List.pairwise_append.mp apart).1, stored.first, stored.chain, stored.names,
    fun block there => stored.childless block (List.mem_append_left _ there), stored.type,
      stored.head⟩

/-- A block of zeros behind the others is one more. -/
theorem Stored.allocate (stored : contents.Stored chunkSize recSize file)
    (new : Block.Stored chunkSize ⟨start, List.replicate count 0⟩ file)
    (behind : ∀ block ∈ contents.blocks, block.stop ≤ start)
    (childless : (headAt file start).nextBlock.offset = 0) :
    (contents.allocate start count).Stored chunkSize recSize file := by
  refine ⟨stored.whole, ?_, ?_, stored.first, stored.chain, stored.names, ?_, stored.type,
    stored.head⟩
  · rw [blocks_allocate]
    intro block among
    rcases List.mem_append.mp among with old | last
    · exact stored.each block old
    · exact (List.mem_singleton.mp last) ▸ new
  · rw [blocks_allocate]
    refine List.pairwise_append.mpr ⟨stored.apart, List.pairwise_singleton _ _, ?_⟩
    intro block old other last
    rw [List.mem_singleton.mp last]
    exact .inl (behind block old)
  · intro block among
    rcases List.mem_append.mp among with old | last
    · exact stored.childless block old
    · rw [List.mem_singleton.mp last]
      exact childless

/-- A file that was extended by whole chunks stores what it stored. -/
theorem Stored.extended (stored : contents.Stored chunkSize recSize file)
    (whole : chunkSize.toNat ∣ after.length) (longer : file.length ≤ after.length)
    (front : ∀ index, index < file.length → after[index]? = file[index]?) :
    contents.Stored chunkSize recSize after := by
  refine stored.kept longer whole fun block among index _ below => front index ?_
  exact Nat.lt_of_lt_of_le below (stored.each block among).inside

/-- The blocks of a file lie in front of its end. -/
theorem Stored.behind (stored : contents.Stored chunkSize recSize file) :
    ∀ block ∈ contents.blocks, block.stop ≤ file.length :=
  fun block among => (stored.each block among).inside

/-- An append allocates a block at the end of the file. -/
theorem Stored.append (stored : contents.Stored chunkSize recSize file)
    (large : sizeofHeadFile ≤ chunkSize.toNat) (chunked : bdef.Chunked chunkSize) :
    (contents.allocate file.length (bdef.blockSize.toNat - 32)).Stored chunkSize recSize
      (appended file bdef) := by
  have length := @RndBlockDef.Chunked.appended_length _ file _ chunked large
  have long : 72 ≤ bdef.blockSize.toNat :=
    Nat.le_trans large (Nat.le_of_dvd chunked.some chunked.whole)
  obtain ⟨root, rooted, zero⟩ := stored.root
  have rooted' := Block.root_stop zero
  have inside := stored.behind root rooted
  have size : headSizeAt file.length = 32 := if_neg (by omega)
  have whole : chunkSize.toNat ∣ (appended file bdef).length := by
    rw [length]
    exact Nat.dvd_add stored.whole chunked.whole
  have head := headAt_appended bdef file
  have blockSize : (Block.mk file.length (List.replicate (bdef.blockSize.toNat - 32) 0)).size =
      bdef.blockSize.toNat := by
    rw [Block.size, size, List.length_replicate]
    omega
  have old := stored.extended whole (by omega) fun index below => appended_below chunked.some below
  refine old.allocate ⟨stored.whole, ?_, ?_, ?_, ?_, ?_⟩ stored.behind ?_
  · rw [blockSize]
    exact chunked.whole
  · rw [Block.stop, blockSize, length]
  · rw [head, blockSize]
    rfl
  · rw [head, size]
    exact chunked.short.headSize
  · apply List.ext_getElem?
    intro index
    rw [slice_getElem?, List.length_replicate, List.getElem?_replicate, Block.dataStart, size]
    dsimp only
    split
    · apply appended_zeros chunked.short.settable
      · rw [chunked.short.headSize]
        exact Nat.le_add_right _ _
      · omega
    · rfl
  · rw [head]
    rfl

/-- A write into a payload keeps the length of the file and the header of the block. -/
theorem written_frame (stored : block.Stored chunkSize file) {place : Nat} {bytes : List UInt8}
    (fits : place + bytes.length ≤ block.payload.length) :
    (patch file (block.start + headSizeAt block.start + place) bytes).length = file.length ∧
      headAt (patch file (block.start + headSizeAt block.start + place) bytes) block.start =
        headAt file block.start := by
  have bounds := headSizeAt_bounds block.start
  have ends := stored.inside
  have payloadStop := block.payload_stop
  rw [Block.dataStart] at payloadStop
  refine ⟨patch_length_inside (by omega), ?_⟩
  rw [headAt, slice_patch_disjoint (by omega) (by omega), headAt]

/-- A block is stored with the bytes that were written into its payload. -/
theorem written_stored (stored : block.Stored chunkSize file) {place : Nat} {bytes : List UInt8}
    (fits : place + bytes.length ≤ block.payload.length) :
    (block.write block.start place bytes).Stored chunkSize
      (patch file (block.start + headSizeAt block.start + place) bytes) := by
  have ends := stored.inside
  have payloadStop := block.payload_stop
  rw [Block.dataStart] at payloadStop
  obtain ⟨length, head⟩ := written_frame stored fits
  have size : (block.write block.start place bytes).size = block.size := Block.write_size fun _ =>
    fits
  have payload : (block.write block.start place bytes).payload = patch block.payload place bytes := by
    rw [Block.write, if_pos rfl]
  constructor
  · rw [Block.write_start]
    exact stored.aligned
  · rw [size]
    exact stored.whole
  · rw [Block.write_stop fun _ => fits, length]
    exact ends
  · rw [Block.write_start, head, size]
    exact stored.size
  · rw [Block.write_start, head]
    exact stored.data
  · rw [payload, patch_length_inside fits, Block.dataStart, Block.write_start,
      slice_patch_within fits (by omega)]
    exact congrArg (fun old => patch old place bytes) stored.payload

/-- Bytes written into a block are stored there. -/
theorem Stored.write (stored : contents.Stored chunkSize recSize file) {place : Nat}
    {bytes : List UInt8} (room : contents.Room start (place + bytes.length)) :
    (contents.write start place bytes).Stored chunkSize recSize
      (patch file (start + headSizeAt start + place) bytes) := by
  obtain ⟨target, there, rfl⟩ := room.there
  have fits := room.fits target there rfl
  have bounds := headSizeAt_bounds target.start
  have ends := (stored.each target there).inside
  have payloadStop := target.payload_stop
  rw [Block.dataStart] at payloadStop
  obtain ⟨length, head⟩ := written_frame (stored.each target there) fits
  -- the other blocks do not meet the range that is written
  have same {block : Block} (among : block ∈ contents.blocks) (other : block ≠ target) :
      block.Same file (patch file (target.start + headSizeAt target.start + place) bytes) := by
    intro index above below
    have inside := (stored.each block among).inside
    have apart := stored.disjoint among there other
    rw [Block.Apart] at apart
    exact patch_getElem?_outside (by omega) (by omega)
  obtain ⟨root, rooted, zero⟩ := stored.root
  have large := Block.root_stop zero
  refine stored.transfer write_starts ?_ (Nat.le_of_eq length.symm) ?_ ?_ ?_ ?_ ?_
  · rw [Contents.write, List.map_map]
    exact List.map_congr_left fun _ _ => Block.write_start
  · rw [length]
    exact stored.whole
  · intro block among
    by_cases it : block = target
    · rw [it, head]
    · exact (same among it).head
  · by_cases it : root = target
    · have size : headSizeAt target.start = 72 := if_pos (it ▸ zero)
      exact slice_patch_disjoint (by omega) (by omega)
    · exact (same rooted it).slice (by omega) large
  · rw [blocks_write]
    intro written among
    obtain ⟨block, old, rfl⟩ := List.mem_map.mp among
    by_cases it : block = target
    · rw [it]
      exact written_stored (stored.each target there) fits
    · have elsewhere : block.start ≠ target.start := fun start => it (stored.alone old there start)
      rw [Block.write_elsewhere elsewhere]
      exact (stored.each block old).kept (Nat.le_of_eq length.symm) (same old it)
  · rw [blocks_write]
    apply List.pairwise_map.mpr
    apply stored.apart.imp_of_mem
    intro one other oneAmong otherAmong apart
    rw [Block.Apart, Block.write_stop (room.fits one oneAmong),
      Block.write_stop (room.fits other otherAmong), Block.write_start, Block.write_start]
    exact apart

end Contents

section Link

variable {last : Block} {child : BlockLoc} {front before behind : List Block}

/-- A link leaves the other headers, and of that of the last block all but the link. -/
theorem Contents.Stored.headAt_linked (stored : contents.Stored chunkSize recSize file)
    (fits : child.Fits) (there : last ∈ contents.blocks) (among : block ∈ contents.blocks) :
    headAt (Recnodb.linked file last.start child []) block.start =
      if block.start = last.start then { headAt file block.start with nextBlock := child }
      else headAt file block.start := by
  have inside := (stored.each block among).inside
  have size := block.size_ge
  have size' := last.size_ge
  rw [Block.stop] at inside
  refine headAt_linked_end fits (by omega) fun different => ?_
  have apart := stored.disjoint among there fun same => different (congrArg Block.start same)
  rw [Block.Apart, Block.stop, Block.stop] at apart
  omega

/-- Every block stays with its payload. -/
theorem Contents.Stored.each_linked (stored : contents.Stored chunkSize recSize file)
    (fits : child.Fits) (there : last ∈ contents.blocks) (among : block ∈ contents.blocks) :
    block.Stored chunkSize (Recnodb.linked file last.start child []) := by
  have old := stored.each block among
  have inside := old.inside
  have lastInside := (stored.each last there).inside
  have bounds := headSizeAt_bounds block.start
  have lastSize := last.size_ge
  have payloadStop := block.payload_stop
  rw [Block.stop] at lastInside
  have length : (Recnodb.linked file last.start child []).length = file.length := by
    apply linked_length
    rw [List.length_nil]
    omega
  have head := stored.headAt_linked fits there among
  refine ⟨old.aligned, old.whole, length ▸ inside, ?_, ?_, ?_⟩
  · rw [head]
    split <;> exact old.size
  · rw [head]
    split <;> exact old.data
  · have outside : block.dataStart + block.payload.length ≤ last.start ∨
        last.start + 32 ≤ block.dataStart := by
      have dataStart : block.dataStart = block.start + headSizeAt block.start := rfl
      have lastStop : last.stop = last.start + last.size := rfl
      by_cases same : block = last
      · rw [same] at dataStart bounds
        rw [same]
        omega
      · have apart := stored.disjoint among there same
        rw [Block.Apart] at apart
        omega
    rw [Recnodb.linked, List.append_nil, slice_patch_disjoint (by omega)
      (by rw [InfoBlock.toBytes_length]; exact outside)]
    exact old.payload

/-- The root stands at offset zero, and no other block before the end of its header. -/
theorem Contents.Stored.behindRoot (stored : contents.Stored chunkSize recSize file)
    (there : block ∈ contents.blocks) : block.start = 0 ∨ 72 ≤ block.start := by
  obtain ⟨root, rooted, zero⟩ := stored.root
  by_cases same : root = block
  · exact .inl (same ▸ zero)
  · have away := stored.disjoint rooted there same
    have large := Block.root_stop zero
    have size := block.size_ge
    have stop : block.stop = block.start + block.size := rfl
    rw [Block.Apart] at away
    omega

/-- A loose block does not start where a linked one does. -/
theorem Contents.Stored.loose_aside (stored : contents.Stored chunkSize recSize file)
    {one other : Block} (linked : one ∈ contents.linked) (loose : other ∈ contents.loose) :
    other.start ≠ one.start := fun same =>
  ((List.pairwise_append.mp stored.apart).2.2 one linked other loose).start_ne same.symm

/-- The chain goes on to a loose block that is linked behind its last one. -/
theorem Contents.Stored.chain_linked (stored : contents.Stored chunkSize recSize file)
    (fits : BlockLoc.Fits ⟨block.start, block.size⟩) (ends : contents.linked = front ++ [last])
    (loose : block ∈ contents.loose) :
    IsChain (Recnodb.linked file last.start ⟨block.start, block.size⟩ [])
      ((contents.linked ++ [block]).map Block.start) := by
  have lastLinked : last ∈ contents.linked := by
    rw [ends]
    exact List.mem_append_right _ (List.mem_singleton_self _)
  have lastThere : last ∈ contents.blocks := List.mem_append_left _ lastLinked
  have blockThere : block ∈ contents.blocks := List.mem_append_right _ loose
  have lastInside := stored.behind last lastThere
  have blockInside := stored.behind block blockThere
  have lastSize := last.size_ge
  have blockSize := block.size_ge
  rw [Block.stop] at lastInside blockInside
  have length : (Recnodb.linked file last.start ⟨block.start, block.size⟩ []).length = file.length :=
    linked_length (by rw [List.length_nil]; omega)
  have heads {other : Block} (among : other ∈ contents.blocks) :=
    stored.headAt_linked fits lastThere among
  obtain ⟨root, rest, linked, zero⟩ := stored.first
  have rooted : root ∈ contents.linked := by
    rw [linked]
    exact List.mem_cons_self
  have starts : (contents.linked ++ [block]).map Block.start =
      front.map Block.start ++ [last.start] ++ [block.start] := by
    rw [ends]
    simp
  have chain := stored.chain
  have inner := (List.pairwise_append.mp stored.apart).1
  rw [ends, List.map_append, List.map_singleton] at chain
  rw [ends] at inner
  rw [starts, List.append_assoc]
  refine chain.extend (Nat.le_of_eq length.symm) ?_ ?_ ?_ ?_ ?_
  · intro offset among
    obtain ⟨other, there, rfl⟩ := List.mem_map.mp among
    have away : other.Apart last :=
      (List.pairwise_append.mp inner).2.2 other there last (List.mem_singleton_self _)
    have known : other ∈ contents.blocks := by
      rw [Contents.blocks, ends]
      exact List.mem_append_left _ (List.mem_append_left _ there)
    rw [heads known, if_neg away.start_ne]
    exact InfoBlock.Alike.refl _
  · rw [heads lastThere, if_pos rfl]
  · exact fun start => stored.loose_aside rooted loose (start.trans zero.symm)
  · omega
  · rw [heads blockThere, if_neg (stored.loose_aside lastLinked loose)]
    exact stored.childless block loose

/-- A loose block is linked behind the last one. -/
theorem Contents.Stored.link (stored : contents.Stored chunkSize recSize file)
    (bounded : file.length ≤ offMax) (ends : contents.linked = front ++ [last])
    (loose : contents.loose = before ++ block :: behind) :
    (Contents.mk (contents.linked ++ [block]) (before ++ behind)).Stored chunkSize recSize
      (Recnodb.linked file last.start ⟨block.start, block.size⟩ []) := by
  have perm := Contents.blocks_linked loose
  have lastThere : last ∈ contents.blocks := by
    rw [Contents.blocks, ends]
    exact List.mem_append_left _ (List.mem_append_right _ (List.mem_singleton_self _))
  have blockLoose : block ∈ contents.loose := by
    rw [loose]
    exact List.mem_append_right _ List.mem_cons_self
  have blockThere : block ∈ contents.blocks := List.mem_append_right _ blockLoose
  have lastInside := stored.behind last lastThere
  have blockInside := stored.behind block blockThere
  have lastSize := last.size_ge
  have blockSize := block.size_ge
  rw [Block.stop] at lastInside blockInside
  have below := lt_of_le_offMax bounded
  have fits : BlockLoc.Fits ⟨block.start, block.size⟩ :=
    BlockLoc.fits_of_lt (by omega) (by omega)
  have length : (Recnodb.linked file last.start ⟨block.start, block.size⟩ []).length = file.length :=
    linked_length (by rw [List.length_nil]; omega)
  have heads {other : Block} (among : other ∈ contents.blocks) :=
    stored.headAt_linked fits lastThere among
  have lastLinked : last ∈ contents.linked := by
    rw [ends]
    exact List.mem_append_right _ (List.mem_singleton_self _)
  obtain ⟨root, rest, linked, zero⟩ := stored.first
  have rooted : root ∈ contents.linked := by
    rw [linked]
    exact List.mem_cons_self
  have starts : (contents.linked ++ [block]).map Block.start =
      front.map Block.start ++ [last.start] ++ [block.start] := by
    rw [ends]
    simp
  have chain := stored.chain
  have names := stored.names
  rw [ends, List.map_append, List.map_singleton] at chain names
  have chained {offset : Nat} (among : offset ∈ front.map Block.start ++ [last.start]) :
      ∃ other ∈ contents.blocks, other.start = offset := by
    rw [← List.map_singleton, ← List.map_append, ← ends] at among
    obtain ⟨other, there, same⟩ := List.mem_map.mp among
    exact ⟨other, List.mem_append_left _ there, same⟩
  refine ⟨?_, ?_, ?_, ?_, ?_, ?_, ?_, ?_, ?_⟩
  · rw [length]
    exact stored.whole
  · exact fun other among => stored.each_linked fits lastThere (perm.mem_iff.mpr among)
  · exact perm.pairwise stored.apart Or.symm
  · exact ⟨root, rest ++ [block], by rw [linked, List.cons_append], zero⟩
  · exact stored.chain_linked fits ends blockLoose
  · rw [starts]
    refine names_linked block.size chain names (fun offset among => ?_) ?_
    · obtain ⟨other, there, rfl⟩ := chained among
      exact heads there
    · exact (stored.each_linked fits lastThere blockThere).size
  · intro other among
    have there : other ∈ contents.loose := by
      rw [loose]
      exact List.mem_append.mpr ((List.mem_append.mp among).imp_right (List.mem_cons_of_mem _))
    rw [heads (List.mem_append_right _ there), if_neg (stored.loose_aside lastLinked there)]
    exact stored.childless other there
  · have head := heads (List.mem_append_left _ rooted)
    rw [zero] at head
    rw [head]
    split <;> exact stored.type
  · obtain ⟨table, header⟩ := @rootHead_linked file last.start ⟨block.start, block.size⟩
      ((Block.root_stop zero).trans (stored.behind root (List.mem_append_left _ rooted)))
      (stored.behindRoot lastThere)
    rw [table, header]
    exact stored.head

end Link

/-! ## What users find -/

/-- The contents of a new file: a root without a child. -/
def freshContents (chunkSize recSize : UInt32) : Contents where
  linked := [⟨0, slice (freshFile chunkSize recSize) 72 (chunkSize.toNat - 72)⟩]
  loose := []

/-- A new file stores the contents of one empty block. -/
theorem stored_fresh (large : sizeofHeadFile ≤ chunkSize.toNat) :
    (freshContents chunkSize recSize).Stored chunkSize recSize (freshFile chunkSize recSize) := by
  have chunk : 72 ≤ chunkSize.toNat := large
  have holds := @storeHolds_fresh _ recSize large
  have head := @headAt_fresh chunkSize recSize
  have length := freshFile_length large recSize
  have payload : (slice (freshFile chunkSize recSize) 72 (chunkSize.toNat - 72)).length =
      chunkSize.toNat - 72 := slice_length_inside (by omega)
  have size : (Block.mk 0 (slice (freshFile chunkSize recSize) 72 (chunkSize.toNat - 72))).size =
      chunkSize.toNat := by
    rw [Block.size, payload, headSizeAt, if_pos rfl]
    omega
  refine ⟨holds.whole, ?_, List.pairwise_singleton _ _, ⟨_, [], rfl, rfl⟩, holds.chain, holds.links,
    fun block among => absurd among List.not_mem_nil, ?_, holds.root⟩
  · intro block among
    obtain rfl := List.mem_singleton.mp among
    refine ⟨Nat.dvd_zero _, ?_, ?_, ?_, ?_, ?_⟩
    · rw [size]
    · rw [Block.stop, size, length]
      exact Nat.le_of_eq (Nat.zero_add _)
    · rw [head, size]
      rfl
    · rw [head]
      rfl
    · rw [payload]
      rfl
  · rw [head]
    rfl

/-- The linked blocks form a chain that walks visit. -/
theorem Contents.Stored.chainAt (stored : contents.Stored chunkSize recSize file)
    (large : sizeofHeadFile ≤ chunkSize.toNat) (bounded : file.length ≤ offMax) :
    ChainAt file 0 (contents.linked.map Block.start) := by
  have among {block : Block} (linked : block ∈ contents.linked) : block ∈ contents.blocks :=
    List.mem_append_left _ linked
  have long {block : Block} (linked : block ∈ contents.linked) : 72 ≤ block.size := by
    have size := block.size_ge
    exact large.trans (Nat.le_of_dvd (by omega) (stored.each block (among linked)).whole)
  have stop {block : Block} (linked : block ∈ contents.linked) :
      blockStop file block.start = block.stop := by
    rw [blockStop, (stored.each block (among linked)).size, Block.stop]
    exact congrArg _ (Nat.max_eq_right block.size_ge)
  refine ⟨stored.chain, ?_, ?_, ?_, bounded⟩
  · obtain ⟨root, rest, linked, zero⟩ := stored.first
    rw [linked, ← zero]
    rfl
  · intro offset there
    obtain ⟨block, linked, rfl⟩ := List.mem_map.mp there
    have inside := stored.behind block (among linked)
    have size := long linked
    rw [Block.stop] at inside
    rw [show sizeofHeadFile = 72 from rfl]
    omega
  · apply List.pairwise_map.mpr
    apply (List.pairwise_append.mp stored.apart).1.imp_of_mem
    intro one other oneAmong otherAmong apart
    rw [BlocksApart, stop oneAmong, stop otherAmong]
    exact apart

/-- The header of the file is accepted by an opening, and names the chunk size. -/
theorem Contents.Stored.accepted (stored : contents.Stored chunkSize recSize file)
    (large : sizeofHeadFile ≤ chunkSize.toNat) :
    blocksValidateHeadFile (some (rootHead file)) = .success ∧
      (rootHead file).fhead.chunkSize = chunkSize := by
  obtain ⟨root, rooted, zero⟩ := stored.root
  have each := stored.each root rooted
  have data := each.data
  have size := each.size
  have first : (rootHead file).bhead = headAt file 0 := by
    rw [rootHead, RndHeadFile.ofBytes, headAt]
    exact congrArg InfoBlock.ofBytes (slice_slice file 0 sizeofHeadFile 0 32 (by decide))
  rw [zero] at data size
  have positive : chunkSize ≠ 0 := by
    rintro rfl
    exact absurd large (by decide)
  have long := root.size_ge
  have dataSome : (headAt file 0).bytesToData ≠ 0 := by
    intro none
    rw [none] at data
    exact absurd data (by decide)
  have sizeSome : (headAt file 0).blockSize ≠ 0 := by
    intro none
    rw [none] at size
    have zero : (0 : UInt32).toNat = 0 := rfl
    omega
  have typeSome : (headAt file 0).blockType ≠ 0 := by
    rw [stored.type]
    decide
  refine ⟨?_, congrArg InfoFile.chunkSize stored.head.2⟩
  rw [blocksValidateHeadFile, if_neg]
  rw [first, stored.head.2]
  simp only [not_or]
  exact ⟨positive, not_not_intro rfl, typeSome, dataSome, sizeSome⟩

end Files

end Recnodb
